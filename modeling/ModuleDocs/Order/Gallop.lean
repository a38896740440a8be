/-!
# Counting items in front

In a run of items that is in order, the items that pass a test may stand in front of
those that do not.  `Feed.leading` finds how many they are with few tests: it looks at
distances that double, and then halves what lies between the last two.  Where items
are in no such order it still gives a number, which depends on the items it looks at;
so the places are fixed.
-/

namespace ModuleDocs.Ascending

/-- The end of two runs from which they are merged. -/
inductive Side where
  | front
  | back
deriving DecidableEq, Repr

/-- The items of a run without the first `taken`.  A run that is merged from the back
has its last item first. -/
structure Feed (α : Type) where
  items : Array α
  taken : Nat

namespace Feed

variable {α ε : Type}

def ofArray (items : Array α) : Feed α := ⟨items, 0⟩

/-- The number of items left. -/
def size (f : Feed α) : Nat := f.items.size - f.taken

/-- The item behind `i` others. -/
def get? (f : Feed α) (i : Nat) : Option α := f.items[f.taken + i]?

/-- The items left. -/
def rest (f : Feed α) : Array α := f.items.extract f.taken f.items.size

/-- The first `n` items. -/
def take (f : Feed α) (n : Nat) : Array α := f.items.extract f.taken (f.taken + n)

/-- Passes over `n` items. -/
def drop (f : Feed α) (n : Nat) : Feed α := { f with taken := f.taken + n }

/-- Looks at the item at `next`, and farther on as long as items pass.  Gives the last
place known to pass and a place that does not, or the end. -/
def widen (test : α → Except ε Bool) (f : Feed α) (known next : Nat) : Except ε (Nat × Nat) :=
  if next < f.size then
    match f.get? next with
    | none => .ok (known, next)
    | some item => do
      if ← test item then widen test f next (2 * next + 1) else return (known, next)
  else .ok (known, f.size)
termination_by f.size - next

/-- The place in the middle of places from `low` up to `high`; of two it is the one
farther from the end that is merged first. -/
def middle (side : Side) (low high : Nat) : Nat :=
  match side with
  | .front => low + (high - low) / 2
  | .back => high - 1 - (high - low) / 2

theorem low_le_middle (side : Side) {low high : Nat} (h : low < high) :
    low ≤ middle side low high := by
  cases side <;> simp only [middle] <;> omega

theorem middle_lt_high (side : Side) {low high : Nat} (h : low < high) :
    middle side low high < high := by
  cases side <;> simp only [middle] <;> omega

/-- The first place from `low` up to `high` that does not pass. -/
def narrow (side : Side) (test : α → Except ε Bool) (f : Feed α) (low high : Nat) :
    Except ε Nat :=
  if _range : low < high then
    match f.get? (middle side low high) with
    | none => .ok low
    | some item => do
      if ← test item then narrow side test f (middle side low high + 1) high
      else narrow side test f low (middle side low high)
  else .ok low
termination_by high - low
decreasing_by
  · have := low_le_middle side _range
    omega
  · have := middle_lt_high side _range
    omega

/-- The number of items in front that pass. -/
def leading (side : Side) (test : α → Except ε Bool) (f : Feed α) : Except ε Nat :=
  match f.get? 0 with
  | none => .ok 0
  | some item => do
    if ← test item then
      let (known, bound) ← widen test f 0 1
      narrow side test f (known + 1) bound
    else return 0

end Feed

end ModuleDocs.Ascending
