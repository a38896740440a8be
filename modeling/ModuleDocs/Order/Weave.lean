import ModuleDocs.Order.Gallop

/-!
# Merging two runs

Of two runs in order one is made.  Items in front of the first run that are not
behind any of the second stay where they are, and so do items at the end of the second
that are before none of the first.  What lies between is merged from the end at which
the run of fewer items is, so that it is that run whose items have to be kept aside.

The next item comes from one run or the other by a comparison.  When one of them has
given enough in a row, which `Weave.patience` says, items are skipped by counting,
until this does not pay.  How patient merging is changes with its success, and goes on
from one merge to the next.
-/

namespace ModuleDocs.Ascending

variable {α ε : Type}

/-- Two runs on the way to one. -/
structure Weave (α : Type) where
  /-- The run of fewer items. -/
  short : Feed α
  long : Feed α
  woven : Array α
  patience : Nat

/-- The patience that sorting starts with, and the number of items that skipping must
pass over to be worth while. -/
def startPatience : Nat := 7

namespace Weave

/-- Whether no comparison is needed: the last item of the shorter run is known to be
behind the longer one. -/
def isDone (w : Weave α) : Bool := w.long.size = 0 || w.short.size ≤ 1

/-- All items, when no comparison is needed. -/
def finish (w : Weave α) : Array α := w.woven ++ w.long.rest ++ w.short.rest

def takeShort (w : Weave α) (n : Nat) : Weave α :=
  { w with short := w.short.drop n, woven := w.woven ++ w.short.take n }

def takeLong (w : Weave α) (n : Nat) : Weave α :=
  { w with long := w.long.drop n, woven := w.woven ++ w.long.take n }

/-- Whether an item of the longer run comes before one of the shorter, seen from the
end that is merged first.  Of two items of which none is before the other, the one of
the first run keeps its place in front. -/
def longFirst (less : α → α → Except ε Bool) (side : Side) (short long : α) : Except ε Bool :=
  match side with
  | .front => less long short
  | .back => less short long

/-- Skips items of the shorter run that come before the longer one, and then takes one of
the longer.  Gives the number of items skipped. -/
def skipShort (less : α → α → Except ε Bool) (side : Side) (w : Weave α) :
    Except ε (Weave α × Nat) := do
  match w.long.get? 0 with
  | none => return (w, 0)
  | some long =>
    let n ← w.short.leading side fun short => return ! (← longFirst less side short long)
    let w := w.takeShort n
    return (if w.isDone then w else w.takeLong 1, n)

/-- Skips items of the longer run that come before the shorter one, and then takes one of
the shorter.  Gives the number of items skipped. -/
def skipLong (less : α → α → Except ε Bool) (side : Side) (w : Weave α) :
    Except ε (Weave α × Nat) := do
  match w.short.get? 0 with
  | none => return (w, 0)
  | some short =>
    let n ← w.long.leading side fun long => longFirst less side short long
    let w := w.takeLong n
    return (if w.isDone then w else w.takeShort 1, n)

/-- Skips items of both runs, of the first run first. -/
def skipBoth (less : α → α → Except ε Bool) (side : Side) (w : Weave α) :
    Except ε (Weave α × Nat) := do
  let (first, second) :=
    match side with
    | .front => (skipShort less side, skipLong less side)
    | .back => (skipLong less side, skipShort less side)
  let (w, m) ← first w
  if w.isDone then return (w, m)
  else
    let (w, n) ← second w
    return (w, max m n)

/-- How the next items are found. -/
inductive Pace where
  /-- One by one; the numbers of items in a row that the two runs have given. -/
  | single (short long : Nat)
  | skipping

/-- Merges until no comparison is needed.  Each step takes an item, so that `fuel` need
not be more than the number of items. -/
def run (less : α → α → Except ε Bool) (side : Side) : Nat → Pace → Weave α →
    Except ε (Weave α)
  | 0, _, w => .ok w
  | fuel + 1, .single shortRow longRow, w =>
    match w.short.get? 0, w.long.get? 0 with
    | some short, some long => do
      let isLong ← longFirst less side short long
      let w := if isLong then w.takeLong 1 else w.takeShort 1
      let shortRow := if isLong then 0 else shortRow + 1
      let longRow := if isLong then longRow + 1 else 0
      if w.isDone then return w
      else if w.patience ≤ max shortRow longRow then run less side fuel .skipping w
      else run less side fuel (.single shortRow longRow) w
    | _, _ => .ok w
  | fuel + 1, .skipping, w => do
    let (w, n) ← skipBoth less side w
    if w.isDone then return w
    else if startPatience ≤ n then
      run less side fuel .skipping { w with patience := max 1 (w.patience - 1) }
    else run less side fuel (.single 0 0) { w with patience := w.patience + 1 }

/-- Merges two runs of which the first item of the longer comes first. -/
def merge (less : α → α → Except ε Bool) (side : Side) (patience : Nat) (short long : Array α) :
    Except ε (Array α × Nat) := do
  let w : Weave α := Weave.takeLong ⟨.ofArray short, .ofArray long, #[], patience⟩ 1
  let w ← if w.isDone then pure w else run less side (short.size + long.size) (.single 0 0) w
  return (w.finish, w.patience)

end Weave

/-- Merges two runs, the first of which stands in front.  Gives the merged run and the
patience left. -/
def mergeRuns (less : α → α → Except ε Bool) (patience : Nat) (first second : Array α) :
    Except ε (Array α × Nat) := do
  match first.back?, second[0]? with
  | some last, some head =>
    let settled ← (Feed.ofArray first).leading .front fun item => return ! (← less head item)
    let left := first.extract settled first.size
    if left.isEmpty then return (first ++ second, patience)
    else
      let after ← (Feed.ofArray second.reverse).leading .back fun item =>
        return ! (← less item last)
      let right := second.extract 0 (second.size - after)
      let tail := second.extract (second.size - after) second.size
      if right.isEmpty then return (first ++ second, patience)
      else if left.size ≤ right.size then
        let (woven, patience) ← Weave.merge less .front patience left right
        return (first.extract 0 settled ++ woven ++ tail, patience)
      else
        let (woven, patience) ← Weave.merge less .back patience right.reverse left.reverse
        return (first.extract 0 settled ++ woven.reverse ++ tail, patience)
  | _, _ => return (first ++ second, patience)

end ModuleDocs.Ascending
