import ModuleDocs.Order.Weave

/-!
# Sorting by a comparison that can fail

Some values cannot be compared, and then the pair that was compared first is
reported; others are before or behind nothing at all, and then their order is that in
which comparisons left them.  `Ascending.sort` therefore fixes the comparisons.

It measures the longest ascending or strictly descending run at the front, turns a
descending one round, and puts further items in place by binary search until the run
has a least size.  Runs are merged with their neighbours in the order of a nearly even
tree over the places in the list: the boundary between two runs has the depth in that
tree at which their middles part, and deep boundaries are closed first.
-/

namespace ModuleDocs.Ascending

variable {α ε : Type}

/-! ## Runs -/

/-- The number of further items that keep on in one direction after `previous`. -/
def runLength (less : α → α → Except ε Bool) (down : Bool) (previous : α) (count : Nat) :
    List α → Except ε Nat
  | [] => .ok count
  | item :: rest => do
    if (← less item previous) = down then runLength less down item (count + 1) rest
    else return count

/-- The place for `item` among the items from `low` up to `high`. -/
def place (less : α → α → Except ε Bool) (item : α) (sorted : List α) (low high : Nat) :
    Except ε Nat :=
  if low < high then
    let middle := low + (high - low) / 2
    match sorted[middle]? with
    | none => .ok low
    | some other => do
      if ← less item other then place less item sorted low middle
      else place less item sorted (middle + 1) high
  else .ok low
termination_by high - low

/-- Puts items one after the other in their places. -/
def insertAll (less : α → α → Except ε Bool) (sorted : List α) : List α → Except ε (List α)
  | [] => .ok sorted
  | item :: rest => do
    let at_ ← place less item sorted 0 sorted.length
    insertAll less (sorted.take at_ ++ item :: sorted.drop at_) rest

/-- The least size of runs, for which `n` items make about a power of two of them. -/
def leastRun (n : Nat) : Nat :=
  if n < 64 then n else leastRun' 0 n
where
  /-- Halves a number until it is small, and adds one if anything was lost. -/
  leastRun' (lost n : Nat) : Nat :=
    if n < 64 then n + lost else leastRun' (max lost (n % 2)) (n / 2)
  termination_by n

/-- The first run of items, in ascending order, and the items behind it. -/
def nextRun (less : α → α → Except ε Bool) (least : Nat) (items : List α) :
    Except ε (List α × List α) :=
  match items with
  | a :: b :: rest => do
    let down ← less b a
    let n ← runLength less down b 2 rest
    let front := items.take n
    let run ← insertAll less (if down then front.reverse else front)
      ((items.drop n).take (least - n))
    return (run, items.drop (max n least))
  | _ => .ok (items, [])

/-! ## The order of merges -/

/-- The least depth, from `depth` on, at which two places part in a tree over `n`
places. -/
def partingDepth (n : Nat) : Nat → Nat → Nat → Nat → Nat
  | 0, depth, _, _ => depth
  | fuel + 1, depth, a, b =>
    if a / n ≠ b / n then depth else partingDepth n fuel (depth + 1) (2 * a) (2 * b)

/-- The depth of the boundary between a run of `first` items from `start` on and a run of
`second` items behind it, among `n` items. -/
def boundaryDepth (n start first second : Nat) : Nat :=
  partingDepth n n 1 (2 * start + first) (2 * start + 2 * first + second)

/-- A run that waits for its neighbours, and the depth of the boundary behind it. -/
structure Waiting (α : Type) where
  items : Array α
  depth : Nat

/-- A run with those that wait in front of it, the nearest first. -/
structure Pile (α : Type) where
  waiting : List (Waiting α)
  last : Array α
  patience : Nat

/-- Closes the boundaries in front of the last run that are deeper than `depth`. -/
def closeDeeper (less : α → α → Except ε Bool) (depth : Nat) (waiting : List (Waiting α))
    (last : Array α) (patience : Nat) : Except ε (Pile α) :=
  match waiting with
  | [] => .ok ⟨[], last, patience⟩
  | top :: rest => do
    if depth < top.depth then
      let (merged, patience) ← mergeRuns less patience top.items last
      closeDeeper less depth rest merged patience
    else return ⟨top :: rest, last, patience⟩

/-- Closes all boundaries from the last on, but of three runs in a row the first two
before the last two when the first is smaller than the last. -/
def closeAll (less : α → α → Except ε Bool) (waiting : List (Waiting α)) (last : Array α)
    (patience : Nat) : Except ε (Array α) :=
  match waiting with
  | [] => .ok last
  | [top] => do return (← mergeRuns less patience top.items last).1
  | top :: next :: rest => do
    if next.items.size < last.size then
      let (merged, patience) ← mergeRuns less patience next.items top.items
      closeAll less (⟨merged, top.depth⟩ :: rest) last patience
    else
      let (merged, patience) ← mergeRuns less patience top.items last
      closeAll less (next :: rest) merged patience
termination_by waiting.length

/-- Sorts `items`, which stand behind the runs of a pile, among `n` items; the last run
of the pile starts at `start`.  Each run takes an item, so that `fuel` need not be more
than their number. -/
def sortBehind (less : α → α → Except ε Bool) (n : Nat) :
    Nat → Nat → Pile α → List α → Except ε (Array α)
  | 0, _, pile, _ => closeAll less pile.waiting pile.last pile.patience
  | fuel + 1, start, pile, items => do
    if items.isEmpty then closeAll less pile.waiting pile.last pile.patience
    else
      let (run, rest) ← nextRun less (leastRun n) items
      let first := pile.last.size
      let depth := boundaryDepth n start first run.length
      let closed ← closeDeeper less depth pile.waiting pile.last pile.patience
      sortBehind less n fuel (start + first)
        ⟨⟨closed.last, depth⟩ :: closed.waiting, run.toArray, closed.patience⟩ rest

/-- The items in ascending order, or the error of the first comparison that fails. -/
def sort (less : α → α → Except ε Bool) (items : List α) : Except ε (List α) := do
  let n := items.length
  let (run, rest) ← nextRun less (leastRun n) items
  let sorted ← sortBehind less n n 0 ⟨[], run.toArray, startPatience⟩ rest
  return sorted.toList

end ModuleDocs.Ascending
