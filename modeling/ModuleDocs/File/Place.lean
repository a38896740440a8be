import ModuleDocs.File.Tree

/-!
# Places in a tree

A place holds the node that is there, the nodes below it and the places it is in, so
that going down or up from it is one step however far away the root is.

`Place.reach` goes to a location.  `node?_reach` says that what is found there is what
the tree has at the location, `location_reach` that the place knows the location, and
`reach_concat` and `up_reach_concat` how the places along a way are related.
-/

namespace ModuleDocs

/-- Where a walk through a tree has come to: the root, or what is under a name in
another place. -/
inductive Place where
  | root (tree : Tree)
  | under (above : Place) (name : FileName) (node? : Option Node) (tree : Tree)

namespace Place

/-- The node at a place.  The root is a directory. -/
def node? : Place → Option Node
  | .root _ => some .directory
  | .under _ _ node? _ => node?

/-- The nodes below a place. -/
def tree : Place → Tree
  | .root tree => tree
  | .under _ _ _ tree => tree

/-- The place that a place is in.  The root is in itself. -/
def up : Place → Place
  | .root tree => .root tree
  | .under above .. => above

/-- What is under a name in a place. -/
def down (p : Place) (name : FileName) : Place :=
  .under p name (p.tree.child name).1 (p.tree.child name).2

/-- The names on the way to a place, with more names behind them. -/
def namesBefore (more : Location) : Place → Location
  | .root _ => more
  | .under above name .. => above.namesBefore (name :: more)

/-- The location of a place. -/
def location (p : Place) : Location := p.namesBefore []

/-- The place at a location below another place. -/
def descend (p : Place) (at_ : Location) : Place := at_.foldl down p

/-- The place at a location. -/
def reach (t : Tree) (at_ : Location) : Place := descend (.root t) at_

/-! ## Laws -/

theorem namesBefore_eq (p : Place) (more : Location) : p.namesBefore more = p.location ++ more := by
  induction p generalizing more with
  | root => rfl
  | under above name _ _ ih =>
    simp only [location, namesBefore] at ih ⊢
    rw [ih (name :: more), ih [name]]
    simp

@[simp]
theorem location_down (p : Place) (name : FileName) :
    (p.down name).location = p.location ++ [name] :=
  namesBefore_eq p [name]

theorem location_descend (p : Place) (a : Location) :
    (p.descend a).location = p.location ++ a := by
  induction a generalizing p with
  | nil => exact (List.append_nil _).symm
  | cons name rest ih =>
    have := ih (p.down name)
    rwa [location_down, List.append_assoc] at this

@[simp]
theorem location_reach (t : Tree) (a : Location) : (reach t a).location = a :=
  location_descend (.root t) a

/-- The node at a place is the one that the tree has at its location. -/
theorem node?_descend (p : Place) {a : Location} (ha : a ≠ []) :
    (p.descend a).node? = p.tree.get? a := by
  induction a generalizing p with
  | nil => exact absurd rfl ha
  | cons name rest ih =>
    by_cases hrest : rest = []
    · subst hrest
      exact (Tree.get?_singleton p.tree name).symm
    · rw [Tree.get?_cons_of_ne_nil p.tree name hrest]
      exact ih (p.down name) hrest

theorem node?_reach (t : Tree) {a : Location} (ha : a ≠ []) : (reach t a).node? = t.get? a :=
  node?_descend (.root t) ha

/-- A longer way goes on from where a shorter one ends. -/
theorem reach_concat (t : Tree) (a : Location) (name : FileName) :
    reach t (a ++ [name]) = (reach t a).down name := by
  simp [reach, descend]

@[simp]
theorem up_reach_concat (t : Tree) (a : Location) (name : FileName) :
    (reach t (a ++ [name])).up = reach t a := by
  rw [reach_concat]
  rfl

end Place

end ModuleDocs
