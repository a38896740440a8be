import ModuleDocs.File.Path

/-!
# Trees of nodes

A location is the names on the way from the root.  A tree gives nodes to locations;
each of its branches stands for a name and holds what is below it, so that following
a location takes a step for each name.

`get?_set` says what is at each location after a change, and `mem_nodes_of_get?` that
the list of nodes leaves nothing out.
-/

namespace ModuleDocs

/-- The names on the way from the root to a node. -/
abbrev Location := List FileName

inductive Node where
  | file (data : Bytes)
  | directory
deriving DecidableEq, Repr

/-- The nodes below a location: under one name, with the node there, and under the
other names. -/
inductive Tree where
  | empty
  | branch (name : FileName) (node? : Option Node) (below others : Tree)

namespace Tree

/-- The node at a location. -/
def get? : Tree → Location → Option Node
  | .empty, _ => none
  | .branch .., [] => none
  | .branch name node? below others, first :: rest =>
    if first = name then if rest.isEmpty then node? else below.get? rest
    else others.get? (first :: rest)

/-- The node under a name, and the nodes below it. -/
def child : Tree → FileName → Option Node × Tree
  | .empty, _ => (none, .empty)
  | .branch name node? below others, wanted =>
    if wanted = name then (node?, below) else others.child wanted

/-- The tree with one node. -/
def single (node? : Option Node) : Location → Tree
  | [] => .empty
  | [name] => .branch name node? .empty .empty
  | name :: rest => .branch name none (single node? rest) .empty

/-- Puts a node at a location, or takes it away. -/
def set (node? : Option Node) : Tree → Location → Tree
  | .empty, at_ => single node? at_
  | .branch name old? below others, [] => .branch name old? below others
  | .branch name old? below others, first :: rest =>
    if first = name then
      if rest.isEmpty then .branch name node? below others
      else .branch name old? (below.set node? rest) others
    else .branch name old? below (others.set node? (first :: rest))

/-- Nodes with their locations, of which all are below `above`.  A node comes before
those below it. -/
def nodesBelow (above : Location) : Tree → List (Location × Node)
  | .empty => []
  | .branch name node? below others =>
    let here := above ++ [name]
    (node?.map fun node => (here, node)).toList
      ++ (nodesBelow here below ++ nodesBelow above others)

/-- Nodes with their locations. -/
def nodes (t : Tree) : List (Location × Node) := nodesBelow [] t

/-! ## Laws -/

theorem get?_singleton (t : Tree) (name : FileName) : t.get? [name] = (t.child name).1 := by
  induction t with
  | empty => rfl
  | branch other node? below others _ ih => by_cases h : name = other <;> simp [get?, child, h, ih]

theorem get?_cons_of_ne_nil (t : Tree) (name : FileName) {rest : Location} (h : rest ≠ []) :
    t.get? (name :: rest) = (t.child name).2.get? rest := by
  induction t with
  | empty => simp [get?, child]
  | branch other node? below others _ ih =>
    by_cases he : name = other <;> simp [get?, child, he, h, ih]

theorem get?_single (node? : Option Node) {a : Location} (ha : a ≠ []) (b : Location) :
    (single node? a).get? b = if b = a then node? else none := by
  fun_induction single node? a generalizing b with
  | case1 => exact absurd rfl ha
  | case2 name =>
    cases b with
    | nil => simp [get?]
    | cons first rest => by_cases h : first = name <;> cases rest <;> simp [get?, h]
  | case3 name rest hrest ih =>
    have hne : rest ≠ [] := fun h => hrest h
    cases b with
    | nil => simp [get?]
    | cons first more =>
      by_cases h : first = name
      · cases more with
        | nil => simp [get?, h, hne.symm]
        | cons _ _ => simp [get?, h, ih hne]
      · simp [get?, h]

/-- What is at a location after a change. -/
theorem get?_set (node? : Option Node) (t : Tree) {a : Location} (ha : a ≠ []) (b : Location) :
    (t.set node? a).get? b = if b = a then node? else t.get? b := by
  fun_induction set node? t a generalizing b with
  | case1 a => rw [get?_single node? ha]; rfl
  | case2 => exact absurd rfl ha
  | case3 old? below others name rest hrest =>
    have : rest = [] := by simpa using hrest
    subst this
    cases b with
    | nil => simp [get?]
    | cons first more => by_cases h : first = name <;> cases more <;> simp [get?, h]
  | case4 old? below others name rest hrest ih =>
    have hne : rest ≠ [] := by simpa using hrest
    cases b with
    | nil => simp [get?]
    | cons first more =>
      by_cases h : first = name
      · cases more with
        | nil => simp [get?, h, hne.symm]
        | cons _ _ => simp [get?, h, ih hne]
      · simp [get?, h]
  | case5 name old? below others first rest hname ih =>
    cases b with
    | nil => simp [get?]
    | cons next more =>
      by_cases h : next = name
      · have : ¬ name = first := fun e => hname e.symm
        simp [get?, h, this]
      · simp only [get?, h, if_false, ih (by simp)]

theorem mem_nodesBelow_of_get? (above : Location) (t : Tree) {a : Location} {node : Node}
    (h : t.get? a = some node) : (above ++ a, node) ∈ nodesBelow above t := by
  fun_induction get? t a generalizing above with
  | case1 | case2 => cases h
  | case3 node? below others name rest hrest =>
    have : rest = [] := by simpa using hrest
    subst this
    simp [nodesBelow, h]
  | case4 node? below others name rest hrest ih =>
    have := ih (above ++ [name]) h
    simp only [List.append_assoc, List.singleton_append] at this
    simp [nodesBelow, this]
  | case5 name node? below others first rest hname ih => simp [nodesBelow, ih above h]

/-- Each node is in the list. -/
theorem mem_nodes_of_get? {t : Tree} {a : Location} {node : Node} (h : t.get? a = some node) :
    (a, node) ∈ t.nodes := mem_nodesBelow_of_get? [] t h

end Tree

end ModuleDocs
