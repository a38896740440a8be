import Mathlib
import ModuleDocs.Proofs.Source.Derivation

/-!
# All derivations of a value

Each derivation is one of the trees that `Node.HasTree` and `FormNode.HasTree` describe: what
the grammar says of the parts of a rule is solved for the value, one rule at a time
(`SyntaxTree.IsDerivation.isSolved`).  So the derivations of a source are known
(`isParse_iff`).
-/

namespace ModuleDocs.Source

open Computability SyntaxTree

variable {α : Type}

namespace SyntaxTree

variable {rule : Rule} {children : List SyntaxTree}

/-- The tree is among those described for its rule. -/
def IsSolved : SyntaxTree → Prop
  | .leaf _ => True
  | .node .start children => ∃ forms, List.Forall₂ FormNode.HasTree forms children
  | .node .form children => ∃ form : FormNode, form.HasTree (.node .form children)
  | .node .value children => ∃ node : Node, node.HasTree (.node .value children)
  | .node .pair children => ∃ pair, HasPairTree pair (.node .pair children)
  | .node rule children => ∃ node : Node, node.HasTree (.ofValue rule children)

private theorem separated_of_parts {R : α → SyntaxTree → Prop} {a : α} {tree : SyntaxTree}
    {parts : List (List SyntaxTree)} (h : R a tree)
    (hparts : ∀ part ∈ parts, part.map label ∈ Label.one .comma * Label.sub rule)
    (hR : ∀ children, .node rule children ∈ parts.flatten → ∃ a, R a (.node rule children)) :
    ∃ items, Separated R (a :: items) (tree :: parts.flatten) := by
  induction parts generalizing a tree with
  | nil => exact ⟨[], .one h⟩
  | cons part parts ih =>
    obtain ⟨hpart, hrest⟩ := List.forall_mem_cons.1 hparts
    obtain ⟨front, back, rfl, hfront, hback⟩ := labels_mem_mul.1 hpart
    obtain ⟨comma, hcomma, rfl⟩ := labels_mem_one.1 hfront
    obtain ⟨children, rfl⟩ := labels_mem_sub.1 hback
    obtain ⟨b, hb⟩ := hR children (by simp)
    obtain ⟨items, hitems⟩ := ih hb hrest fun children h => hR children (by simp [h])
    exact ⟨b :: items, .cons h hcomma hitems⟩

theorem separated_of_labels {R : α → SyntaxTree → Prop}
    (h : children.map label ∈ Label.separated rule)
    (hR : ∀ grandchildren, .node rule grandchildren ∈ children →
      ∃ a, R a (.node rule grandchildren)) : ∃ items, Separated R items children := by
  rcases (Language.mem_add _ _ _).1 h with h | h
  · rw [List.map_eq_nil_iff.1 h]
    exact ⟨[], .nil⟩
  · obtain ⟨front, back, rfl, hfront, hback⟩ := labels_mem_mul.1 h
    obtain ⟨first, rfl⟩ := labels_mem_sub.1 hfront
    obtain ⟨parts, rfl, hparts⟩ := labels_mem_kstar.1 hback
    obtain ⟨a, ha⟩ := hR first (by simp)
    obtain ⟨items, hitems⟩ :=
      separated_of_parts ha hparts fun children h => hR children (by simp [h])
    exact ⟨a :: items, hitems⟩

/-- What stands between two brackets. -/
private theorem exists_between (rule : Rule) {opening closing : TokenKind}
    {between : Language Label}
    (h : children.map label ∈ Label.one opening * between * Label.one closing) :
    ∃ (l : Token) (inner : List SyntaxTree), inner.map label ∈ between
      ∧ (∀ child ∈ inner, child ∈ children)
      ∧ (ofValue rule children).IsBracketed rule opening closing l.position inner := by
  obtain ⟨_, _, rfl, h, hclosing⟩ := labels_mem_mul.1 h
  obtain ⟨_, inner, rfl, hopening, hinner⟩ := labels_mem_mul.1 h
  obtain ⟨l, hl, rfl⟩ := labels_mem_one.1 hopening
  obtain ⟨r, hr, rfl⟩ := labels_mem_one.1 hclosing
  exact ⟨l, inner, hinner, fun child hchild => by simp [hchild], l, r, hl, rfl, hr, rfl⟩

theorem isSolved_start (hparts : children.map label ∈ Rule.start.parts)
    (ih : ∀ child ∈ children, child.IsSolved) : (node .start children).IsSolved := by
  obtain ⟨parts, rfl, hforms⟩ := labels_mem_kstar.1 hparts
  clear hparts
  induction parts with
  | nil => exact ⟨[], .nil⟩
  | cons part parts hrest =>
    obtain ⟨hpart, hothers⟩ := List.forall_mem_cons.1 hforms
    obtain ⟨grandchildren, rfl⟩ := labels_mem_sub.1 hpart
    obtain ⟨form, hform⟩ : IsSolved (.node .form grandchildren) := ih _ (by simp)
    obtain ⟨forms, htrees⟩ := hrest hothers fun child hchild => ih child (by simp [hchild])
    exact ⟨form :: forms, .cons hform htrees⟩

/-- The value of a form stands in parentheses or not. -/
private theorem exists_enclosed
    (h : children.map label ∈ Label.one .leftParen * Label.sub .value * Label.one .rightParen
      + Label.sub .value) :
    ∃ grandchildren, .node .value grandchildren ∈ children
      ∧ IsEnclosed (.node .value grandchildren) children := by
  rcases (Language.mem_add _ _ _).1 h with h | h
  · obtain ⟨_, _, rfl, h, hclosing⟩ := labels_mem_mul.1 h
    obtain ⟨_, _, rfl, hopening, hvalue⟩ := labels_mem_mul.1 h
    obtain ⟨l, hl, rfl⟩ := labels_mem_one.1 hopening
    obtain ⟨r, hr, rfl⟩ := labels_mem_one.1 hclosing
    obtain ⟨grandchildren, rfl⟩ := labels_mem_sub.1 hvalue
    exact ⟨grandchildren, by simp, Or.inr ⟨l, r, hl, hr, rfl⟩⟩
  · obtain ⟨grandchildren, rfl⟩ := labels_mem_sub.1 h
    exact ⟨grandchildren, by simp, Or.inl rfl⟩

theorem isSolved_form (hparts : children.map label ∈ Rule.form.parts)
    (ih : ∀ child ∈ children, child.IsSolved) : (node .form children).IsSolved := by
  obtain ⟨_, _, rfl, h, hend⟩ := labels_mem_mul.1 hparts
  obtain ⟨_, inner, rfl, h, hinner⟩ := labels_mem_mul.1 h
  obtain ⟨_, _, rfl, hstart, hword⟩ := labels_mem_mul.1 h
  obtain ⟨sign, hsign, rfl⟩ := labels_mem_one.1 hstart
  obtain ⟨name, hname, rfl⟩ := labels_mem_one.1 hword
  obtain ⟨dot, hdot, rfl⟩ := labels_mem_one.1 hend
  obtain ⟨grandchildren, hmem, henclosed⟩ := exists_enclosed hinner
  obtain ⟨node, hnode⟩ : IsSolved (.node .value grandchildren) := ih _ (by simp [hmem])
  exact ⟨⟨sign.position, name, node⟩, sign, dot, _, inner, hsign, rfl, hname, hnode, henclosed,
    hdot, rfl⟩

theorem isSolved_value (hparts : children.map label ∈ Rule.value.parts)
    (ih : ∀ child ∈ children, child.IsSolved) : (node .value children).IsSolved := by
  obtain ⟨rule, hrule, hlabels⟩ := mem_value_parts.1 hparts
  obtain ⟨grandchildren, rfl⟩ := labels_mem_sub.1 hlabels
  have hchild : IsSolved (.node rule grandchildren) := ih _ (by simp)
  simp only [valueRules, List.mem_cons, List.not_mem_nil, or_false] at hrule
  rcases hrule with rfl | rfl | rfl | rfl | rfl | rfl | rfl | rfl <;> exact hchild

theorem isSolved_pair (hparts : children.map label ∈ Rule.pair.parts)
    (ih : ∀ child ∈ children, child.IsSolved) : (node .pair children).IsSolved := by
  obtain ⟨_, _, rfl, h, hsecond⟩ := labels_mem_mul.1 hparts
  obtain ⟨_, _, rfl, hfirst, hsign⟩ := labels_mem_mul.1 h
  obtain ⟨keyChildren, rfl⟩ := labels_mem_sub.1 hfirst
  obtain ⟨valueChildren, rfl⟩ := labels_mem_sub.1 hsecond
  obtain ⟨arrow, harrow, rfl⟩ := labels_mem_one.1 hsign
  obtain ⟨key, hkey⟩ : IsSolved (.node .value keyChildren) := ih _ (by simp)
  obtain ⟨value, hvalue⟩ : IsSolved (.node .value valueChildren) := ih _ (by simp)
  exact ⟨(key, value), _, arrow, _, hkey, harrow, hvalue, rfl⟩

theorem isSolved_string (hparts : children.map label ∈ Rule.string.parts) :
    (node .string children).IsSolved := by
  obtain ⟨_, _, rfl, hfirst, hrest⟩ := labels_mem_mul.1 hparts
  obtain ⟨first, hfirst, rfl⟩ := labels_mem_one.1 hfirst
  obtain ⟨rest, hrest, rfl⟩ := labels_mem_one_kstar.1 hrest
  exact ⟨.string (first :: rest), List.cons_ne_nil _ _, List.forall_mem_cons.2 ⟨‹_›, ‹_›⟩, rfl⟩

theorem isSolved_binary (hparts : children.map label ∈ Rule.binary.parts) :
    (node .binary children).IsSolved := by
  rw [binary_parts] at hparts
  obtain ⟨l, inner, hinner, _, hbracketed⟩ := exists_between .binary hparts
  obtain ⟨_, _, rfl, hstrings, hencoding⟩ := labels_mem_mul.1 hinner
  obtain ⟨parts, hparts, rfl⟩ := labels_mem_one_kstar.1 hstrings
  rcases (Language.mem_add _ _ _).1 hencoding with hnone | hsome
  · rw [List.map_eq_nil_iff.1 hnone] at hbracketed
    exact ⟨.binary l.position parts none, hparts, [], rfl, by simpa using hbracketed⟩
  · obtain ⟨_, _, rfl, hsign, hword⟩ := labels_mem_mul.1 hsome
    obtain ⟨slash, hslash, rfl⟩ := labels_mem_one.1 hsign
    obtain ⟨name, hname, rfl⟩ := labels_mem_one.1 hword
    exact ⟨.binary l.position parts (some name), hparts, [slash, name],
      ⟨hname, slash, hslash, rfl⟩, by simpa using hbracketed⟩

theorem isSolved_funRef (hparts : children.map label ∈ Rule.funRef.parts) :
    (node .funRef children).IsSolved := by
  obtain ⟨_, _, rfl, h, hnumber⟩ := labels_mem_mul.1 hparts
  obtain ⟨_, _, rfl, hword, hsign⟩ := labels_mem_mul.1 h
  obtain ⟨name, hname, rfl⟩ := labels_mem_one.1 hword
  obtain ⟨slash, hslash, rfl⟩ := labels_mem_one.1 hsign
  obtain ⟨arity, harity, rfl⟩ := labels_mem_one.1 hnumber
  exact ⟨.funRef name arity, hname, harity, slash, hslash, rfl⟩

theorem isSolved_atom (hparts : children.map label ∈ Rule.atom.parts) :
    (node .atom children).IsSolved := by
  rcases (Language.mem_add _ _ _).1 hparts with h | h
  · obtain ⟨token, htoken, rfl⟩ := labels_mem_one.1 h
    exact ⟨.name token, htoken, rfl⟩
  · obtain ⟨token, htoken, rfl⟩ := labels_mem_one.1 h
    exact ⟨.quoted token, htoken, rfl⟩

theorem isSolved_integer (hparts : children.map label ∈ Rule.integer.parts) :
    (node .integer children).IsSolved := by
  rcases (Language.mem_add _ _ _).1 hparts with h | h
  · obtain ⟨token, htoken, rfl⟩ := labels_mem_one.1 h
    exact ⟨.integer token, htoken, rfl⟩
  · obtain ⟨_, _, rfl, hsign, hnumber⟩ := labels_mem_mul.1 h
    obtain ⟨sign, hsign, rfl⟩ := labels_mem_one.1 hsign
    obtain ⟨token, htoken, rfl⟩ := labels_mem_one.1 hnumber
    exact ⟨.negative sign.position token, htoken, sign, ‹_›, rfl, rfl⟩

private theorem exists_items (hparts : children.map label ∈ Label.separated .value)
    (ih : ∀ child ∈ children, child.IsSolved) : ∃ items, HasTrees items children := by
  obtain ⟨items, hitems⟩ := separated_of_labels hparts (R := Node.HasTree) fun _ h => ih _ h
  exact ⟨items, hasTrees_iff.2 hitems⟩

private theorem exists_pairs (hparts : children.map label ∈ Label.separated .pair)
    (ih : ∀ child ∈ children, child.IsSolved) : ∃ pairs, HavePairTrees pairs children := by
  obtain ⟨pairs, hpairs⟩ := separated_of_labels hparts (R := HasPairTree) fun _ h => ih _ h
  exact ⟨pairs, havePairTrees_iff.2 hpairs⟩

theorem isSolved_list (hparts : children.map label ∈ Rule.list.parts)
    (ih : ∀ child ∈ children, child.IsSolved) : (node .list children).IsSolved := by
  obtain ⟨l, inner, hinner, hmem, hbracketed⟩ := exists_between .list hparts
  obtain ⟨items, hitems⟩ := exists_items hinner fun child hchild => ih child (hmem child hchild)
  exact ⟨.list l.position items, inner, hitems, hbracketed⟩

theorem isSolved_tuple (hparts : children.map label ∈ Rule.tuple.parts)
    (ih : ∀ child ∈ children, child.IsSolved) : (node .tuple children).IsSolved := by
  obtain ⟨l, inner, hinner, hmem, hbracketed⟩ := exists_between .tuple hparts
  obtain ⟨items, hitems⟩ := exists_items hinner fun child hchild => ih child (hmem child hchild)
  exact ⟨.tuple l.position items, inner, hitems, hbracketed⟩

theorem isSolved_map (hparts : children.map label ∈ Rule.map.parts)
    (ih : ∀ child ∈ children, child.IsSolved) : (node .map children).IsSolved := by
  obtain ⟨l, inner, hinner, hmem, hbracketed⟩ := exists_between .map hparts
  obtain ⟨pairs, hpairs⟩ := exists_pairs hinner fun child hchild => ih child (hmem child hchild)
  exact ⟨.map l.position pairs, inner, hpairs, hbracketed⟩

/-- Each derivation is among the trees described for its rule. -/
theorem IsDerivation.isSolved {tree : SyntaxTree} (h : tree.IsDerivation) : tree.IsSolved := by
  induction h with
  | leaf token => trivial
  | @node rule children hparts _ ih =>
    cases rule with
    | start => exact isSolved_start hparts ih
    | form => exact isSolved_form hparts ih
    | value => exact isSolved_value hparts ih
    | string => exact isSolved_string hparts
    | binary => exact isSolved_binary hparts
    | funRef => exact isSolved_funRef hparts
    | atom => exact isSolved_atom hparts
    | integer => exact isSolved_integer hparts
    | list => exact isSolved_list hparts ih
    | tuple => exact isSolved_tuple hparts ih
    | map => exact isSolved_map hparts ih
    | pair => exact isSolved_pair hparts ih

end SyntaxTree

/-! ## Whole sources -/

private theorem derives_forms {forms : List FormNode} {children : List SyntaxTree}
    (h : List.Forall₂ FormNode.HasTree forms children) : children.map label ∈ Rule.start.parts
      ∧ (∀ child ∈ children, child.IsDerivation) ∧ children.filterMap form? = forms := by
  induction h with
  | nil => exact ⟨Language.nil_mem_kstar _, by simp, rfl⟩
  | cons hform _ ih =>
    obtain ⟨hlabel, hderivation, hwritten⟩ := hform.derives
    obtain ⟨hlabels, hderivations, hforms⟩ := ih
    refine ⟨?_, List.forall_mem_cons.2 ⟨hderivation, hderivations⟩, ?_⟩
    · exact append_mem_kstar (w := [_]) (congrArg (fun l => [l]) hlabel) hlabels
    · rw [List.filterMap_cons, hwritten, hforms]

/-- A derivation of a whole source is one of each of its forms. -/
theorem isParse_iff {tree : SyntaxTree} {tokens : List Token} {forms : List FormNode} :
    tree.IsParse tokens ∧ tree.forms = forms ↔
      ∃ children, tree = .node .start children ∧ yields children = tokens
        ∧ List.Forall₂ FormNode.HasTree forms children := by
  constructor
  · intro h
    obtain ⟨⟨hlabel, hderivation, hyield⟩, rfl⟩ := h
    cases tree with
    | leaf => cases hlabel
    | node rule children =>
      cases hlabel
      obtain ⟨forms, htrees⟩ : SyntaxTree.IsSolved (.node .start children) := hderivation.isSolved
      refine ⟨children, rfl, hyield, ?_⟩
      rw [SyntaxTree.forms, (derives_forms htrees).2.2]
      exact htrees
  · intro h
    obtain ⟨children, rfl, hyield, htrees⟩ := h
    obtain ⟨hlabels, hderivations, hforms⟩ := derives_forms htrees
    exact ⟨⟨rfl, .node hlabels hderivations, hyield⟩, hforms⟩

end ModuleDocs.Source
