import Mathlib
import ModuleDocs.Proofs.Source.Derivation

/-!
# Tokens and value give the tree

A value has no two trees that begin the same tokens (`Node.isDetermined`), and neither has a
form (`FormNode.isDetermined`).  The value says how many parts there are of each kind, and the
tokens which they are; only the parentheses of a form are told from its tokens, as no value
starts with one.
-/

namespace ModuleDocs.Source

open SyntaxTree

variable {α : Type}

/-- Two trees that stand for one item and begin the same tokens are one tree. -/
def IsDetermined (R : SyntaxTree → Prop) : Prop :=
  ∀ first second : SyntaxTree, R first → R second → ∀ rest others : List Token,
    first.yield ++ rest = second.yield ++ others → first = second ∧ rest = others

theorem separated_unique {R : α → SyntaxTree → Prop} {items : List α}
    {first second : List SyntaxTree} (hR : ∀ a ∈ items, IsDetermined (R a))
    (h : Separated R items first) (h' : Separated R items second) {rest others : List Token}
    (heq : yields first ++ rest = yields second ++ others) : first = second ∧ rest = others := by
  induction h generalizing second rest others with
  | nil =>
    cases h'
    exact ⟨rfl, heq⟩
  | one h =>
    cases h' with
    | one h' =>
      simp only [yields, List.append_nil] at heq
      obtain ⟨rfl, hrest⟩ := hR _ (by simp) _ _ h h' _ _ heq
      exact ⟨rfl, hrest⟩
  | cons h hcomma hrest ih =>
    cases h' with
    | cons h' hcomma' hrest' =>
      simp only [yields, yield, List.append_assoc, List.cons_append, List.nil_append] at heq
      obtain ⟨rfl, hmore⟩ := hR _ (by simp) _ _ h h' _ _ heq
      obtain ⟨rfl, hothers⟩ := List.cons_eq_cons.1 hmore
      obtain ⟨rfl, hlast⟩ := ih (fun a ha => hR a (List.mem_cons_of_mem _ ha)) hrest' hothers
      exact ⟨rfl, hlast⟩

/-- A value between brackets is determined by what stands between them. -/
theorem isDetermined_isBracketed {rule : Rule} {opening closing : TokenKind} {at_ : Position}
    {R : List SyntaxTree → Prop}
    (hR : ∀ first second : List SyntaxTree, R first → R second → ∀ rest others : List Token,
      yields first ++ rest = yields second ++ others → first = second ∧ rest = others) :
    IsDetermined fun tree =>
      ∃ children, R children ∧ tree.IsBracketed rule opening closing at_ children := by
  intro first second h h' rest others heq
  obtain ⟨children, hchildren, l, r, _, _, _, rfl⟩ := h
  obtain ⟨children', hchildren', l', r', _, _, _, rfl⟩ := h'
  simp only [ofValue, yield, yields, yields_append, List.append_nil, List.nil_append,
    List.cons_append, List.append_assoc] at heq
  obtain ⟨rfl, hmore⟩ := List.cons_eq_cons.1 heq
  obtain ⟨rfl, hend⟩ := hR _ _ hchildren hchildren' _ _ hmore
  obtain ⟨rfl, hlast⟩ := List.cons_eq_cons.1 hend
  exact ⟨rfl, hlast⟩

theorem HasPairTree.isDetermined {pair : Node × Node} (hkey : IsDetermined pair.1.HasTree)
    (hvalue : IsDetermined pair.2.HasTree) : IsDetermined (HasPairTree pair) := by
  obtain ⟨key, value⟩ := pair
  intro first second h h' rest others heq
  obtain ⟨keyTree, arrow, valueTree, hk, _, hv, rfl⟩ := h
  obtain ⟨keyTree', arrow', valueTree', hk', _, hv', rfl⟩ := h'
  simp only [yield, yields, List.append_nil, List.append_assoc, List.cons_append,
    List.nil_append] at heq
  obtain ⟨rfl, hmore⟩ := hkey _ _ hk hk' _ _ heq
  obtain ⟨rfl, hend⟩ := List.cons_eq_cons.1 hmore
  obtain ⟨rfl, hlast⟩ := hvalue _ _ hv hv' _ _ hend
  exact ⟨rfl, hlast⟩

theorem IsEncoding.length_eq {encoding? : Option Token} {first second : List Token}
    (h : IsEncoding encoding? first) (h' : IsEncoding encoding? second) :
    first.length = second.length := by
  cases encoding? with
  | none => rw [show first = [] from h, show second = [] from h']
  | some name =>
    obtain ⟨_, slash, _, rfl⟩ := h
    obtain ⟨_, slash', _, rfl⟩ := h'
    rfl

/-- A value has no two trees over the same tokens. -/
theorem Node.isDetermined (node : Node) : IsDetermined node.HasTree := by
  induction node using Node.induction with
  | string parts =>
    intro first second h h' rest others heq
    obtain ⟨_, _, rfl⟩ := h
    obtain ⟨_, _, rfl⟩ := h'
    exact ⟨rfl, List.append_cancel_left heq⟩
  | binary at_ parts encoding? =>
    intro first second h h' rest others heq
    obtain ⟨_, encoding, hencoding, hbracketed⟩ := h
    obtain ⟨_, encoding', hencoding', hbracketed'⟩ := h'
    refine isDetermined_isBracketed (R := fun children =>
      ∃ encoding, IsEncoding encoding? encoding ∧ children = (parts ++ encoding).map .leaf) ?_ _ _
      ⟨_, ⟨encoding, hencoding, rfl⟩, hbracketed⟩ ⟨_, ⟨encoding', hencoding', rfl⟩, hbracketed'⟩
      _ _ heq
    intro first second h h' rest others heq
    obtain ⟨encoding, hencoding, rfl⟩ := h
    obtain ⟨encoding', hencoding', rfl⟩ := h'
    rw [yields_leaves, yields_leaves, List.append_assoc, List.append_assoc] at heq
    obtain ⟨rfl, hrest⟩ :=
      List.append_inj (List.append_cancel_left heq) (hencoding.length_eq hencoding')
    exact ⟨rfl, hrest⟩
  | funRef name arity =>
    intro first second h h' rest others heq
    obtain ⟨_, _, slash, _, rfl⟩ := h
    obtain ⟨_, _, slash', _, rfl⟩ := h'
    simp_all [ofValue, yield, yields]
  | name token | quoted token | integer token =>
    intro first second h h' rest others heq
    obtain ⟨_, rfl⟩ := h
    obtain ⟨_, rfl⟩ := h'
    exact ⟨rfl, List.append_cancel_left heq⟩
  | negative at_ token =>
    intro first second h h' rest others heq
    obtain ⟨_, sign, _, _, rfl⟩ := h
    obtain ⟨_, sign', _, _, rfl⟩ := h'
    simp_all [ofValue, yield, yields]
  | list at_ items ih =>
    refine isDetermined_isBracketed fun first second h h' rest others heq => ?_
    exact separated_unique ih (hasTrees_iff.1 h) (hasTrees_iff.1 h') heq
  | tuple at_ items ih =>
    refine isDetermined_isBracketed fun first second h h' rest others heq => ?_
    exact separated_unique ih (hasTrees_iff.1 h) (hasTrees_iff.1 h') heq
  | map at_ pairs ih =>
    refine isDetermined_isBracketed fun first second h h' rest others heq => ?_
    refine separated_unique (fun pair hpair => ?_) (havePairTrees_iff.1 h)
      (havePairTrees_iff.1 h') heq
    exact HasPairTree.isDetermined (ih pair hpair).1 (ih pair hpair).2

/-- A value does not start with a parenthesis. -/
theorem Node.HasTree.exists_first {node : Node} {tree : SyntaxTree} (h : node.HasTree tree) :
    ∃ first rest, tree.yield = first :: rest ∧ first.kind ≠ .leftParen := by
  have hbracketed {rule : Rule} {opening closing : TokenKind} {at_ : Position}
      {children : List SyntaxTree} (hne : opening ≠ .leftParen)
      (h : tree.IsBracketed rule opening closing at_ children) :
      ∃ first rest, tree.yield = first :: rest ∧ first.kind ≠ .leftParen := by
    obtain ⟨l, r, rfl, _, _, rfl⟩ := h
    exact ⟨l, _, rfl, hne⟩
  match node with
  | .string parts =>
    obtain ⟨hne, hparts, rfl⟩ := h
    obtain ⟨first, rest, rfl⟩ := List.exists_cons_of_ne_nil hne
    exact ⟨first, _, rfl, by simp [hparts first]⟩
  | .binary at_ parts encoding? =>
    obtain ⟨_, _, _, h⟩ := h
    exact hbracketed (by decide) h
  | .funRef word arity =>
    obtain ⟨hword, _, slash, _, rfl⟩ := h
    exact ⟨word, _, rfl, by simp [hword]⟩
  | .name token | .quoted token | .integer token =>
    obtain ⟨htoken, rfl⟩ := h
    exact ⟨token, _, rfl, by simp [htoken]⟩
  | .negative at_ token =>
    obtain ⟨_, sign, hsign, _, rfl⟩ := h
    exact ⟨sign, _, rfl, by simp [hsign]⟩
  | .list at_ items | .tuple at_ items | .map at_ pairs =>
    obtain ⟨_, _, h⟩ := h
    exact hbracketed (by decide) h

private theorem isEnclosed_unique {node : Node} {first second : SyntaxTree}
    {children children' : List SyntaxTree} (h : node.HasTree first) (h' : node.HasTree second)
    (hfirst : IsEnclosed first children) (hsecond : IsEnclosed second children')
    {rest others : List Token} (heq : yields children ++ rest = yields children' ++ others) :
    children = children' ∧ rest = others := by
  rcases hfirst with rfl | ⟨l, r, hl, _, rfl⟩ <;> rcases hsecond with rfl | ⟨l', r', hl', _, rfl⟩
  · simp only [yields, List.append_nil] at heq
    obtain ⟨rfl, hrest⟩ := node.isDetermined _ _ h h' _ _ heq
    exact ⟨rfl, hrest⟩
  · obtain ⟨t, _, hyield, ht⟩ := h.exists_first
    simp only [yields, yield, hyield, List.cons_append, List.nil_append] at heq
    exact absurd hl' ((List.cons_eq_cons.1 heq).1 ▸ ht)
  · obtain ⟨t, _, hyield, ht⟩ := h'.exists_first
    simp only [yields, yield, hyield, List.cons_append, List.nil_append] at heq
    exact absurd hl ((List.cons_eq_cons.1 heq).1 ▸ ht)
  · simp only [yields, yield, List.append_nil, List.cons_append, List.nil_append,
      List.append_assoc] at heq
    obtain ⟨rfl, hmore⟩ := List.cons_eq_cons.1 heq
    obtain ⟨rfl, hend⟩ := node.isDetermined _ _ h h' _ _ hmore
    obtain ⟨rfl, hlast⟩ := List.cons_eq_cons.1 hend
    exact ⟨rfl, hlast⟩

/-- A form has no two trees over the same tokens. -/
theorem FormNode.isDetermined (form : FormNode) : IsDetermined form.HasTree := by
  intro first second h h' rest others heq
  obtain ⟨sign, dot, valueTree, children, _, _, _, hvalue, henclosed, _, rfl⟩ := h
  obtain ⟨sign', dot', valueTree', children', _, _, _, hvalue', henclosed', _, rfl⟩ := h'
  simp only [yield, yields, yields_append, List.append_nil, List.cons_append, List.nil_append,
    List.append_assoc] at heq
  obtain ⟨rfl, hmore⟩ := List.cons_eq_cons.1 heq
  obtain ⟨rfl, hend⟩ :=
    isEnclosed_unique hvalue hvalue' henclosed henclosed' (List.cons_eq_cons.1 hmore).2
  obtain ⟨rfl, hlast⟩ := List.cons_eq_cons.1 hend
  exact ⟨rfl, hlast⟩

/-- A list of forms has no two lists of trees over the same tokens. -/
theorem forms_unique {forms : List FormNode} {first second : List SyntaxTree}
    (h : List.Forall₂ FormNode.HasTree forms first)
    (h' : List.Forall₂ FormNode.HasTree forms second) (heq : yields first = yields second) :
    first = second := by
  induction h generalizing second with
  | nil =>
    cases h'
    rfl
  | cons hform _ ih =>
    cases h' with
    | cons hform' hforms' =>
      obtain ⟨rfl, hrest⟩ := FormNode.isDetermined _ _ _ hform hform' _ _ heq
      rw [ih hforms' hrest]

end ModuleDocs.Source
