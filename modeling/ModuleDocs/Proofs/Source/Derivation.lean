import Mathlib
import ModuleDocs.Proofs.Languages
import ModuleDocs.Proofs.Source.Grammar

/-!
# The derivations of a value

`Node.HasTree node tree` describes, for each kind of value, the trees that derive it: which
tokens and which parts they have, one after the other.  It is the grammar solved for the
value, and `FormNode.HasTree` the same for a form.

Such a tree is a derivation and writes the value or the form (`Node.HasTree.derives`,
`FormNode.HasTree.derives`).
-/

namespace ModuleDocs.Source

open Computability

variable {α : Type}

/-! ## Parts with commas between them -/

/-- Trees that stand for items, with a comma between two of them. -/
inductive Separated (R : α → SyntaxTree → Prop) : List α → List SyntaxTree → Prop
  | nil : Separated R [] []
  | one {a : α} {tree : SyntaxTree} (h : R a tree) : Separated R [a] [tree]
  | cons {a b : α} {rest : List α} {tree : SyntaxTree} {comma : Token} {children : List SyntaxTree}
      (h : R a tree) (hcomma : comma.kind = .comma) (hrest : Separated R (b :: rest) children) :
      Separated R (a :: b :: rest) (tree :: .leaf comma :: children)

/-- A value of one rule. -/
def SyntaxTree.ofValue (rule : Rule) (children : List SyntaxTree) : SyntaxTree :=
  .node .value [.node rule children]

/-- A value between an opening bracket, which is at a place, and a closing one. -/
def SyntaxTree.IsBracketed (rule : Rule) (opening closing : TokenKind) (at_ : Position)
    (children : List SyntaxTree) (tree : SyntaxTree) : Prop :=
  ∃ l r : Token, l.kind = opening ∧ l.position = at_ ∧ r.kind = closing
    ∧ tree = .ofValue rule (.leaf l :: (children ++ [.leaf r]))

/-- The tokens behind the literals of a binary. -/
def IsEncoding : Option Token → List Token → Prop
  | none, tokens => tokens = []
  | some name, tokens =>
    name.kind = .name ∧ ∃ slash : Token, slash.kind = .slash ∧ tokens = [slash, name]

mutual

/-- The trees that derive a value. -/
def Node.HasTree : Node → SyntaxTree → Prop
  | .string parts, tree =>
    parts ≠ [] ∧ (∀ t ∈ parts, t.kind = .string) ∧ tree = .ofValue .string (parts.map .leaf)
  | .binary at_ parts encoding?, tree =>
    (∀ t ∈ parts, t.kind = .string) ∧ ∃ encoding, IsEncoding encoding? encoding
      ∧ tree.IsBracketed .binary .openBinary .closeBinary at_ ((parts ++ encoding).map .leaf)
  | .funRef name arity, tree =>
    name.kind = .name ∧ arity.kind = .integer ∧ ∃ slash : Token, slash.kind = .slash
      ∧ tree = .ofValue .funRef [.leaf name, .leaf slash, .leaf arity]
  | .name token, tree => token.kind = .name ∧ tree = .ofValue .atom [.leaf token]
  | .quoted token, tree => token.kind = .quotedAtom ∧ tree = .ofValue .atom [.leaf token]
  | .integer token, tree => token.kind = .integer ∧ tree = .ofValue .integer [.leaf token]
  | .negative at_ token, tree =>
    token.kind = .integer ∧ ∃ sign : Token, sign.kind = .minus ∧ sign.position = at_
      ∧ tree = .ofValue .integer [.leaf sign, .leaf token]
  | .list at_ items, tree =>
    ∃ children, HasTrees items children
      ∧ SyntaxTree.IsBracketed .list .leftBracket .rightBracket at_ children tree
  | .tuple at_ items, tree =>
    ∃ children, HasTrees items children
      ∧ SyntaxTree.IsBracketed .tuple .leftBrace .rightBrace at_ children tree
  | .map at_ pairs, tree =>
    ∃ children, HavePairTrees pairs children
      ∧ SyntaxTree.IsBracketed .map .openMap .rightBrace at_ children tree

def HasTrees : List Node → List SyntaxTree → Prop
  | [], children => children = []
  | [node], children => ∃ tree, Node.HasTree node tree ∧ children = [tree]
  | node :: next :: rest, children =>
    ∃ tree, ∃ comma : Token, ∃ others, Node.HasTree node tree ∧ comma.kind = .comma
      ∧ HasTrees (next :: rest) others ∧ children = tree :: .leaf comma :: others

def HavePairTrees : List (Node × Node) → List SyntaxTree → Prop
  | [], children => children = []
  | [pair], children => ∃ tree, HasPairTree pair tree ∧ children = [tree]
  | pair :: next :: rest, children =>
    ∃ tree, ∃ comma : Token, ∃ others, HasPairTree pair tree ∧ comma.kind = .comma
      ∧ HavePairTrees (next :: rest) others ∧ children = tree :: .leaf comma :: others

/-- The trees that derive a key and a value. -/
def HasPairTree : Node × Node → SyntaxTree → Prop
  | (key, value), tree =>
    ∃ keyTree, ∃ arrow : Token, ∃ valueTree, Node.HasTree key keyTree ∧ arrow.kind = .arrow
      ∧ Node.HasTree value valueTree ∧ tree = .node .pair [keyTree, .leaf arrow, valueTree]

end

section Separated

variable {R : α → SyntaxTree → Prop} {a : α} {rest items : List α} {children : List SyntaxTree}

theorem separated_nil_iff : Separated R [] children ↔ children = [] := by
  constructor
  · intro h
    cases h
    rfl
  · intro h
    exact h ▸ .nil

private theorem iff_separated {G : List α → List SyntaxTree → Prop}
    (hnil : ∀ children, G [] children ↔ children = [])
    (hone : ∀ a children, G [a] children ↔ ∃ tree, R a tree ∧ children = [tree])
    (hcons : ∀ a b rest children, G (a :: b :: rest) children ↔
      ∃ tree, ∃ comma : Token, ∃ others, R a tree ∧ comma.kind = .comma ∧ G (b :: rest) others
        ∧ children = tree :: .leaf comma :: others) :
    G items children ↔ Separated R items children := by
  constructor
  · intro h
    induction items generalizing children with
    | nil => exact (hnil _).1 h ▸ .nil
    | cons a rest ih =>
      cases rest with
      | nil =>
        obtain ⟨tree, ha, rfl⟩ := (hone _ _).1 h
        exact .one ha
      | cons b rest =>
        obtain ⟨tree, comma, others, ha, hcomma, hothers, rfl⟩ := (hcons _ _ _ _).1 h
        exact .cons ha hcomma (ih hothers)
  · intro h
    induction h with
    | nil => exact (hnil _).2 rfl
    | one ha => exact (hone _ _).2 ⟨_, ha, rfl⟩
    | cons ha hcomma _ ih => exact (hcons _ _ _ _).2 ⟨_, _, _, ha, hcomma, ih, rfl⟩

theorem Separated.imp {S : α → SyntaxTree → Prop} (h : Separated R items children)
    (himp : ∀ a ∈ items, ∀ tree ∈ children, R a tree → S a tree) : Separated S items children := by
  induction h with
  | nil => exact .nil
  | one h => exact .one (himp _ (by simp) _ (by simp) h)
  | cons h hcomma hrest ih =>
    refine .cons (himp _ (by simp) _ (by simp) h) hcomma (ih fun a ha tree htree => ?_)
    exact himp a (List.mem_cons_of_mem _ ha) tree (by simp [htree])

end Separated

theorem hasTrees_iff {items : List Node} {children : List SyntaxTree} :
    HasTrees items children ↔ Separated Node.HasTree items children :=
  iff_separated (fun _ => Iff.rfl) (fun _ _ => Iff.rfl) fun _ _ _ _ => Iff.rfl

theorem havePairTrees_iff {pairs : List (Node × Node)} {children : List SyntaxTree} :
    HavePairTrees pairs children ↔ Separated HasPairTree pairs children :=
  iff_separated (fun _ => Iff.rfl) (fun _ _ => Iff.rfl) fun _ _ _ _ => Iff.rfl

/-! ## Induction on values -/

/-- A property of all values, when it is one of each value whose parts have it. -/
@[elab_as_elim]
theorem Node.induction {P : Node → Prop} (string : ∀ parts, P (.string parts))
    (binary : ∀ at_ parts encoding?, P (.binary at_ parts encoding?))
    (funRef : ∀ name arity, P (.funRef name arity)) (name : ∀ token, P (.name token))
    (quoted : ∀ token, P (.quoted token)) (integer : ∀ token, P (.integer token))
    (negative : ∀ at_ token, P (.negative at_ token))
    (list : ∀ at_ items, (∀ item ∈ items, P item) → P (.list at_ items))
    (tuple : ∀ at_ items, (∀ item ∈ items, P item) → P (.tuple at_ items))
    (map : ∀ at_ pairs, (∀ pair ∈ pairs, P pair.1 ∧ P pair.2) → P (.map at_ pairs))
    (node : Node) : P node :=
  Node.rec string binary funRef name quoted integer negative list tuple map
    (List.forall_mem_nil _) (fun _ _ hfirst hrest => List.forall_mem_cons.2 ⟨hfirst, hrest⟩)
    (List.forall_mem_nil _) (fun _ _ hfirst hrest => List.forall_mem_cons.2 ⟨hfirst, hrest⟩)
    (fun _ _ hkey hvalue => ⟨hkey, hvalue⟩) node

/-! ## Such trees are derivations -/

namespace SyntaxTree

/-- A derivation that writes a value. -/
structure Derives (tree : SyntaxTree) (node : Node) : Prop where
  label_eq : tree.label = .rule .value
  isDerivation : tree.IsDerivation
  value_eq : tree.value = node

/-- A derivation that writes a key and a value. -/
structure DerivesPair (tree : SyntaxTree) (pair : Node × Node) : Prop where
  label_eq : tree.label = .rule .pair
  isDerivation : tree.IsDerivation
  pairs_eq : pairs [tree] = [pair]

theorem isDerivation_leaves (tokens : List Token) :
    ∀ child ∈ tokens.map leaf, child.IsDerivation := by
  intro child hchild
  obtain ⟨t, _, rfl⟩ := List.mem_map.1 hchild
  exact .leaf t

/-- The rules that a value may have. -/
def valueRules : List Rule := [.string, .binary, .funRef, .atom, .integer, .list, .tuple, .map]

theorem mem_value_parts {w : List Label} :
    w ∈ Rule.value.parts ↔ ∃ rule ∈ valueRules, w = [.rule rule] := by
  have hsub {rule : Rule} : w ∈ Label.sub rule ↔ w = [.rule rule] := Iff.rfl
  simp only [Rule.parts, Language.mem_add, hsub, valueRules, List.mem_cons, exists_eq_or_imp,
    List.not_mem_nil, or_false, exists_eq_left, or_assoc]

theorem derives_ofValue {rule : Rule} {children : List SyntaxTree} {node : Node}
    (hrule : rule ∈ valueRules) (hparts : children.map label ∈ rule.parts)
    (hchildren : ∀ child ∈ children, child.IsDerivation)
    (hvalue : (SyntaxTree.node rule children).value = node) :
    (ofValue rule children).Derives node where
  label_eq := rfl
  isDerivation := .node (mem_value_parts.2 ⟨rule, hrule, rfl⟩)
    (List.forall_mem_singleton.2 (.node hparts hchildren))
  value_eq := hvalue

/-- A value between brackets is derived if what stands between them is. -/
theorem IsBracketed.derives {rule : Rule} {opening closing : TokenKind} {at_ : Position}
    {children : List SyntaxTree} {tree : SyntaxTree} {node : Node} {between : Language Label}
    (h : tree.IsBracketed rule opening closing at_ children)
    (hrule : rule ∈ valueRules)
    (hparts : rule.parts = Label.one opening * between * Label.one closing)
    (hbetween : children.map label ∈ between)
    (hchildren : ∀ child ∈ children, child.IsDerivation)
    (hvalue : ∀ l r : Token, l.kind = opening → l.position = at_ → r.kind = closing →
      (SyntaxTree.node rule (.leaf l :: (children ++ [.leaf r]))).value = node) :
    tree.Derives node := by
  obtain ⟨l, r, hl, hat, hr, rfl⟩ := h
  refine derives_ofValue hrule ?_ ?_ (hvalue l r hl hat hr)
  · rw [hparts]
    exact labels_append (labels_append (labels_leaf hl) hbetween) (labels_leaf hr)
  · intro child hchild
    rcases List.mem_cons.1 hchild with rfl | hchild
    · exact .leaf l
    rcases List.mem_append.1 hchild with hchild | hchild
    · exact hchildren child hchild
    · exact List.mem_singleton.1 hchild ▸ .leaf r

end SyntaxTree

open SyntaxTree

section Separated

variable {R : α → SyntaxTree → Prop} {a : α} {rest items : List α} {children : List SyntaxTree}
  {rule : Rule}

private theorem labels_of_separated_cons (h : Separated R (a :: rest) children)
    (hlabel : ∀ a tree, R a tree → tree.label = .rule rule) :
    children.map label ∈ Label.sub rule * (Label.one .comma * Label.sub rule)∗ := by
  have hitem {a : α} {tree : SyntaxTree} (h : R a tree) : [tree].map label ∈ Label.sub rule := by
    rw [List.map_singleton, hlabel a tree h]
    rfl
  induction rest generalizing a children with
  | nil =>
    cases h with
    | one h =>
      have hnone : ([] : List SyntaxTree).map label ∈ (Label.one .comma * Label.sub rule)∗ :=
        Language.nil_mem_kstar _
      exact labels_append (hitem h) hnone
  | cons b rest ih =>
    cases h with
    | @cons _ _ _ tree comma children h hcomma hrest =>
      obtain ⟨front, back, rfl, hfront, hback⟩ := labels_mem_mul.1 (ih hrest)
      refine labels_append (hitem h) ?_
      rw [List.map_cons, List.map_append]
      exact append_mem_kstar (labels_append (labels_leaf hcomma) hfront) hback

/-- Parts with commas between them are as the grammar has them. -/
theorem labels_of_separated (h : Separated R items children)
    (hlabel : ∀ a tree, R a tree → tree.label = .rule rule) :
    children.map label ∈ Label.separated rule := by
  cases items with
  | nil =>
    rw [separated_nil_iff.1 h]
    exact Or.inl rfl
  | cons a rest => exact Or.inr (labels_of_separated_cons h hlabel)

theorem isDerivation_of_separated (h : Separated R items children)
    (hR : ∀ a tree, R a tree → tree.IsDerivation) : ∀ child ∈ children, child.IsDerivation := by
  induction h with
  | nil => simp
  | one h => exact List.forall_mem_singleton.2 (hR _ _ h)
  | cons h hcomma hrest ih =>
    exact List.forall_mem_cons.2 ⟨hR _ _ h, List.forall_mem_cons.2 ⟨.leaf _, ih⟩⟩

end Separated

theorem SyntaxTree.Derives.values_cons {tree : SyntaxTree} {item : Node} (h : tree.Derives item)
    (rest : List SyntaxTree) : values (tree :: rest) = item :: values rest := by
  obtain ⟨hlabel, _, hvalue⟩ := h
  cases tree with
  | leaf => cases hlabel
  | node rule children => rw [values, hvalue]

/-- The values among parts with commas between them. -/
theorem values_of_separated {items : List Node} {children : List SyntaxTree}
    (h : Separated (fun item tree => tree.Derives item) items children) :
    values children = items := by
  induction h with
  | nil => rfl
  | one h => exact h.values_cons []
  | cons h hcomma hrest ih => rw [h.values_cons, values, ih]

theorem pairs_of_separated {items : List (Node × Node)} {children : List SyntaxTree}
    (h : Separated (fun item tree => tree.DerivesPair item) items children) :
    pairs children = items := by
  have hpairs {item : Node × Node} {tree : SyntaxTree} (h : tree.DerivesPair item)
      (rest : List SyntaxTree) : pairs (tree :: rest) = item :: pairs rest := by
    rw [← List.singleton_append, pairs_append, h.pairs_eq, List.singleton_append]
  induction h with
  | nil => rfl
  | one h => exact hpairs h []
  | cons h hcomma hrest ih => rw [hpairs h, pairs, ih]

theorem HasPairTree.derives {pair : Node × Node} {tree : SyntaxTree} (h : HasPairTree pair tree)
    (hkey : ∀ tree, pair.1.HasTree tree → tree.Derives pair.1)
    (hvalue : ∀ tree, pair.2.HasTree tree → tree.Derives pair.2) : tree.DerivesPair pair := by
  obtain ⟨key, value⟩ := pair
  obtain ⟨keyTree, arrow, valueTree, h₁, harrow, h₂, rfl⟩ := h
  have hkey := hkey keyTree h₁
  have hvalue := hvalue valueTree h₂
  constructor
  · rfl
  · refine .node ?_ ?_
    · show [keyTree.label, Label.token arrow.kind, valueTree.label] ∈ Rule.pair.parts
      rw [hkey.label_eq, hvalue.label_eq, harrow]
      exact ⟨_, ⟨_, rfl, _, rfl, rfl⟩, _, rfl, rfl⟩
    · simp [hkey.isDerivation, hvalue.isDerivation, IsDerivation.leaf]
  · have hvalues : values [keyTree, leaf arrow, valueTree] = [key, value] := by
      rw [hkey.values_cons, values, hvalue.values_cons, values]
    rw [pairs, hvalues, pairs]

/-- The encoding of a binary, with the sign before it. -/
theorem IsEncoding.labels {encoding? : Option Token} {tokens : List Token}
    (h : IsEncoding encoding? tokens) :
    (tokens.map leaf).map label ∈ 1 + Label.one .slash * Label.one .name := by
  cases encoding? with
  | none =>
    cases h
    exact Or.inl rfl
  | some name =>
    obtain ⟨hname, slash, hslash, rfl⟩ := h
    exact Or.inr (labels_append (labels_leaf hslash) (labels_leaf hname))

/-- A binary with what stands between its brackets as one language. -/
theorem binary_parts : Rule.binary.parts = Label.one .openBinary
    * ((Label.one .string)∗ * (1 + Label.one .slash * Label.one .name))
    * Label.one .closeBinary := by
  simp only [Rule.parts, mul_assoc]

theorem value_binary {encoding? : Option Token} {l r : Token} {parts encoding : List Token}
    (hl : l.kind = .openBinary) (hr : r.kind = .closeBinary)
    (hparts : ∀ t ∈ parts, t.kind = .string) (hencoding : IsEncoding encoding? encoding) :
    (node .binary (leaf l :: ((parts ++ encoding).map leaf ++ [leaf r]))).value
      = .binary l.position parts encoding? := by
  have hleaves : leaves (leaf l :: ((parts ++ encoding).map leaf ++ [leaf r]))
      = l :: (parts ++ (encoding ++ [r])) := by
    rw [leaves, leaves_append, leaves_leaves, leaves, leaves, List.append_assoc]
  have hstrings : parts.filter (·.kind = .string) = parts :=
    List.filter_eq_self.2 fun t ht => decide_eq_true (hparts t ht)
  have hnames : parts.find? (·.kind = .name) = none :=
    List.find?_eq_none.2 fun t ht => by simp [hparts t ht]
  rw [value, place, hleaves]
  cases encoding? with
  | none =>
    cases hencoding
    simp [hl, hr, hstrings, hnames]
  | some name =>
    obtain ⟨hname, slash, hslash, rfl⟩ := hencoding
    simp [hl, hr, hstrings, hnames, hname, hslash]

section Brackets

variable {l r : Token} {children : List SyntaxTree}

theorem value_list : (node .list (leaf l :: (children ++ [leaf r]))).value
    = .list l.position (values children) := by
  rw [value, values, values_append, values, values, List.append_nil]
  rfl

theorem value_tuple : (node .tuple (leaf l :: (children ++ [leaf r]))).value
    = .tuple l.position (values children) := by
  rw [value, values, values_append, values, values, List.append_nil]
  rfl

theorem value_map : (node .map (leaf l :: (children ++ [leaf r]))).value
    = .map l.position (pairs children) := by
  rw [value, pairs, pairs_append, pairs, pairs, List.append_nil]
  rfl

end Brackets

private theorem derives_items {items : List Node} {children : List SyntaxTree}
    (h : Separated Node.HasTree items children)
    (ih : ∀ item ∈ items, ∀ {tree : SyntaxTree}, item.HasTree tree → tree.Derives item) :
    children.map label ∈ Label.separated .value ∧ (∀ child ∈ children, child.IsDerivation)
      ∧ values children = items := by
  have hderives : Separated (fun item tree => tree.Derives item) items children :=
    h.imp fun item hitem tree _ htree => ih item hitem htree
  exact ⟨labels_of_separated hderives fun _ _ h => h.label_eq,
    isDerivation_of_separated hderives fun _ _ h => h.isDerivation,
    values_of_separated hderives⟩

private theorem derives_pairs {items : List (Node × Node)} {children : List SyntaxTree}
    (h : Separated HasPairTree items children)
    (ih : ∀ item ∈ items, (∀ {tree : SyntaxTree}, item.1.HasTree tree → tree.Derives item.1)
      ∧ ∀ {tree : SyntaxTree}, item.2.HasTree tree → tree.Derives item.2) :
    children.map label ∈ Label.separated .pair ∧ (∀ child ∈ children, child.IsDerivation)
      ∧ pairs children = items := by
  have hderives : Separated (fun item tree => tree.DerivesPair item) items children :=
    h.imp fun item hitem tree _ htree =>
      htree.derives (fun _ => (ih item hitem).1) fun _ => (ih item hitem).2
  exact ⟨labels_of_separated hderives fun _ _ h => h.label_eq,
    isDerivation_of_separated hderives fun _ _ h => h.isDerivation,
    pairs_of_separated hderives⟩

/-- Such a tree is a derivation, and writes the value. -/
theorem Node.HasTree.derives {node : Node} {tree : SyntaxTree} (h : node.HasTree tree) :
    tree.Derives node := by
  induction node using Node.induction generalizing tree with
  | string parts =>
    obtain ⟨hne, hparts, rfl⟩ := h
    obtain ⟨first, rest, rfl⟩ := List.exists_cons_of_ne_nil hne
    obtain ⟨hfirst, hrest⟩ := List.forall_mem_cons.1 hparts
    refine derives_ofValue (by decide) ?_ (isDerivation_leaves _) ?_
    · exact labels_append (labels_leaf hfirst) (labels_mem_one_kstar.2 ⟨rest, hrest, rfl⟩)
    · rw [value, leaves_leaves]
  | binary at_ parts encoding? =>
    obtain ⟨hparts, encoding, hencoding, hbracketed⟩ := h
    refine hbracketed.derives (by decide) binary_parts ?_ (isDerivation_leaves _) ?_
    · rw [List.map_append]
      exact labels_append (labels_mem_one_kstar.2 ⟨parts, hparts, rfl⟩) hencoding.labels
    · intro l r hl hat hr
      rw [value_binary hl hr hparts hencoding, hat]
  | funRef name arity =>
    obtain ⟨hname, harity, slash, hslash, rfl⟩ := h
    refine derives_ofValue (by decide) ?_ (isDerivation_leaves [name, slash, arity]) rfl
    exact labels_append (labels_append (labels_leaf hname) (labels_leaf hslash))
      (labels_leaf harity)
  | name token =>
    obtain ⟨htoken, rfl⟩ := h
    refine derives_ofValue (by decide) (Or.inl (labels_leaf htoken))
      (isDerivation_leaves [token]) ?_
    exact if_pos htoken
  | quoted token =>
    obtain ⟨htoken, rfl⟩ := h
    refine derives_ofValue (by decide) (Or.inr (labels_leaf htoken))
      (isDerivation_leaves [token]) ?_
    exact if_neg (by rw [htoken]; decide)
  | integer token =>
    obtain ⟨htoken, rfl⟩ := h
    exact derives_ofValue (by decide) (Or.inl (labels_leaf htoken))
      (isDerivation_leaves [token]) rfl
  | negative at_ token =>
    obtain ⟨htoken, sign, hsign, rfl, rfl⟩ := h
    refine derives_ofValue (by decide) ?_ (isDerivation_leaves [sign, token]) rfl
    exact Or.inr (labels_append (labels_leaf hsign) (labels_leaf htoken))
  | list at_ items ih =>
    obtain ⟨children, htrees, hbracketed⟩ := h
    obtain ⟨hlabels, hchildren, hvalues⟩ := derives_items (hasTrees_iff.1 htrees) ih
    refine hbracketed.derives (by decide) rfl hlabels hchildren fun l r _ hat _ => ?_
    rw [value_list, hat, hvalues]
  | tuple at_ items ih =>
    obtain ⟨children, htrees, hbracketed⟩ := h
    obtain ⟨hlabels, hchildren, hvalues⟩ := derives_items (hasTrees_iff.1 htrees) ih
    refine hbracketed.derives (by decide) rfl hlabels hchildren fun l r _ hat _ => ?_
    rw [value_tuple, hat, hvalues]
  | map at_ pairs ih =>
    obtain ⟨children, htrees, hbracketed⟩ := h
    obtain ⟨hlabels, hchildren, hpairs⟩ := derives_pairs (havePairTrees_iff.1 htrees) ih
    refine hbracketed.derives (by decide) rfl hlabels hchildren fun l r _ hat _ => ?_
    rw [value_map, hat, hpairs]

/-! ## Forms -/

/-- A value of a form, with or without parentheses. -/
def IsEnclosed (valueTree : SyntaxTree) (children : List SyntaxTree) : Prop :=
  children = [valueTree] ∨ ∃ l r : Token, l.kind = .leftParen ∧ r.kind = .rightParen
    ∧ children = [.leaf l, valueTree, .leaf r]

/-- The trees that derive a form. -/
def FormNode.HasTree (form : FormNode) (tree : SyntaxTree) : Prop :=
  ∃ (sign dot : Token) (valueTree : SyntaxTree) (children : List SyntaxTree),
    sign.kind = .minus ∧ sign.position = form.at_ ∧ form.name.kind = .name
      ∧ form.value.HasTree valueTree ∧ IsEnclosed valueTree children ∧ dot.kind = .dot
      ∧ tree = .node .form (.leaf sign :: .leaf form.name :: (children ++ [.leaf dot]))

/-- Such a tree is a derivation, and writes the form. -/
theorem FormNode.HasTree.derives {form : FormNode} {tree : SyntaxTree} (h : form.HasTree tree) :
    tree.label = .rule .form ∧ tree.IsDerivation ∧ tree.form? = some form := by
  obtain ⟨sign, dot, valueTree, children, hsign, hat, hname, hvalue, henclosed, hdot, rfl⟩ := h
  have hvalue := hvalue.derives
  have hlabels : [valueTree].map label ∈ Label.sub .value := by
    rw [List.map_singleton, hvalue.label_eq]
    rfl
  refine ⟨rfl, ?_, ?_⟩
  · rcases henclosed with rfl | ⟨l, r, hl, hr, rfl⟩
    · refine .node (labels_append (labels_append (labels_append (labels_leaf hsign)
        (labels_leaf hname)) (Or.inr hlabels)) (labels_leaf hdot)) ?_
      simp [IsDerivation.leaf, hvalue.isDerivation]
    · refine .node (labels_append (labels_append (labels_append (labels_leaf hsign)
        (labels_leaf hname)) (Or.inl (labels_append (labels_append (labels_leaf hl) hlabels)
          (labels_leaf hr)))) (labels_leaf hdot)) ?_
      simp [IsDerivation.leaf, hvalue.isDerivation]
  · have hvalues : values children = [form.value] := by
      rcases henclosed with rfl | ⟨l, r, hl, hr, rfl⟩
      · exact hvalue.values_cons []
      · rw [values, hvalue.values_cons, values, values]
    rw [form?, values, values, values_append, hvalues, values, values, List.append_nil, leaves,
      leaves]
    show some (FormNode.mk sign.position form.name form.value) = some form
    rw [hat]

end ModuleDocs.Source
