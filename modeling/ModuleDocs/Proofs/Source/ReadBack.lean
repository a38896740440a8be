import Mathlib
import ModuleDocs.Proofs.Lists
import ModuleDocs.Proofs.Result
import ModuleDocs.Proofs.Source.Layout
import ModuleDocs.Proofs.Source.Parse
import ModuleDocs.Proofs.Source.Value
import ModuleDocs.Proofs.Source.Written

/-!
# What is written is read back

Forms that a source can stand for are written as lexemes, laid out with any gaps, and read
back as the same names and values (`Form.ofText_of_formsAreWritten`).

The lexemes of a part go back to the part on their own: whatever tokens spell them derive one
value, which stands for the term (`ReadsBack`).  This is shown by induction on the term
(`readsBack_of_isWritten`); lists, tuples and maps put together what was shown of their
parts (`readsBack_bracketed`), and so does a whole source (`exists_concatenated`).  An arity of
too many digits is written like any other, and refused (`ofText_of_longArity`).
-/

namespace ModuleDocs.Source

open Computability SyntaxTree

variable {α β : Type}

/-! ## Tokens that spell lexemes -/

/-- Only one kind of token has the text. -/
theorem Token.Spells.kind_eq {t : Token} {lexeme : Text} (h : t.Spells lexeme) (kind : TokenKind)
    (hkind : lexeme ∈ kind.words) : t.kind = kind := by
  have hfirst : IsLongest (Terminal.token t.kind).words lexeme [] :=
    isLongest_of_isApart h.mem isApart_nil
  have hsecond : IsLongest (Terminal.token kind).words lexeme [] :=
    isLongest_of_isApart hkind isApart_nil
  exact Terminal.token.inj (isLongest_unique hfirst hsecond rfl).1

/-- The lexemes are texts of tokens, and whatever tokens spell them derive something that
stands for `a`. -/
structure ReadsBack (R : β → SyntaxTree → Prop) (V : β → α → Prop) (a : α)
    (lexemes : List Text) : Prop where
  lexical : ∀ lexeme ∈ lexemes, ∃ kind : TokenKind, lexeme ∈ kind.words
  derives : ∀ tokens, List.Forall₂ Token.Spells tokens lexemes →
    ∃ b tree, R b tree ∧ tree.yield = tokens ∧ V b a

section Parts

variable {R : β → SyntaxTree → Prop} {V : β → α → Prop} {items : List α}
  {parts : List (List Text)} {tokens : List Token}

theorem ReadsBack.imp {γ : Type} {W : β → γ → Prop} {a : α} {c : γ} {lexemes : List Text}
    (h : ReadsBack R V a lexemes) (hV : ∀ b, V b a → W b c) : ReadsBack R W c lexemes where
  lexical := h.lexical
  derives := fun tokens htokens => by
    obtain ⟨b, tree, htree, hyield, hb⟩ := h.derives tokens htokens
    exact ⟨b, tree, htree, hyield, hV b hb⟩

theorem exists_separated (h : List.Forall₂ (ReadsBack R V) items parts)
    (htokens : List.Forall₂ Token.Spells tokens ([("," : Text)].intercalate parts)) :
    ∃ bs children, Separated R bs children ∧ yields children = tokens
      ∧ List.Forall₂ V bs items := by
  induction h generalizing tokens with
  | nil =>
    cases htokens
    exact ⟨[], [], .nil, rfl, .nil⟩
  | @cons a part items parts ha hrest ih =>
    cases hrest with
    | nil =>
      rw [List.intercalate_singleton] at htokens
      obtain ⟨b, tree, htree, rfl, hb⟩ := ha.derives tokens htokens
      exact ⟨[b], [tree], .one htree, List.append_nil _, .cons hb .nil⟩
    | cons hnext hrest =>
      rw [List.intercalate_cons_cons, List.append_assoc] at htokens
      obtain ⟨front, others, rfl, hfront, hothers⟩ := Lists.exists_append_right htokens
      obtain ⟨comma, back, hcomma, hback, rfl⟩ := List.forall₂_cons_right_iff.1 hothers
      obtain ⟨b, tree, htree, rfl, hb⟩ := ha.derives front hfront
      obtain ⟨bs, children, hchildren, rfl, hbs⟩ := ih hback
      cases hbs with
      | cons hb' hbs =>
        exact ⟨_, _, .cons htree (hcomma.kind_eq .comma rfl) hchildren, rfl,
          .cons hb (.cons hb' hbs)⟩

theorem lexical_intercalate (h : List.Forall₂ (ReadsBack R V) items parts) :
    ∀ lexeme ∈ [("," : Text)].intercalate parts, ∃ kind : TokenKind, lexeme ∈ kind.words := by
  induction h with
  | nil => exact List.forall_mem_nil _
  | @cons a part items parts ha hrest ih =>
    cases hrest with
    | nil =>
      rw [List.intercalate_singleton]
      exact ha.lexical
    | cons hnext hrest =>
      rw [List.intercalate_cons_cons]
      intro lexeme hlexeme
      rcases List.mem_append.1 hlexeme with hlexeme | hlexeme
      · rcases List.mem_append.1 hlexeme with hlexeme | hlexeme
        · exact ha.lexical lexeme hlexeme
        · exact ⟨.comma, List.mem_singleton.1 hlexeme⟩
      · exact ih lexeme hlexeme

/-- Parts one after the other. -/
theorem exists_concatenated (h : List.Forall₂ (ReadsBack R V) items parts)
    (htokens : List.Forall₂ Token.Spells tokens parts.flatten) :
    ∃ bs children, List.Forall₂ R bs children ∧ yields children = tokens
      ∧ List.Forall₂ V bs items := by
  induction h generalizing tokens with
  | nil =>
    cases htokens
    exact ⟨[], [], .nil, rfl, .nil⟩
  | @cons a part items parts ha _ ih =>
    rw [List.flatten_cons] at htokens
    obtain ⟨front, others, rfl, hfront, hothers⟩ := Lists.exists_append_right htokens
    obtain ⟨b, tree, htree, rfl, hb⟩ := ha.derives front hfront
    obtain ⟨bs, children, hchildren, rfl, hbs⟩ := ih hothers
    exact ⟨_, _, .cons htree hchildren, rfl, .cons hb hbs⟩

end Parts

/-! ## Single values -/

/-- The value stands for the term. -/
def Node.StandsFor (node : Node) (t : Term) : Prop := node.value = .ok t

/-- A key and a value stand for an item. -/
structure StandForItem (pair : Node × Node) (item : Term × Term) : Prop where
  key : pair.1.StandsFor item.1
  value : pair.2.StandsFor item.2

section Values

variable {t : Term} {lexeme : Text} {token : Token}

/-- A value of one token. -/
theorem readsBack_singleton (kind : TokenKind) (rule : Rule) (hlexeme : lexeme ∈ kind.words)
    (h : ∀ token : Token, token.kind = kind → token.text = lexeme →
      ∃ node : Node, node.HasTree (.ofValue rule [.leaf token]) ∧ node.StandsFor t) :
    ReadsBack Node.HasTree Node.StandsFor t [lexeme] where
  lexical := List.forall_mem_singleton.2 ⟨kind, hlexeme⟩
  derives := fun tokens htokens => by
    obtain ⟨token, _, htoken, hnil, rfl⟩ := List.forall₂_cons_right_iff.1 htokens
    cases hnil
    obtain ⟨node, htree, hnode⟩ := h token (htoken.kind_eq _ hlexeme) htoken.text_eq
    exact ⟨node, _, htree, rfl, hnode⟩

theorem contentsOf_singleton {chars : Text} (h : token.contents = .ok chars) :
    contentsOf [token] = .ok chars := by
  rw [contentsOf, h, contentsOf]
  exact congrArg Except.ok (List.append_nil chars)

theorem readsBack_text {chars : Text} (h : IsQuoted '"' IsBraced chars lexeme) :
    ReadsBack Node.HasTree Node.StandsFor (.text chars) [lexeme] := by
  have hR : ∀ c escape, IsBraced c escape → IsEscapeOf (id c) escape :=
    fun _ _ => IsBraced.isEscapeOf
  have hstring : lexeme ∈ TokenKind.string.words := h.mem_literal id hR (by decide) true
  refine readsBack_singleton .string .string hstring fun token hkind htext => ?_
  refine ⟨.string [token], ⟨by simp, by simpa using hkind, rfl⟩, ?_⟩
  have hcontents := h.contents_eq id hR htext
  rw [List.map_id] at hcontents
  rw [Node.StandsFor, Node.value, contentsOf_singleton hcontents]
  rfl

theorem readsBack_atom {chars : Text} (h : IsQuoted '\'' IsBraced chars lexeme) :
    ReadsBack Node.HasTree Node.StandsFor (.atom chars) [lexeme] := by
  have hR : ∀ c escape, IsBraced c escape → IsEscapeOf (id c) escape :=
    fun _ _ => IsBraced.isEscapeOf
  have hquoted : lexeme ∈ TokenKind.quotedAtom.words := h.mem_literal id hR (by decide) false
  refine readsBack_singleton .quotedAtom .atom hquoted fun token hkind htext => ?_
  refine ⟨.quoted token, ⟨hkind, rfl⟩, ?_⟩
  have hcontents := h.contents_eq id hR htext
  rw [List.map_id] at hcontents
  rw [Node.StandsFor, Node.value, hcontents]
  rfl

/-- Characters that stand for bytes are these bytes again. -/
theorem toLatin1?_map_ofNat (data : Bytes) :
    Utf8.toLatin1? (data.map fun b => CodePoint.ofNat b.toNat) = some data := by
  have hval (b : UInt8) : (CodePoint.ofNat b.toNat).val = b.toNat := by
    have hb := b.toNat_lt
    exact CodePoint.val_ofNat_of_lt (by omega)
  rw [Utf8.toLatin1?, if_pos, List.map_map]
  · refine congrArg some ((List.map_congr_left fun b _ => ?_).trans (List.map_id data))
    rw [Function.comp_apply, hval, UInt8.ofNat_toNat, id]
  · simpa [hval] using fun b _ => b.toNat_lt

theorem readsBack_tagged {data : Bytes} {encoding : Text}
    (h : IsQuoted '"' IsPaired data lexeme) (hencoding : encoding ∈ TokenKind.name.words) :
    ReadsBack Node.HasTree Node.StandsFor (.tagged data encoding)
      [("<<" : Text), lexeme, "/", encoding, ">>"] := by
  have hR : ∀ b escape, IsPaired b escape → IsEscapeOf (CodePoint.ofNat b.toNat) escape :=
    fun _ _ => IsPaired.isEscapeOf
  have hstring : lexeme ∈ TokenKind.string.words := h.mem_literal _ hR (by decide) true
  constructor
  · simp only [List.forall_mem_cons]
    exact ⟨⟨.openBinary, rfl⟩, ⟨.string, hstring⟩, ⟨.slash, rfl⟩, ⟨.name, hencoding⟩,
      ⟨.closeBinary, rfl⟩, List.forall_mem_nil _⟩
  · intro tokens htokens
    obtain ⟨l, _, hl, h₁, rfl⟩ := List.forall₂_cons_right_iff.1 htokens
    obtain ⟨token, _, htoken, h₂, rfl⟩ := List.forall₂_cons_right_iff.1 h₁
    obtain ⟨slash, _, hslash, h₃, rfl⟩ := List.forall₂_cons_right_iff.1 h₂
    obtain ⟨name, _, hname, h₄, rfl⟩ := List.forall₂_cons_right_iff.1 h₃
    obtain ⟨r, _, hr, hnil, rfl⟩ := List.forall₂_cons_right_iff.1 h₄
    cases hnil
    refine ⟨.binary l.position [token] (some name), _, ⟨?_, [slash, name], ⟨?_, slash, ?_, rfl⟩,
      l, r, ?_, rfl, ?_, rfl⟩, rfl, ?_⟩
    · exact List.forall_mem_singleton.2 (htoken.kind_eq _ hstring)
    · exact hname.kind_eq _ hencoding
    · exact hslash.kind_eq .slash rfl
    · exact hl.kind_eq .openBinary rfl
    · exact hr.kind_eq .closeBinary rfl
    · have hcontents := contentsOf_singleton (h.contents_eq _ hR htoken.text_eq)
      rw [Node.StandsFor, Node.value]
      refine Result.bind_eq_ok_iff.2 ⟨_, hcontents, ?_⟩
      rw [toLatin1?_map_ofNat, ← hname.text_eq]
      rfl

theorem ofNat_mem_integer (n : Nat) : Text.ofNat n ∈ TokenKind.integer.words := by
  obtain ⟨c, v, heq⟩ := List.exists_cons_of_ne_nil (ofNat_ne_nil n)
  have hdigits : ∀ d ∈ Text.ofNat n, d.isDigit = true := fun _ hd => isDigit_of_mem_ofNat hd
  rw [heq] at hdigits ⊢
  obtain ⟨hc, hv⟩ := List.forall_mem_cons.1 hdigits
  exact mem_oneOf_mul.2 ⟨c, v, hc, mem_oneOf_kstar.2 hv, rfl⟩

theorem Token.number_of_text_eq {n : Nat} (hn : n < Nat.pow 10 Decimal.maxDigits)
    (h : token.text = Text.ofNat n) : token.number = .ok n := by
  rw [number_eq_ok_iff, h]
  exact ⟨length_ofNat_le_maxDigits_iff.2 hn, ofDigits_ofNat n⟩

theorem readsBack_int {i : Int} (hi : i.natAbs < Nat.pow 10 Decimal.maxDigits) :
    ReadsBack Node.HasTree Node.StandsFor (.int i)
      ((if i < 0 then [("-" : Text)] else []) ++ [Text.ofNat i.natAbs]) := by
  have hinteger := ofNat_mem_integer i.natAbs
  split
  · rename_i hnegative
    constructor
    · simp only [List.singleton_append, List.forall_mem_cons]
      exact ⟨⟨.minus, rfl⟩, ⟨.integer, hinteger⟩, List.forall_mem_nil _⟩
    · intro tokens htokens
      obtain ⟨sign, _, hsign, hmore, rfl⟩ := List.forall₂_cons_right_iff.1 htokens
      obtain ⟨token, _, htoken, hnil, rfl⟩ := List.forall₂_cons_right_iff.1 hmore
      cases hnil
      refine ⟨.negative sign.position token, _, ⟨htoken.kind_eq _ hinteger, sign,
        hsign.kind_eq .minus rfl, rfl, rfl⟩, rfl, ?_⟩
      rw [Node.StandsFor, Node.value, Token.number_of_text_eq hi htoken.text_eq]
      exact congrArg (Except.ok ∘ Term.int) (by omega)
  · rename_i hnatural
    refine readsBack_singleton .integer .integer hinteger fun token hkind htext => ?_
    refine ⟨.integer token, ⟨hkind, rfl⟩, ?_⟩
    rw [Node.StandsFor, Node.value, Token.number_of_text_eq hi htext]
    exact congrArg (Except.ok ∘ Term.int) (by omega)

/-- The value is a name with these digits behind it. -/
def Node.IsNamed (node : Node) (written : Text × Text) : Prop :=
  ∃ first arity, node = .funRef first arity ∧ first.text = written.1 ∧ arity.text = written.2

theorem readsBack_named {name digits : Text} (hname : name ∈ TokenKind.name.words)
    (hdigits : digits ∈ TokenKind.integer.words) :
    ReadsBack Node.HasTree Node.IsNamed (name, digits) [name, "/", digits] := by
  constructor
  · simp only [List.forall_mem_cons]
    exact ⟨⟨.name, hname⟩, ⟨.slash, rfl⟩, ⟨.integer, hdigits⟩, List.forall_mem_nil _⟩
  · intro tokens htokens
    obtain ⟨first, _, hfirst, h₁, rfl⟩ := List.forall₂_cons_right_iff.1 htokens
    obtain ⟨slash, _, hslash, h₂, rfl⟩ := List.forall₂_cons_right_iff.1 h₁
    obtain ⟨arity, _, harity, hnil, rfl⟩ := List.forall₂_cons_right_iff.1 h₂
    cases hnil
    exact ⟨.funRef first arity, _, ⟨hfirst.kind_eq _ hname, harity.kind_eq _ hdigits, slash,
      hslash.kind_eq .slash rfl, rfl⟩, rfl, first, arity, rfl, hfirst.text_eq, harity.text_eq⟩

theorem readsBack_funRef {name : Text} {arity : Int} (hname : name ∈ TokenKind.name.words)
    (harity : 0 ≤ arity) (hshort : arity.natAbs < Nat.pow 10 Decimal.maxDigits) :
    ReadsBack Node.HasTree Node.StandsFor (.funRef name arity)
      [name, "/", Text.ofInt arity] := by
  rw [Text.ofInt, if_neg (by omega)]
  refine (readsBack_named hname (ofNat_mem_integer arity.natAbs)).imp ?_
  rintro _ ⟨first, token, rfl, hfirst, htoken⟩
  rw [Node.StandsFor, Node.value, Token.number_of_text_eq hshort htoken, hfirst]
  exact congrArg (Except.ok ∘ Term.funRef name) (by omega)

end Values

/-! ## Values with parts -/

section Brackets

variable {R : β → SyntaxTree → Prop} {V : β → α → Prop} {items : List α}
  {parts : List (List Text)}

/-- What stands between brackets is read back from its parts. -/
theorem readsBack_bracketed (node : Position → List β → Node) (rule : Rule)
    (opening closing : TokenKind) {openText closeText : Text} {t : Term}
    (hopening : openText ∈ opening.words) (hclosing : closeText ∈ closing.words)
    (htree : ∀ at_ bs children tree, Separated R bs children →
      IsBracketed rule opening closing at_ children tree → (node at_ bs).HasTree tree)
    (hvalue : ∀ at_ bs, List.Forall₂ V bs items → (node at_ bs).StandsFor t)
    (h : List.Forall₂ (ReadsBack R V) items parts) :
    ReadsBack Node.HasTree Node.StandsFor t (bracketed openText closeText parts) where
  lexical := List.forall_mem_cons.2 ⟨⟨opening, hopening⟩, List.forall_mem_append.2
    ⟨lexical_intercalate h, List.forall_mem_singleton.2 ⟨closing, hclosing⟩⟩⟩
  derives := fun tokens htokens => by
    obtain ⟨l, rest, hl, hrest, rfl⟩ := List.forall₂_cons_right_iff.1 htokens
    obtain ⟨between, back, rfl, hbetween, hback⟩ := Lists.exists_append_right hrest
    obtain ⟨r, _, hr, hnil, rfl⟩ := List.forall₂_cons_right_iff.1 hback
    cases hnil
    obtain ⟨bs, children, hchildren, rfl, hbs⟩ := exists_separated h hbetween
    refine ⟨node l.position bs, .ofValue rule (.leaf l :: (children ++ [.leaf r])), ?_, ?_,
      hvalue _ bs hbs⟩
    · exact htree _ bs children _ hchildren
        ⟨l, r, hl.kind_eq _ hopening, rfl, hr.kind_eq _ hclosing, rfl⟩
    · simp [ofValue, yield, yields]

end Brackets

theorem values_of_forall₂ {nodes : List Node} {items : List Term}
    (h : List.Forall₂ Node.StandsFor nodes items) : Node.values nodes = .ok items := by
  induction h with
  | nil => rfl
  | cons hnode _ ih =>
    rw [Node.values, show Node.value _ = _ from hnode, ih]
    rfl

theorem items_of_forall₂ {pairs : List (Node × Node)} {items : Items}
    (h : List.Forall₂ StandForItem pairs items)
    (hhashable : ∀ item ∈ items, item.1.isHashable = true) : Node.items pairs = .ok items := by
  induction h with
  | nil => rfl
  | @cons pair item pairs items hpair _ ih =>
    obtain ⟨hitem, hrest⟩ := List.forall_mem_cons.1 hhashable
    rw [Node.items, show Node.value _ = _ from hpair.key, show Node.value _ = _ from hpair.value,
      ih hrest]
    exact if_pos hitem

theorem readsBack_pair {key value : Term} {keyLexemes lexemes : List Text}
    (hkey : ReadsBack Node.HasTree Node.StandsFor key keyLexemes)
    (hvalue : ReadsBack Node.HasTree Node.StandsFor value lexemes) :
    ReadsBack HasPairTree StandForItem (key, value) (keyLexemes ++ ("=>" : Text) :: lexemes) where
  lexical := List.forall_mem_append.2
    ⟨hkey.lexical, List.forall_mem_cons.2 ⟨⟨.arrow, rfl⟩, hvalue.lexical⟩⟩
  derives := fun tokens htokens => by
    obtain ⟨front, rest, rfl, hfront, hrest⟩ := Lists.exists_append_right htokens
    obtain ⟨arrow, back, harrow, hback, rfl⟩ := List.forall₂_cons_right_iff.1 hrest
    obtain ⟨keyNode, keyTree, hkeyTree, rfl, hkeyNode⟩ := hkey.derives front hfront
    obtain ⟨node, tree, htree, rfl, hnode⟩ := hvalue.derives back hback
    refine ⟨(keyNode, node), .node .pair [keyTree, .leaf arrow, tree], ?_, ?_, hkeyNode, hnode⟩
    · exact ⟨keyTree, arrow, tree, hkeyTree, harrow.kind_eq .arrow rfl, htree, rfl⟩
    · simp [yield, yields]

mutual

/-- The lexemes of a term are read back as the term. -/
theorem readsBack_of_isWritten : ∀ (t : Term) (lexemes : List Text), IsExpressible t →
    IsWritten t lexemes → ReadsBack Node.HasTree Node.StandsFor t lexemes
  | .text chars, lexemes, _, h => by
    obtain ⟨lexeme, hlexeme, rfl⟩ := h
    exact readsBack_text hlexeme
  | .atom chars, lexemes, _, h => by
    obtain ⟨lexeme, hlexeme, rfl⟩ := h
    exact readsBack_atom hlexeme
  | .tagged data encoding, lexemes, hencoding, h => by
    obtain ⟨lexeme, hlexeme, rfl⟩ := h
    exact readsBack_tagged hlexeme hencoding
  | .int i, lexemes, hterm, h => by
    rw [show lexemes = _ from h]
    exact readsBack_int hterm
  | .funRef name arity, lexemes, hterm, h => by
    rw [show lexemes = _ from h]
    exact readsBack_funRef hterm.1 hterm.2.1 hterm.2.2
  | .list items, lexemes, hterm, h => by
    obtain ⟨parts, hparts, rfl⟩ := h
    refine readsBack_bracketed .list .list .leftBracket .rightBracket rfl rfl
      (fun at_ bs children tree hchildren htree => ⟨children, ?_, htree⟩)
      (fun at_ bs hbs => ?_) (readsBack_of_areWritten items parts hterm.2 hparts)
    · exact hasTrees_iff.2 hchildren
    · rw [Node.StandsFor, Node.value, values_of_forall₂ hbs]
      rfl
  | .tuple items, lexemes, hterm, h => by
    obtain ⟨parts, hparts, rfl⟩ := h
    refine readsBack_bracketed .tuple .tuple .leftBrace .rightBrace rfl rfl
      (fun at_ bs children tree hchildren htree => ⟨children, ?_, htree⟩)
      (fun at_ bs hbs => ?_) (readsBack_of_areWritten items parts hterm.2 hparts)
    · exact hasTrees_iff.2 hchildren
    · rw [Node.StandsFor, Node.value, values_of_forall₂ hbs]
      rfl
  | .map items, lexemes, hterm, h => by
    obtain ⟨parts, hparts, rfl⟩ := h
    obtain ⟨hdict, hitems⟩ : Items.IsDict items ∧ _ := hterm
    refine readsBack_bracketed .map .map .openMap .rightBrace rfl rfl
      (fun at_ bs children tree hchildren htree => ⟨children, ?_, htree⟩)
      (fun at_ bs hbs => ?_) (readsBack_of_itemsAreWritten items parts hitems hparts)
    · exact havePairTrees_iff.2 hchildren
    · rw [Node.StandsFor, Node.value, items_of_forall₂ hbs hdict.hashable]
      exact congrArg (Except.ok ∘ Term.map) (Items.ofPairs_of_pairwise hdict.distinct)
  | .none, _, _, h | .bool _, _, _, h | .float _, _, _, h | .bytes _, _, _, h
  | .foreign _, _, _, h => h.elim

theorem readsBack_of_areWritten : ∀ (items : List Term) (parts : List (List Text)),
    Term.EveryItem IsSourceTerm items → AreWritten items parts →
    List.Forall₂ (ReadsBack Node.HasTree Node.StandsFor) items parts
  | [], parts, _, h => by
    cases h
    exact .nil
  | t :: rest, parts, hitems, h => by
    obtain ⟨lexemes, others, hlexemes, hothers, rfl⟩ := h
    exact .cons (readsBack_of_isWritten t lexemes hitems.1 hlexemes)
      (readsBack_of_areWritten rest others hitems.2 hothers)

theorem readsBack_of_itemsAreWritten : ∀ (items : Items) (parts : List (List Text)),
    Term.EveryPair IsSourceTerm items → ItemsAreWritten items parts →
    List.Forall₂ (ReadsBack HasPairTree StandForItem) items parts
  | [], parts, _, h => by
    cases h
    exact .nil
  | (key, value) :: rest, parts, hitems, h => by
    obtain ⟨keyLexemes, lexemes, others, hkey, hvalue, hothers, rfl⟩ := h
    exact .cons (readsBack_pair (readsBack_of_isWritten key keyLexemes hitems.1 hkey)
        (readsBack_of_isWritten value lexemes hitems.2.1 hvalue))
      (readsBack_of_itemsAreWritten rest others hitems.2.2 hothers)

end

/-! ## Forms -/

/-- The written form has the name, and its value stands for something as `V` says. -/
structure FormNode.Carries (V : Node → α → Prop) (node : FormNode) (form : Text × α) : Prop where
  name : node.name.text = form.1
  value : V node.value form.2

theorem readsBack_form {V : Node → α → Prop} {form : Text × α} {lexemes : List Text}
    (hname : form.1 ∈ TokenKind.name.words) (hreads : ReadsBack Node.HasTree V form.2 lexemes) :
    ReadsBack FormNode.HasTree (FormNode.Carries V) form
      (("-" : Text) :: form.1 :: (lexemes ++ [("." : Text)])) := by
  constructor
  · exact List.forall_mem_cons.2 ⟨⟨.minus, rfl⟩, List.forall_mem_cons.2 ⟨⟨.name, hname⟩,
      List.forall_mem_append.2 ⟨hreads.lexical, List.forall_mem_singleton.2 ⟨.dot, rfl⟩⟩⟩⟩
  · intro tokens htokens
    obtain ⟨sign, _, hsign, h₁, rfl⟩ := List.forall₂_cons_right_iff.1 htokens
    obtain ⟨name, _, hspelled, h₂, rfl⟩ := List.forall₂_cons_right_iff.1 h₁
    obtain ⟨between, back, rfl, hbetween, hback⟩ := Lists.exists_append_right h₂
    obtain ⟨dot, _, hdot, hnil, rfl⟩ := List.forall₂_cons_right_iff.1 hback
    cases hnil
    obtain ⟨node, tree, htree, rfl, hnode⟩ := hreads.derives between hbetween
    refine ⟨⟨sign.position, name, node⟩, _, ⟨sign, dot, tree, [tree], ?_, rfl, ?_, htree, .inl rfl,
      ?_, rfl⟩, by simp [yield, yields], hspelled.text_eq, hnode⟩
    · exact hsign.kind_eq .minus rfl
    · exact hspelled.kind_eq _ hname
    · exact hdot.kind_eq .dot rfl

/-- Lexemes of forms derive the forms, whatever gaps stand between them. -/
theorem Forms.exists_of_isLaidOut {V : Node → α → Prop} {forms : List (Text × α)}
    {parts : List (List Text)} {t : Text}
    (hparts : List.Forall₂ (ReadsBack FormNode.HasTree (FormNode.Carries V)) forms parts)
    (ht : IsLaidOut parts.flatten t) :
    ∃ nodes, Forms.ofText t = .ok nodes ∧ List.Forall₂ (FormNode.Carries V) nodes forms := by
  have hlexical : ∀ lexeme ∈ parts.flatten, ∃ kind : TokenKind, lexeme ∈ kind.words := by
    intro lexeme hlexeme
    obtain ⟨part, hpart, hlexeme⟩ := List.mem_flatten.1 hlexeme
    obtain ⟨form, _, hform⟩ := Lists.exists_left hparts part hpart
    exact hform.lexical lexeme hlexeme
  obtain ⟨tokens, htokens, hspells⟩ := Tokens.exists_of_isLaidOut ht hlexical
  obtain ⟨nodes, children, htrees, rfl, hnodes⟩ := exists_concatenated hparts hspells
  refine ⟨nodes, ?_, hnodes⟩
  rw [Forms.ofText, htokens, Forms.ofTokens_eq_ok_iff]
  exact ⟨rfl, run_of_forms htrees⟩

namespace Form

theorem ofNodes_of_forall₂ {nodes : List FormNode} {forms : List (Text × Term)}
    (file? : Option Text) (h : List.Forall₂ (FormNode.Carries Node.StandsFor) nodes forms) :
    (ofNodes file? nodes).map (List.map fun form => (form.name, form.value)) = .ok forms := by
  induction h with
  | nil => rfl
  | @cons node form nodes forms hnode _ ih =>
    obtain ⟨read, hread, rfl⟩ := Result.map_eq_ok_iff.1 ih
    rw [ofNodes, show Node.value _ = _ from hnode.value, hread, hnode.name]
    rfl

/-- Forms that a source can stand for can be written, and whatever gaps stand between the
lexemes, the text is read as these names and values. -/
theorem ofText_of_formsAreWritten {forms : List (Text × Term)}
    (hforms : ∀ form ∈ forms, IsExpressibleForm form) :
    (∃ lexemes t, FormsAreWritten forms lexemes ∧ IsLaidOut lexemes t)
    ∧ ∀ (lexemes : List Text) (t : Text) (file? : Option Text), FormsAreWritten forms lexemes →
      IsLaidOut lexemes t →
      (ofText t file?).map (List.map fun form => (form.name, form.value)) = .ok forms := by
  constructor
  · obtain ⟨lexemes, hlexemes⟩ := exists_formsAreWritten hforms
    exact ⟨lexemes, _, hlexemes, isLaidOut_join lexemes⟩
  · intro lexemes t file? hwritten hlaidOut
    obtain ⟨parts, hparts, rfl⟩ := hwritten
    have hreads : List.Forall₂ (ReadsBack FormNode.HasTree (FormNode.Carries Node.StandsFor)) forms
        parts := by
      refine ((List.forall₂_and_left forms parts).2 ⟨hforms, hparts⟩).imp ?_
      rintro form _ ⟨hform, valueLexemes, hvalue, rfl⟩
      exact readsBack_form hform.name (readsBack_of_isWritten form.2 valueLexemes hform.value hvalue)
    obtain ⟨nodes, hnodes, hcarried⟩ := Forms.exists_of_isLaidOut hreads hlaidOut
    obtain ⟨read, hread, hsame⟩ := Result.map_eq_ok_iff.1 (ofNodes_of_forall₂ file? hcarried)
    rw [ofText, hnodes]
    exact Result.map_eq_ok_iff.2 ⟨read, Result.mapError_eq_ok_iff.2 hread, hsame⟩

/-- A map with one item as the value of a form. -/
def mapForm : Text × Term := ("doc", .map [(.atom "k", .int (-7))])

/-- The lexemes of the form, with the letter of the atom by its number. -/
def mapLexemes : List Text :=
  ["-", "doc", "#\x7b", "'\\x\x7b06B\x7d'", "=>", "-", "7", "\x7d", "."]

/-- The form behind a comment is read back. -/
theorem ofText_of_formsAreWritten_mapForm :
    (ofText (("% a map\n" : Text) ++ Text.join " " mapLexemes) none).map
      (List.map fun form => (form.name, form.value)) = .ok [mapForm] := by
  have hname : mapForm.1 ∈ TokenKind.name.words :=
    mem_oneOf_mul.2 ⟨_, "oc", by decide, mem_oneOf_kstar.2 (List.all_eq_true.1 rfl), rfl⟩
  have hpow : ∀ digits, 1 ≤ digits → Int.natAbs (-7) < Nat.pow 10 digits :=
    fun _ h => lt_of_lt_of_le (by decide) (Nat.pow_le_pow_right (by decide) h)
  have hshort : IsSourceTerm (.int (-7)) := hpow Decimal.maxDigits (by decide)
  have hvalue : IsExpressible mapForm.2 :=
    ⟨⟨by simp [Term.isHashable], List.pairwise_singleton _ _⟩, trivial, hshort, trivial⟩
  have hatom : IsQuoted '\'' IsBraced ("k" : Text) "'\\x\x7b06B\x7d'" :=
    ⟨["\\x\x7b06B\x7d"],
      .cons ⟨"06B", ⟨by decide, List.all_eq_true.1 rfl, by decide⟩, rfl⟩ .nil, rfl⟩
  have hwritten : IsWrittenForm mapForm mapLexemes :=
    ⟨_, ⟨_, ⟨_, _, [], ⟨_, hatom, rfl⟩, rfl, rfl, rfl⟩, rfl⟩, rfl⟩
  have hgap : ("% a map\n" : Text) ∈ gap :=
    comment_mem_gap (w := "% a map") (mem_oneOf_mul.2
      ⟨_, " a map", by decide, mem_oneOf_kstar.2 (List.all_eq_true.1 rfl), rfl⟩) nil_mem_gap
  have hlaidOut : IsLaidOut mapLexemes (("% a map\n" : Text) ++ Text.join " " mapLexemes) :=
    ⟨_, hgap, _, isSpaced_join mapLexemes, rfl⟩
  exact (ofText_of_formsAreWritten (List.forall_mem_singleton.2 ⟨hname, hvalue⟩)).2 mapLexemes _
    none ⟨[mapLexemes], .cons hwritten .nil, rfl⟩ hlaidOut

/-- A form with an arity of too many digits is refused, however it is laid out. -/
theorem ofText_of_longArity {name function : Text} {arity : Int}
    (hname : name ∈ TokenKind.name.words) (hfunction : function ∈ TokenKind.name.words)
    (hpos : 0 ≤ arity) (hlong : Nat.pow 10 Decimal.maxDigits ≤ arity.natAbs) {lexemes : List Text}
    {t : Text} (hwritten : IsWrittenForm (name, .funRef function arity) lexemes)
    (hlaidOut : IsLaidOut lexemes t) (file? : Option Text) : ∃ at_, ofText t file? =
      .error (.badValue (.tooLong (.read (Text.ofInt arity).length) at_)) := by
  obtain ⟨valueLexemes, hvalue, rfl⟩ := hwritten
  have hdigits : Text.ofInt arity = Text.ofNat arity.natAbs := by
    rw [Text.ofInt, if_neg (by omega)]
  rw [show valueLexemes = _ from hvalue, hdigits] at hlaidOut
  have hreads : ReadsBack _ _ (name, function, Text.ofNat arity.natAbs) _ :=
    readsBack_form hname (readsBack_named hfunction (ofNat_mem_integer arity.natAbs))
  obtain ⟨nodes, hnodes, hcarried⟩ :=
    Forms.exists_of_isLaidOut (.cons hreads .nil) (by simpa using hlaidOut)
  obtain ⟨node, rest, ⟨_, first, token, hnode, _, htoken⟩, hnil, rfl⟩ :=
    List.forall₂_cons_right_iff.1 hcarried
  cases hnil
  have htoken : token.text = Text.ofNat arity.natAbs := htoken
  have hmany : Decimal.maxDigits < token.text.length := by
    rw [htoken, ← not_le, length_ofNat_le_maxDigits_iff]
    exact not_lt.2 hlong
  have hnumber := Token.number_eq_error_iff.2 ⟨hmany, rfl⟩
  refine ⟨token.position, ?_⟩
  rw [ofText, hnodes, hdigits, ← htoken]
  dsimp only
  rw [ofNodes, hnode, Node.value, hnumber]
  rfl

/-- The least arity of 4301 digits. -/
def longArity : Int := Nat.pow 10 Decimal.maxDigits

/-- The lexemes of a form with this arity. -/
def longArityLexemes : List Text := ["-", "m", "a", "/", Text.ofInt longArity, "."]

/-- The form has names and no negative arity, and is written and laid out, but not read. -/
theorem ofText_longArityLexemes :
    Text.ofString "m" ∈ TokenKind.name.words ∧ Text.ofString "a" ∈ TokenKind.name.words ∧
    0 ≤ longArity ∧ FormsAreWritten [("m", .funRef "a" longArity)] longArityLexemes ∧
    IsLaidOut longArityLexemes (Text.join " " longArityLexemes) ∧
    ∃ at_, ofText (Text.join " " longArityLexemes) none
      = .error (.badValue (.tooLong (.read 4301) at_)) := by
  have hm : Text.ofString "m" ∈ TokenKind.name.words :=
    mem_oneOf_mul.2 ⟨_, [], by decide, Language.nil_mem_kstar _, rfl⟩
  have ha : Text.ofString "a" ∈ TokenKind.name.words :=
    mem_oneOf_mul.2 ⟨_, [], by decide, Language.nil_mem_kstar _, rfl⟩
  have hpos : 0 ≤ longArity := Int.natCast_nonneg _
  have hwritten : IsWrittenForm ("m", .funRef "a" longArity) longArityLexemes := ⟨_, rfl, rfl⟩
  have habs : longArity.natAbs = Nat.pow 10 Decimal.maxDigits := Int.natAbs_natCast _
  have hlength : (Text.ofInt longArity).length = 4301 := by
    rw [Text.ofInt, if_neg (not_lt.2 hpos), habs, length_ofNat_pow]
    rfl
  obtain ⟨at_, hrefused⟩ := ofText_of_longArity hm ha hpos habs.ge hwritten
    (isLaidOut_join longArityLexemes) none
  rw [hlength] at hrefused
  exact ⟨hm, ha, hpos, ⟨[longArityLexemes], .cons hwritten .nil, (List.append_nil _).symm⟩,
    isLaidOut_join longArityLexemes, at_, hrefused⟩

end Form

end ModuleDocs.Source
