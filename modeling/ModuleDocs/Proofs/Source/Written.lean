import Mathlib
import ModuleDocs.Number.Decimal
import ModuleDocs.Proofs.Source.Escape
import ModuleDocs.Proofs.Term.Part

/-!
# Terms as lexemes

`IsWritten t lexemes` says that a term is written as these lexemes, one text for each token.
Characters are written by hexadecimal numbers, in whatever digits, so a term may be written in
many ways; signs and the digits of integers are fixed.  `IsExpressible t` holds of the terms
that a source can stand for, and each of them is written somehow (`exists_isWritten`).
-/

namespace ModuleDocs.Source

/-! ## Expressible terms -/

/-- What a source asks of a term, apart from what it asks of its parts. -/
def IsSourceTerm : Term → Prop
  | .text _ | .atom _ | .list _ | .tuple _ => True
  | .tagged _ encoding => encoding ∈ TokenKind.name.words
  | .int i => i.natAbs < Nat.pow 10 Decimal.maxDigits
  | .funRef name arity =>
    name ∈ TokenKind.name.words ∧ 0 ≤ arity ∧ arity.natAbs < Nat.pow 10 Decimal.maxDigits
  | .map items => Items.IsDict items
  | .none | .bool _ | .float _ | .bytes _ | .foreign _ => False

/-- Strings and atoms over any code points, bytes with the name of an encoding, integers and names
with an arity, neither of too many digits, and lists, tuples and dictionaries of such terms. -/
def IsExpressible (t : Term) : Prop := t.Every IsSourceTerm

/-- A form with a name and a value that a source can stand for. -/
structure IsExpressibleForm (form : Text × Term) : Prop where
  name : form.1 ∈ TokenKind.name.words
  value : IsExpressible form.2

/-! ## Lexemes -/

/-- Parts between brackets, with a comma between two of them. -/
def bracketed (opening closing : Text) (parts : List (List Text)) : List Text :=
  opening :: ([("," : Text)].intercalate parts ++ [closing])

mutual

/-- The lexemes write the term. -/
def IsWritten : Term → List Text → Prop
  | .text t, lexemes => ∃ lexeme, IsQuoted '"' IsBraced t lexeme ∧ lexemes = [lexeme]
  | .atom t, lexemes => ∃ lexeme, IsQuoted '\'' IsBraced t lexeme ∧ lexemes = [lexeme]
  | .tagged data encoding, lexemes =>
    ∃ lexeme, IsQuoted '"' IsPaired data lexeme
      ∧ lexemes = [("<<" : Text), lexeme, "/", encoding, ">>"]
  | .int i, lexemes => lexemes = (if i < 0 then [("-" : Text)] else []) ++ [Text.ofNat i.natAbs]
  | .funRef name arity, lexemes => lexemes = [name, "/", Text.ofInt arity]
  | .list items, lexemes =>
    ∃ parts, AreWritten items parts ∧ lexemes = bracketed "[" "]" parts
  | .tuple items, lexemes =>
    ∃ parts, AreWritten items parts ∧ lexemes = bracketed "\x7b" "\x7d" parts
  | .map items, lexemes =>
    ∃ parts, ItemsAreWritten items parts ∧ lexemes = bracketed "#\x7b" "\x7d" parts
  | .none, _ | .bool _, _ | .float _, _ | .bytes _, _ | .foreign _, _ => False

/-- Each term is written by the lexemes of one part. -/
def AreWritten : List Term → List (List Text) → Prop
  | [], parts => parts = []
  | t :: rest, parts =>
    ∃ lexemes others, IsWritten t lexemes ∧ AreWritten rest others ∧ parts = lexemes :: others

/-- Each key and its value are written by the lexemes of one part. -/
def ItemsAreWritten : Items → List (List Text) → Prop
  | [], parts => parts = []
  | (key, value) :: rest, parts =>
    ∃ keyLexemes lexemes others, IsWritten key keyLexemes ∧ IsWritten value lexemes
      ∧ ItemsAreWritten rest others ∧ parts = (keyLexemes ++ ("=>" : Text) :: lexemes) :: others

end

/-- A name and a value as a form. -/
def IsWrittenForm (form : Text × Term) (lexemes : List Text) : Prop :=
  ∃ valueLexemes, IsWritten form.2 valueLexemes
    ∧ lexemes = ("-" : Text) :: form.1 :: (valueLexemes ++ [("." : Text)])

/-- Forms one after the other. -/
def FormsAreWritten (forms : List (Text × Term)) (lexemes : List Text) : Prop :=
  ∃ parts, List.Forall₂ IsWrittenForm forms parts ∧ lexemes = parts.flatten

/-! ## Everything expressible can be written -/

theorem exists_isBraced (c : CodePoint) : ∃ escape, IsBraced c escape :=
  ⟨_, _, isHexOf_hexOfNat c.val, rfl⟩

theorem exists_isPaired (b : UInt8) : ∃ escape, IsPaired b escape := by
  obtain ⟨high, low, h⟩ := exists_isHexOf_pair b.toNat_lt
  exact ⟨_, high, low, h, rfl⟩

mutual

theorem exists_isWritten : ∀ t : Term, IsExpressible t → ∃ lexemes, IsWritten t lexemes
  | .text t, _ => by
    obtain ⟨lexeme, h⟩ := IsQuoted.exists_lexeme '"' exists_isBraced t
    exact ⟨_, lexeme, h, rfl⟩
  | .atom t, _ => by
    obtain ⟨lexeme, h⟩ := IsQuoted.exists_lexeme '\'' exists_isBraced t
    exact ⟨_, lexeme, h, rfl⟩
  | .tagged data encoding, _ => by
    obtain ⟨lexeme, h⟩ := IsQuoted.exists_lexeme '"' exists_isPaired data
    exact ⟨_, lexeme, h, rfl⟩
  | .int i, _ => ⟨_, rfl⟩
  | .funRef name arity, _ => ⟨_, rfl⟩
  | .list items, h => by
    obtain ⟨parts, hparts⟩ := exists_areWritten items h.2
    exact ⟨_, parts, hparts, rfl⟩
  | .tuple items, h => by
    obtain ⟨parts, hparts⟩ := exists_areWritten items h.2
    exact ⟨_, parts, hparts, rfl⟩
  | .map items, h => by
    obtain ⟨parts, hparts⟩ := exists_itemsAreWritten items h.2
    exact ⟨_, parts, hparts, rfl⟩
  | .none, h | .bool _, h | .float _, h | .bytes _, h | .foreign _, h => h.elim

theorem exists_areWritten : ∀ items : List Term, Term.EveryItem IsSourceTerm items →
    ∃ parts, AreWritten items parts
  | [], _ => ⟨[], rfl⟩
  | t :: rest, h => by
    obtain ⟨lexemes, hlexemes⟩ := exists_isWritten t h.1
    obtain ⟨others, hothers⟩ := exists_areWritten rest h.2
    exact ⟨_, lexemes, others, hlexemes, hothers, rfl⟩

theorem exists_itemsAreWritten : ∀ items : Items, Term.EveryPair IsSourceTerm items →
    ∃ parts, ItemsAreWritten items parts
  | [], _ => ⟨[], rfl⟩
  | (key, value) :: rest, h => by
    obtain ⟨keyLexemes, hkey⟩ := exists_isWritten key h.1
    obtain ⟨lexemes, hvalue⟩ := exists_isWritten value h.2.1
    obtain ⟨others, hothers⟩ := exists_itemsAreWritten rest h.2.2
    exact ⟨_, keyLexemes, lexemes, others, hkey, hvalue, hothers, rfl⟩

end

theorem exists_formsAreWritten {forms : List (Text × Term)}
    (h : ∀ form ∈ forms, IsExpressibleForm form) : ∃ lexemes, FormsAreWritten forms lexemes := by
  obtain ⟨parts, hparts⟩ := Lists.exists_forall₂ (R := IsWrittenForm) fun form hform => by
    obtain ⟨lexemes, hlexemes⟩ := exists_isWritten form.2 (h form hform).value
    exact ⟨_, lexemes, hlexemes, rfl⟩
  exact ⟨_, parts, hparts, rfl⟩

end ModuleDocs.Source
