import Mathlib
import ModuleDocs.Proofs.Lists
import ModuleDocs.Proofs.Number.Numeral
import ModuleDocs.Proofs.Source.Terminal
import ModuleDocs.Proofs.Text.Utf8
import ModuleDocs.Source.Form

/-!
# Literals written by hexadecimal numbers

A code point can stand in a literal as `\x` and its number in braces (`IsBraced`), and a
byte as `\x` and two digits (`IsPaired`).  What is said of a literal with such parts
(`IsQuoted`) goes through `IsEscapeOf`: wherever an escape stands between the quotes, it ends
no literal and is read as one code point.  So the characters of the literal are the items
it was written from (`IsQuoted.contents_eq`).
-/

namespace ModuleDocs.Source

open Computability

variable {α : Type}

/-- Hexadecimal digits of either letter case, with or without leading zeros. -/
structure IsHexOf (n : Nat) (digits : Text) : Prop where
  ne_nil : digits ≠ []
  all_isHex : ∀ c ∈ digits, isHex c = true
  number_eq : hexNumber digits = n

/-- A code point as `\x` with its number in braces. -/
def IsBraced (c : CodePoint) (escape : Text) : Prop :=
  ∃ digits, IsHexOf c.val digits
    ∧ escape = ("\\x\x7b" : Text) ++ (digits ++ ("\x7d" : Text))

/-- A byte as `\x` with two digits. -/
def IsPaired (b : UInt8) (escape : Text) : Prop :=
  ∃ high low, IsHexOf b.toNat [high, low] ∧ escape = ("\\x" : Text) ++ [high, low]

/-- Items that are written one after the other between quotes. -/
def IsQuoted (quote : CodePoint) (R : α → Text → Prop) (items : List α) (lexeme : Text) : Prop :=
  ∃ parts, List.Forall₂ R items parts ∧ lexeme = quote :: (parts.flatten ++ [quote])

/-! ## Digits -/

section Digits

variable {c quote : CodePoint} {n : Nat} {acrossLines : Bool}

theorem isHexOf_hexOfNat (n : Nat) : IsHexOf n (Text.hexOfNat n) where
  ne_nil := hexOfNat_ne_nil n
  all_isHex := fun _ hc => isSome_hexValue?_of_mem_hexOfNat hc
  number_eq := ofDigits_hexOfNat n

/-- A byte has two digits. -/
theorem exists_isHexOf_pair (h : n < 256) : ∃ high low, IsHexOf n [high, low] := by
  have hhigh := hexValue?_digitChar (d := n / 16) (by omega)
  have hlow := hexValue?_digitChar (d := n % 16) (by omega)
  refine ⟨CodePoint.ofChar (n / 16).digitChar, CodePoint.ofChar (n % 16).digitChar, by simp, ?_, ?_⟩
  · simp [isHex, hhigh, hlow]
  · simp only [hexNumber, List.map_cons, List.map_nil, hhigh, hlow, Option.getD_some,
      ofDigits_eq_foldl, List.foldl_cons, List.foldl_nil]
    omega

theorem val_of_isHex (h : isHex c = true) : 0x30 ≤ c.val ∧ c.val ≤ 0x66 ∧ c.val ≠ 0x5C := by
  unfold isHex CodePoint.hexValue? CodePoint.isDigit at h
  split at h
  · rename_i hdigit
    simp only [Bool.and_eq_true, decide_eq_true_eq] at hdigit
    omega
  split at h
  · rename_i _ hlower
    simp only [Bool.and_eq_true, decide_eq_true_eq] at hlower
    omega
  split at h
  · rename_i _ _ hupper
    simp only [Bool.and_eq_true, decide_eq_true_eq] at hupper
    omega
  · cases h

/-- A character that is no quote may stand in a literal if it comes late enough. -/
theorem singleton_mem_literalPart (hquote : quote.val < 0x30) (hc : 0x30 ≤ c.val)
    (hslash : c.val ≠ 0x5C) : [c] ∈ literalPart quote acrossLines := by
  refine mem_literalPart_iff.2 (Or.inr ⟨c, ?_, ?_, Or.inr ?_, rfl⟩)
  · rintro rfl
    omega
  · rintro rfl
    exact hslash rfl
  · rintro rfl
    exact absurd hc (by decide)

end Digits

/-! ## Escapes -/

/-- Wherever the escape stands in a literal, it is read as the code point. -/
structure IsEscapeOf (c : CodePoint) (escape : Text) : Prop where
  mem_kstar : ∀ (quote : CodePoint) (acrossLines : Bool), quote.val < 0x30 →
    escape ∈ (literalPart quote acrossLines)∗
  unescapeFrom_eq : ∀ done rest : Text,
    unescapeFrom done (escape ++ rest) = unescapeFrom (c :: done) rest

section Escapes

variable {c high low : CodePoint} {b : UInt8} {digits escape rest done : Text} {n : Nat}

theorem hexEscape?_braces (h : IsHexOf n digits) :
    hexEscape? (CodePoint.ofChar '\x7b' :: (digits ++ CodePoint.ofChar '\x7d' :: rest))
      = some (digits, digits.length + 2) := by
  have hdigits : (digits ++ CodePoint.ofChar '\x7d' :: rest).takeWhile isHex = digits := by
    rw [List.takeWhile_append_of_pos h.all_isHex, List.takeWhile_cons_of_neg (by decide),
      List.append_nil]
  rw [hexEscape?.eq_def]
  dsimp only
  rw [hdigits, List.drop_left]
  exact if_pos ⟨rfl, by simpa using h.ne_nil, rfl⟩

theorem hexEscape?_pair (hhigh : isHex high = true) (hlow : isHex low = true) :
    hexEscape? (high :: low :: rest) = some ([high, low], 2) := by
  have hval := val_of_isHex hhigh
  rw [hexEscape?.eq_def]
  dsimp only
  rw [if_neg (by omega), if_pos ⟨hhigh, hlow⟩]

/-- What stands behind `\x` is read as the number of its digits. -/
theorem unescapeFrom_hex {t : Text} (h : hexEscape? (t ++ rest) = some (digits, t.length))
    (hnumber : hexNumber digits = c.val) :
    unescapeFrom done (("\\x" : Text) ++ t ++ rest) = unescapeFrom (c :: done) rest := by
  show unescapeFrom done (CodePoint.ofChar '\\' :: CodePoint.ofChar 'x' :: (t ++ rest)) = _
  rw [unescapeFrom.eq_def]
  simp only [ne_eq, not_true_eq_false, if_false, if_true, h, List.drop_left, hnumber, c.isLt,
    dif_pos]

theorem escape_mem_kstar {quote : CodePoint} {acrossLines : Bool} {t : Text}
    (ht : ∀ d ∈ t, [d] ∈ literalPart quote acrossLines) :
    ("\\x" : Text) ++ t ∈ (literalPart quote acrossLines)∗ := by
  have hfirst : ("\\x" : Text) ∈ literalPart quote acrossLines :=
    mem_literalPart_iff.2 (Or.inl ⟨_, by decide, rfl⟩)
  exact append_mem_kstar hfirst (mem_kstar_of_forall_singleton ht)

theorem IsBraced.isEscapeOf (h : IsBraced c escape) : IsEscapeOf c escape := by
  obtain ⟨digits, hdigits, rfl⟩ := h
  constructor
  · intro quote acrossLines hquote
    refine escape_mem_kstar (t := CodePoint.ofChar '\x7b' :: (digits ++ [CodePoint.ofChar '\x7d']))
      fun d hd => ?_
    rcases List.mem_cons.1 hd with rfl | hd
    · exact singleton_mem_literalPart hquote (by decide) (by decide)
    rcases List.mem_append.1 hd with hd | hd
    · obtain ⟨hlow, _, hslash⟩ := val_of_isHex (hdigits.all_isHex d hd)
      exact singleton_mem_literalPart hquote hlow hslash
    · cases List.mem_singleton.1 hd
      exact singleton_mem_literalPart hquote (by decide) (by decide)
  · intro done rest
    refine unescapeFrom_hex (t := CodePoint.ofChar '\x7b' :: (digits ++ [CodePoint.ofChar '\x7d']))
      ?_ hdigits.number_eq
    rw [List.cons_append, List.append_assoc, List.singleton_append, hexEscape?_braces hdigits]
    simp

theorem IsPaired.isEscapeOf (h : IsPaired b escape) :
    IsEscapeOf (CodePoint.ofNat b.toNat) escape := by
  obtain ⟨high, low, hdigits, rfl⟩ := h
  have hhigh := hdigits.all_isHex high (by simp)
  have hlow := hdigits.all_isHex low (by simp)
  constructor
  · intro quote acrossLines hquote
    refine escape_mem_kstar fun d hd => ?_
    obtain ⟨hlow, _, hslash⟩ := val_of_isHex (hdigits.all_isHex d hd)
    exact singleton_mem_literalPart hquote hlow hslash
  · intro done rest
    have hb := b.toNat_lt
    refine unescapeFrom_hex (hexEscape?_pair hhigh hlow) ?_
    rw [hdigits.number_eq, CodePoint.val_ofNat_of_lt (by omega)]

end Escapes

/-! ## Literals -/

namespace IsQuoted

variable {quote : CodePoint} {R : α → Text → Prop} {items : List α} {lexeme : Text}

theorem unescapeFrom_flatten {parts : List Text} (h : List.Forall₂ R items parts)
    (point : α → CodePoint) (hR : ∀ a escape, R a escape → IsEscapeOf (point a) escape)
    (done : Text) :
    unescapeFrom done parts.flatten = .ok (done.reverse ++ items.map point) := by
  induction h generalizing done with
  | nil => rw [List.flatten_nil, unescapeFrom, List.map_nil, List.append_nil]
  | @cons a escape items parts ha _ ih =>
    rw [List.flatten_cons, (hR a escape ha).unescapeFrom_eq, ih, List.reverse_cons,
      List.append_assoc]
    rfl

/-- The characters of the literal are those that its items stand for. -/
theorem contents_eq (h : IsQuoted quote R items lexeme) (point : α → CodePoint)
    (hR : ∀ a escape, R a escape → IsEscapeOf (point a) escape) {t : Token} (ht : t.text = lexeme) : t.contents = .ok (items.map point) := by
  obtain ⟨parts, hparts, rfl⟩ := h
  rw [Token.contents, ht, List.drop_one, List.tail_cons, List.dropLast_concat,
    unescapeFrom_flatten hparts point hR]
  rfl

/-- It is a literal of the terminal with these quotes. -/
theorem mem_literal (h : IsQuoted quote R items lexeme) (point : α → CodePoint)
    (hR : ∀ a escape, R a escape → IsEscapeOf (point a) escape) (hquote : quote.val < 0x30)
    (acrossLines : Bool) : lexeme ∈ literal quote acrossLines := by
  obtain ⟨parts, hparts, rfl⟩ := h
  refine mem_literal_iff.2 ⟨parts.flatten, ?_, rfl⟩
  induction hparts with
  | nil => exact Language.nil_mem_kstar _
  | @cons a escape items parts ha _ ih =>
    rw [List.flatten_cons, ← kstar_mul_kstar]
    exact Language.append_mem_mul ((hR a escape ha).mem_kstar quote acrossLines hquote) ih

/-- Items that can be written one by one can be written between quotes. -/
theorem exists_lexeme (quote : CodePoint) (h : ∀ a, ∃ escape, R a escape) (items : List α) :
    ∃ lexeme, IsQuoted quote R items lexeme := by
  obtain ⟨parts, hparts⟩ := Lists.exists_forall₂ fun a (_ : a ∈ items) => h a
  exact ⟨_, parts, hparts, rfl⟩

end IsQuoted

end ModuleDocs.Source
