import Mathlib
import ModuleDocs.Proofs.Lists
import ModuleDocs.Proofs.Number.Numeral
import ModuleDocs.Text.Digit

/-!
# Numerals of all scripts

`Text.IsNumeral` says which number decimal digits write, each of them of any script, and
`Text.toNat?` reads just these (`toNat?_eq_some_iff`).  The digits that numbers are written with are
among them (`isNumeral_ofNat`), the digits that are not decimal are not.
-/

namespace ModuleDocs

/-! ## Digits -/

namespace CodePoint

variable {c : CodePoint} {d : Nat}

theorem decimalValue?_digitChar (h : d < 10) :
    (ofChar (Nat.digitChar d)).decimalValue? = some d := by
  revert d
  decide

theorem isAnyDigit_of_decimalValue? (h : c.decimalValue? = some d) : c.isAnyDigit = true := by
  rw [isAnyDigit, h]
  rfl

end CodePoint

namespace Text

variable {t : Text} {n value : Nat}

/-- Decimal digits, each with its value. -/
def HasDigits (t : Text) (digits : List Nat) : Prop :=
  List.Forall₂ (fun (c : CodePoint) d => c.decimalValue? = some d) t digits

/-- The text is the number in decimal digits, perhaps of several scripts. -/
def IsNumeral (t : Text) (n : Nat) : Prop :=
  t ≠ [] ∧ ∃ digits, t.HasDigits digits ∧ ofDigits 10 digits = n

theorem exists_hasDigits_iff :
    (∃ digits, t.HasDigits digits) ↔ ∀ c ∈ t, c.decimalValue?.isSome = true := by
  constructor
  · intro ⟨digits, hdigits⟩ c hc
    obtain ⟨d, _, hd⟩ := Lists.exists_right hdigits c hc
    rw [hd]
    rfl
  · intro hall
    induction t with
    | nil => exact ⟨[], .nil⟩
    | cons c rest ih =>
      obtain ⟨hfirst, hrest⟩ := List.forall_mem_cons.1 hall
      obtain ⟨d, hd⟩ := Option.isSome_iff_exists.1 hfirst
      obtain ⟨digits, hdigits⟩ := ih hrest
      exact ⟨d :: digits, .cons hd hdigits⟩

/-! ## Reading -/

theorem digitsFrom?_eq_some_iff : digitsFrom? value t = some n ↔
    ∃ digits, t.HasDigits digits ∧ digits.foldl (fun n d => n * 10 + d) value = n := by
  induction t generalizing value with
  | nil =>
    constructor
    · intro h
      exact ⟨[], .nil, Option.some.inj h⟩
    · intro ⟨digits, hdigits, hn⟩
      cases hdigits
      exact congrArg some hn
  | cons c rest ih =>
    rw [digitsFrom?, Option.bind_eq_bind, Option.bind_eq_some_iff]
    constructor
    · intro ⟨d, hd, hrest⟩
      obtain ⟨digits, hdigits, hn⟩ := ih.1 hrest
      exact ⟨d :: digits, .cons hd hdigits, hn⟩
    · intro ⟨digits, hdigits, hn⟩
      cases hdigits with
      | @cons _ d _ others hd hrest => exact ⟨d, hd, ih.2 ⟨others, hrest, hn⟩⟩

/-- What is read are the numerals. -/
theorem toNat?_eq_some_iff : toNat? t = some n ↔ t.IsNumeral n := by
  rw [toNat?, IsNumeral]
  by_cases ht : t = []
  · simp [ht]
  · simp [ht, digitsFrom?_eq_some_iff, ofDigits_eq_foldl]

theorem toNat?_eq_none_iff :
    toNat? t = none ↔ t = [] ∨ ∃ c ∈ t, c.decimalValue? = none := by
  have hdigits : (∃ n, t.IsNumeral n) ↔ t ≠ [] ∧ ∀ c ∈ t, c.decimalValue?.isSome = true := by
    rw [← exists_hasDigits_iff]
    constructor
    · intro ⟨n, hne, digits, hdigits, _⟩
      exact ⟨hne, digits, hdigits⟩
    · intro ⟨hne, digits, hdigits⟩
      exact ⟨_, hne, digits, hdigits, rfl⟩
  rw [← Option.not_isSome_iff_eq_none, Option.isSome_iff_exists]
  simp only [toNat?_eq_some_iff, hdigits, not_and_or, not_not, not_forall, exists_prop,
    Option.not_isSome_iff_eq_none]

/-- The digits of a numeral are in front of anything else. -/
theorem IsNumeral.decimalLength (h : t.IsNumeral n) : t.decimalLength = t.length := by
  obtain ⟨_, digits, hdigits, _⟩ := h
  rw [Text.decimalLength, List.takeWhile_eq_self_iff.2 (exists_hasDigits_iff.1 ⟨digits, hdigits⟩)]

theorem IsNumeral.isAnyDigit (h : t.IsNumeral n) : ∀ c ∈ t, c.isAnyDigit = true := by
  obtain ⟨_, digits, hdigits, _⟩ := h
  intro c hc
  obtain ⟨d, _, hd⟩ := Lists.exists_right hdigits c hc
  exact CodePoint.isAnyDigit_of_decimalValue? hd

/-! ## Writing -/

/-- A number is written as a numeral of it. -/
theorem isNumeral_ofNat (n : Nat) : (ofNat n).IsNumeral n := by
  refine ⟨ofNat_ne_nil n, _, ?_, ofDigits_ofNat n⟩
  rw [HasDigits, List.forall₂_map_right_iff, List.forall₂_same]
  intro c hc
  obtain ⟨digit, hdigit, rfl⟩ := List.mem_map.1 hc
  obtain ⟨d, hd, rfl⟩ := exists_of_mem_toDigits (by decide) hdigit
  exact (CodePoint.decimalValue?_digitChar hd).trans (congrArg some (val_digitChar hd).symm)

end Text

end ModuleDocs
