import Mathlib
import ModuleDocs.Number.Binary64

/-!
# What the bits of doubles stand for

Bits that are a number are known by what they stand for (`Binary64.eq_of_classify_eq`).  Two
patterns of bits stand for zero, one of each sign: `Binary64.toInt?_eq_zero_iff` says that they are
the doubles equal to the integer zero.
-/

namespace ModuleDocs.Binary64

variable {a b bits : UInt64} {negative : Bool} {m : Nat} {q : Int}

/-! ## Mantissas and exponents -/

/-- The mantissas and exponents of finite numbers. -/
structure IsFormat (m : Nat) (q : Int) : Prop where
  lt : m < 2 ^ 53
  le : -1074 ≤ q
  normal : q = -1074 ∨ 2 ^ 52 ≤ m

theorem isFormat_of_classify (h : classify bits = .finite negative m q) : IsFormat m q := by
  have hfractions : fractions = 2 ^ 52 := rfl
  have hfraction : bits.toNat % 2 ^ 52 < 2 ^ 52 := Nat.mod_lt _ (by decide)
  unfold classify at h
  simp only [hfractions] at h
  split at h
  · split at h <;> cases h
  · split at h
    · cases h
      exact ⟨by omega, by omega, .inl rfl⟩
    · cases h
      exact ⟨by omega, by omega, .inr (by omega)⟩

theorem toNat_of_finite (h : classify bits = .finite negative m q) :
    bits.toNat = m + (q + 1074).toNat * 2 ^ 52 + if negative then 2 ^ 63 else 0 := by
  have hfractions : fractions = 2 ^ 52 := rfl
  have hlt := bits.toNat_lt
  unfold classify at h
  simp only [hfractions, Nat.shiftRight_eq_div_pow] at h
  split at h
  · split at h <;> cases h
  · split at h
    all_goals
      cases h
      simp only [decide_eq_true_eq]
      split <;> omega

theorem toNat_of_infinite (h : classify bits = .infinite negative) :
    bits.toNat = 2047 * 2 ^ 52 + if negative then 2 ^ 63 else 0 := by
  have hfractions : fractions = 2 ^ 52 := rfl
  have hlt := bits.toNat_lt
  unfold classify at h
  simp only [hfractions, Nat.shiftRight_eq_div_pow] at h
  split at h
  · split at h
    · cases h
      simp only [decide_eq_true_eq]
      split <;> omega
    · cases h
  · split at h <;> cases h

/-- Bits that are a number are known by what they stand for. -/
theorem eq_of_classify_eq (h : classify a = classify b) (hnan : isNaN a = false) : a = b := by
  rw [← UInt64.toNat_inj]
  cases ha : classify a with
  | nan => exact absurd ha (of_decide_eq_false hnan)
  | infinite negative => rw [toNat_of_infinite ha, toNat_of_infinite (h.symm.trans ha)]
  | finite negative m q => rw [toNat_of_finite ha, toNat_of_finite (h.symm.trans ha)]

/-! ## Zero -/

/-- A number is zero just if its mantissa is, whatever its exponent. -/
theorem toInt?_eq_zero_iff_of_classify (h : classify bits = .finite negative m q) :
    toInt? bits = some 0 ↔ m = 0 := by
  have hsign : ∀ whole : Nat, (if negative then (-1 : Int) else 1) * whole = 0 ↔ whole = 0 := by
    intro whole
    cases negative <;> simp
  unfold toInt?
  rw [h]
  dsimp only
  by_cases hq : 0 ≤ q
  · rw [if_pos hq, if_pos (Or.inl hq), Option.some.injEq, hsign, Nat.shiftLeft_eq]
    simp
  rw [if_neg hq]
  constructor
  · intro hzero
    split at hzero
    · rename_i hexact
      -- No bit of the mantissa was shifted out, so a whole part of zero was all of it.
      rw [Option.some.injEq, hsign] at hzero
      rw [hzero, Nat.zero_shiftLeft, or_iff_right hq] at hexact
      exact hexact.symm
    · cases hzero
  · intro hzero
    subst hzero
    simp

/-- Only the bits without exponent and fraction have the mantissa zero. -/
theorem exists_classify_eq_zero_iff :
    (∃ negative q, classify bits = .finite negative 0 q) ↔
      bits = 0 ∨ bits = 0x8000000000000000 := by
  have hbits : bits = 0 ∨ bits = 0x8000000000000000 ↔ bits.toNat = 0 ∨ bits.toNat = 2 ^ 63 := by
    rw [← UInt64.toNat_inj, ← UInt64.toNat_inj]
    rfl
  have hlt := bits.toNat_lt
  have hfractions : fractions = 2 ^ 52 := rfl
  rw [hbits]
  unfold classify
  simp only [Nat.shiftRight_eq_div_pow, hfractions]
  by_cases hspecial : bits.toNat / 2 ^ 52 % 2048 = 2047
  · rw [if_pos hspecial]
    refine iff_of_false ?_ (by omega)
    intro ⟨negative, q, h⟩
    split at h <;> cases h
  rw [if_neg hspecial]
  by_cases hfield : bits.toNat / 2 ^ 52 % 2048 = 0
  · rw [if_pos hfield]
    simp only [Value.finite.injEq, exists_and_left, exists_and_right, exists_eq', true_and,
      and_true]
    omega
  · rw [if_neg hfield]
    simp only [Value.finite.injEq, exists_and_left, exists_and_right, exists_eq', true_and,
      and_true]
    omega

/-- The doubles that are equal to the integer zero. -/
theorem toInt?_eq_zero_iff : toInt? bits = some 0 ↔ bits = 0 ∨ bits = 0x8000000000000000 := by
  rw [← exists_classify_eq_zero_iff]
  constructor
  · intro h
    cases hclass : classify bits with
    | finite negative m q =>
      rw [(toInt?_eq_zero_iff_of_classify hclass).1 h]
      exact ⟨negative, q, rfl⟩
    | _ =>
      unfold toInt? at h
      rw [hclass] at h
      cases h
  · intro ⟨negative, q, hclass⟩
    exact (toInt?_eq_zero_iff_of_classify hclass).2 rfl

end ModuleDocs.Binary64
