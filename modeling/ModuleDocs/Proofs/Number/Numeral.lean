import Mathlib
import ModuleDocs.Number.Decimal
import ModuleDocs.Number.Digits
import ModuleDocs.Text.Basic

/-!
# Numbers that digits write are read back

`Text.ofNat` and `Text.hexOfNat` write the highest digit first, and `ofDigits` reads it
first.  What a digit is worth is left open (`ofDigits_toDigits`), since decimal and
hexadecimal digits are looked up in different ways.
-/

namespace ModuleDocs

variable {base n d : Nat}

/-- The digits of a number are those below its base. -/
theorem exists_of_mem_toDigits (hbase : 1 < base) {c : Char} (h : c ∈ Nat.toDigits base n) :
    ∃ d < base, c = Nat.digitChar d := by
  induction n using Nat.strongRecOn with
  | ind n ih =>
    rw [Nat.toDigits_eq_if hbase] at h
    split at h
    · rename_i hlt
      exact ⟨n, hlt, List.mem_singleton.1 h⟩
    · rename_i hle
      have hdiv : n / base < n := Nat.div_lt_self (by omega) hbase
      rcases List.mem_append.1 h with h | h
      · exact ih _ hdiv h
      · exact ⟨n % base, Nat.mod_lt n (by omega), List.mem_singleton.1 h⟩

/-- Digits are read as the number that they write, if each is worth what it stands for. -/
theorem ofDigits_toDigits {worth : CodePoint → Nat} (hbase : 1 < base)
    (hworth : ∀ d < base, worth (CodePoint.ofChar (Nat.digitChar d)) = d) (n : Nat) :
    ofDigits base (((Nat.toDigits base n).map CodePoint.ofChar).map worth) = n := by
  induction n using Nat.strongRecOn with
  | ind n ih =>
    rw [Nat.toDigits_eq_if hbase]
    split
    · rename_i hlt
      have hone := ofDigits_concat base [] (worth (CodePoint.ofChar (Nat.digitChar n)))
      simpa [hworth n hlt] using hone
    · rename_i hle
      have hdiv : n / base < n := Nat.div_lt_self (by omega) hbase
      have hlast := hworth (n % base) (Nat.mod_lt n (by omega))
      rw [List.map_append, List.map_append, List.map_singleton, List.map_singleton,
        ofDigits_concat, ih _ hdiv, hlast]
      exact Nat.div_add_mod' n base

/-! ## Decimal digits -/

theorem isDigit_digitChar (h : d < 10) : (CodePoint.ofChar (Nat.digitChar d)).isDigit = true := by
  revert d
  decide

theorem val_digitChar (h : d < 10) : (CodePoint.ofChar (Nat.digitChar d)).val - 0x30 = d := by
  revert d
  decide

theorem isDigit_of_mem_ofNat {c : CodePoint} (h : c ∈ Text.ofNat n) : c.isDigit = true := by
  obtain ⟨digit, hdigit, rfl⟩ := List.mem_map.1 h
  obtain ⟨d, hd, rfl⟩ := exists_of_mem_toDigits (by decide) hdigit
  exact isDigit_digitChar hd

theorem ofNat_ne_nil (n : Nat) : Text.ofNat n ≠ [] := by
  rw [Text.ofNat, Ne, List.map_eq_nil_iff]
  exact Nat.toDigits_ne_nil

/-- A number in decimal digits is read back. -/
theorem ofDigits_ofNat (n : Nat) : ofDigits 10 ((Text.ofNat n).map fun c => c.val - 0x30) = n :=
  ofDigits_toDigits (by decide) (fun _ hd => val_digitChar hd) n

/-- Small numbers are those of few digits. -/
theorem length_ofNat_le_iff {k : Nat} (hk : 0 < k) : (Text.ofNat n).length ≤ k ↔ n < 10 ^ k := by
  rw [Text.ofNat, List.length_map]
  exact Nat.length_toDigits_le_iff (by decide) hk

/-- A power of ten has a digit more than its exponent says. -/
theorem length_ofNat_pow (k : Nat) : (Text.ofNat (Nat.pow 10 k)).length = k + 1 := by
  have hle : (Text.ofNat (Nat.pow 10 k)).length ≤ k + 1 :=
    (length_ofNat_le_iff k.succ_pos).2 (Nat.pow_lt_pow_succ (by decide))
  have hpos : 0 < (Text.ofNat (Nat.pow 10 k)).length := List.length_pos_of_ne_nil (ofNat_ne_nil _)
  have hlt : 0 < k → ¬ (Text.ofNat (Nat.pow 10 k)).length ≤ k := fun hk hfew =>
    Nat.lt_irrefl _ ((length_ofNat_le_iff hk).1 hfew)
  omega

/-- The numbers below the limit are those whose digits can be read. -/
theorem length_ofNat_le_maxDigits_iff :
    (Text.ofNat n).length ≤ Decimal.maxDigits ↔ n < Nat.pow 10 Decimal.maxDigits :=
  have hfew : ∀ k, 0 < k → ((Text.ofNat n).length ≤ k ↔ n < Nat.pow 10 k) :=
    fun _ hk => length_ofNat_le_iff hk
  hfew Decimal.maxDigits (by decide)

/-! ## Hexadecimal digits -/

theorem hexValue?_digitChar (h : d < 16) :
    (CodePoint.ofChar (Nat.digitChar d)).hexValue? = some d := by
  revert d
  decide

theorem isSome_hexValue?_of_mem_hexOfNat {c : CodePoint} (h : c ∈ Text.hexOfNat n) :
    c.hexValue?.isSome = true := by
  obtain ⟨digit, hdigit, rfl⟩ := List.mem_map.1 h
  obtain ⟨d, hd, rfl⟩ := exists_of_mem_toDigits (by decide) hdigit
  rw [hexValue?_digitChar hd]
  rfl

theorem hexOfNat_ne_nil (n : Nat) : Text.hexOfNat n ≠ [] := by
  rw [Text.hexOfNat, Ne, List.map_eq_nil_iff]
  exact Nat.toDigits_ne_nil

/-- A number in hexadecimal digits is read back. -/
theorem ofDigits_hexOfNat (n : Nat) :
    ofDigits 16 ((Text.hexOfNat n).map fun c => c.hexValue?.getD 0) = n :=
  ofDigits_toDigits (by decide) (fun _ hd => by rw [hexValue?_digitChar hd]; rfl) n

end ModuleDocs
