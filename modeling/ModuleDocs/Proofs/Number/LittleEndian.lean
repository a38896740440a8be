import Mathlib
import ModuleDocs.Number.LittleEndian

/-!
# Numbers that bytes write are read back

Little endian numbers are read back modulo the power of 256 that their width
allows, and integers in two's complement as they are, since `signedWidth`
leaves room for the sign.  Nothing here looks at the halves that the
definitions work by: every proof goes byte by byte.
-/

namespace ModuleDocs

/-- Reading gives back the low bytes of a number. -/
theorem ofLittleEndian_littleEndian (width n : Nat) :
    ofLittleEndian (littleEndian width n) = n % 256 ^ width := by
  induction width generalizing n with
  | zero => simp [Nat.mod_one]
  | succ width ih =>
    rw [littleEndian_succ, ofLittleEndian_cons, ih, pow_succ', Nat.mod_mul]
    simp

/-- A number that fits its width is read back. -/
theorem ofLittleEndian_littleEndian_of_lt {width n : Nat} (h : n < 256 ^ width) :
    ofLittleEndian (littleEndian width n) = n := by
  rw [ofLittleEndian_littleEndian, Nat.mod_eq_of_lt h]

/-- Bytes write less than the power of 256 that their number allows. -/
theorem ofLittleEndian_lt (data : Bytes) : ofLittleEndian data < 256 ^ data.length := by
  induction data with
  | nil => simp
  | cons b data ih =>
    have hb := b.toNat_lt
    rw [ofLittleEndian_cons, List.length_cons, pow_succ']
    omega

/-- The bytes of the number that bytes write are these bytes. -/
theorem littleEndian_ofLittleEndian (data : Bytes) :
    littleEndian data.length (ofLittleEndian data) = data := by
  induction data with
  | nil => simp
  | cons b data ih =>
    have hb := b.toNat_lt
    have hlow : UInt8.ofNat (b.toNat + 256 * ofLittleEndian data) = b := by
      apply UInt8.toNat_inj.1
      rw [UInt8.toNat_ofNat']
      omega
    have hrest : (b.toNat + 256 * ofLittleEndian data) / 256 = ofLittleEndian data := by omega
    rw [List.length_cons, ofLittleEndian_cons, littleEndian_succ, hlow, hrest, ih]

/-! ## Two's complement -/

theorem shiftLeft_eight_mul (width : Nat) : 1 <<< (8 * width) = 256 ^ width := by
  rw [Nat.one_shiftLeft, pow_mul]
  norm_num

/-- A magnitude is below the power of two of its number of digits. -/
theorem lt_two_pow_bitLength (n : Nat) : n < 2 ^ bitLength n := by
  unfold bitLength
  split
  · simp_all
  · exact Nat.lt_log2_self

/-- A magnitude below a power of two has no more digits than the exponent. -/
theorem bitLength_le {n k : Nat} (h : n < 2 ^ k) : bitLength n ≤ k := by
  unfold bitLength
  split
  · exact Nat.zero_le k
  · rename_i hn
    exact (Nat.log2_lt hn).2 h

/-- The width of an integer leaves room for a sign bit. -/
theorem two_mul_natAbs_lt (i : Int) : 2 * i.natAbs < 256 ^ signedWidth i := by
  have hdigits := lt_two_pow_bitLength i.natAbs
  have hwidth : bitLength i.natAbs + 1 ≤ 8 * signedWidth i := by
    unfold signedWidth
    omega
  calc 2 * i.natAbs < 2 * 2 ^ bitLength i.natAbs := by omega
    _ = 2 ^ (bitLength i.natAbs + 1) := by rw [pow_succ']
    _ ≤ 2 ^ (8 * signedWidth i) := Nat.pow_le_pow_right (by decide) hwidth
    _ = 256 ^ signedWidth i := by rw [← shiftLeft_eight_mul, Nat.one_shiftLeft]

/-- An integer is read back from as many bytes as leave room for its sign. -/
theorem ofSignedLittleEndian_signedLittleEndian {width : Nat} {i : Int}
    (h : 2 * i.natAbs < 256 ^ width) :
    ofSignedLittleEndian (signedLittleEndian width i) = i := by
  have hpos : 0 < 256 ^ width := by omega
  simp only [ofSignedLittleEndian, signedLittleEndian, length_littleEndian,
    shiftLeft_eight_mul, ofLittleEndian_littleEndian]
  generalize hrange : 256 ^ width = range at *
  have hlow : 0 ≤ i % (range : Int) := Int.emod_nonneg i (by omega)
  have hhigh : i % (range : Int) < range := Int.emod_lt_of_pos i (by omega)
  rw [Nat.mod_eq_of_lt (by omega)]
  rcases lt_or_ge i 0 with hneg | hnonneg
  · have hmod : i % (range : Int) = i + range := by
      rw [← Int.add_emod_right, Int.emod_eq_of_lt (by omega) (by omega)]
    rw [hmod, if_neg (by omega)]
    omega
  · rw [Int.emod_eq_of_lt hnonneg (by omega), if_pos (by omega)]
    omega

/-- A magnitude of few digits takes few bytes. -/
theorem signedWidth_le {i : Int} {k : Nat} (h : i.natAbs < 2 ^ k) :
    signedWidth i ≤ k / 8 + 1 := by
  have := bitLength_le h
  unfold signedWidth
  omega

end ModuleDocs
