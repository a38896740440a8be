import ModuleDocs.Number.Doubling
import ModuleDocs.Text.Basic

/-!
# Numbers as bytes, least significant first

`littleEndian width n` writes the low `8 * width` bits of `n`, and
`ofLittleEndian` reads bytes as a natural number.  Both work by halves, so that a
number of many thousand bytes is no trouble; `littleEndian_succ` and
`ofLittleEndian_cons` say what they do byte by byte.

Integers are written in two's complement with as few bytes as leave room for the
sign bit.
-/

namespace ModuleDocs

/-! ## Writing -/

/-- The low bytes of a number, `1 <<< k` of them. -/
def lowBytes : (k n : Nat) → Bytes
  | 0, n => [UInt8.ofNat n]
  | k + 1, n =>
    let bits := 8 * (1 <<< k)
    lowBytes k (n % (1 <<< bits)) ++ lowBytes k (n >>> bits)

/-- The `width` low bytes of a number. -/
def littleEndian (width n : Nat) : Bytes := (lowBytes (doublings width) n).take width

/-- A byte of the low bits of a number, when all of its bits are among them. -/
theorem ofNat_shiftRight_mod {i m : Nat} (n : Nat) (h : i < m) :
    UInt8.ofNat ((n % (1 <<< (8 * m))) >>> (8 * i)) = UInt8.ofNat (n >>> (8 * i)) := by
  apply UInt8.toNat_inj.1
  simp only [UInt8.toNat_ofNat']
  apply Nat.eq_of_testBit_eq
  intro j
  simp only [Nat.one_shiftLeft, Nat.testBit_mod_two_pow, Nat.testBit_shiftRight]
  by_cases hj : j < 8
  · simp [hj, show 8 * i + j < 8 * m by omega]
  · simp [hj]

theorem lowBytes_eq_map (k n : Nat) :
    lowBytes k n = (List.range (1 <<< k)).map fun i => UInt8.ofNat (n >>> (8 * i)) := by
  induction k generalizing n with
  | zero => simp [lowBytes]
  | succ k ih =>
    rw [lowBytes, ih, ih, shiftLeft_succ_eq_add, List.range_add, List.map_append, List.map_map]
    congr 1
    · refine List.map_congr_left fun i hi => ?_
      exact ofNat_shiftRight_mod n (List.mem_range.1 hi)
    · refine List.map_congr_left fun i _ => ?_
      simp only [Function.comp_apply]
      rw [← Nat.shiftRight_add, Nat.mul_add]

theorem littleEndian_eq_map (width n : Nat) :
    littleEndian width n = (List.range width).map fun i => UInt8.ofNat (n >>> (8 * i)) := by
  rw [littleEndian, lowBytes_eq_map, ← List.map_take, List.take_range,
    Nat.min_eq_left (le_shiftLeft_doublings width)]

@[simp] theorem length_littleEndian (width n : Nat) : (littleEndian width n).length = width := by
  simp [littleEndian_eq_map]

@[simp] theorem littleEndian_zero (n : Nat) : littleEndian 0 n = [] := by
  simp [littleEndian_eq_map]

/-- The lowest byte comes first. -/
theorem littleEndian_succ (width n : Nat) :
    littleEndian (width + 1) n = UInt8.ofNat n :: littleEndian width (n / 256) := by
  rw [littleEndian_eq_map, littleEndian_eq_map, List.range_succ_eq_map, List.map_cons,
    List.map_map]
  congr 1
  refine List.map_congr_left fun i _ => ?_
  simp only [Function.comp_apply]
  rw [show n / 256 = n >>> 8 from (Nat.shiftRight_eq_div_pow n 8).symm, ← Nat.shiftRight_add,
    show 8 * (i + 1) = 8 + 8 * i by omega]

/-! ## Reading -/

/-- The number that at most `1 <<< k` bytes write. -/
def ofLowBytes : (k : Nat) → Bytes → Nat
  | 0, data => (data.headD 0).toNat
  | k + 1, data =>
    let size := 1 <<< k
    ofLowBytes k (data.take size) + (ofLowBytes k (data.drop size) <<< (8 * size))

/-- The number that bytes write. -/
def ofLittleEndian (data : Bytes) : Nat := ofLowBytes (doublings data.length) data

theorem foldr_append (front back : Bytes) :
    (front ++ back).foldr (fun b n => b.toNat + 256 * n) 0
      = front.foldr (fun b n => b.toNat + 256 * n) 0
        + (back.foldr (fun b n => b.toNat + 256 * n) 0 <<< (8 * front.length)) := by
  induction front with
  | nil => simp
  | cons b front ih =>
    have split (x : Nat) :
        x <<< (8 * (front.length + 1)) = 256 * (x <<< (8 * front.length)) := by
      rw [Nat.mul_add, Nat.shiftLeft_add, Nat.shiftLeft_eq _ (8 * 1)]
      omega
    simp only [List.cons_append, List.foldr_cons, ih, List.length_cons, split]
    omega

theorem ofLowBytes_eq_foldr (k : Nat) (data : Bytes) (fits : data.length ≤ 1 <<< k) :
    ofLowBytes k data = data.foldr (fun b n => b.toNat + 256 * n) 0 := by
  induction k generalizing data with
  | zero =>
    cases data with
    | nil => rfl
    | cons b rest =>
      have none_left : rest = [] := List.length_eq_zero_iff.1 (by simpa using fits)
      subst none_left
      rfl
  | succ k ih =>
    have half := shiftLeft_succ_eq_add k
    rw [ofLowBytes, ih _ (by rw [List.length_take]; omega),
      ih _ (by rw [List.length_drop]; omega)]
    by_cases short : data.length ≤ 1 <<< k
    · rw [List.take_of_length_le short, List.drop_of_length_le short]
      simp
    · have split := foldr_append (data.take (1 <<< k)) (data.drop (1 <<< k))
      rw [List.take_append_drop, List.length_take, Nat.min_eq_left (by omega)] at split
      exact split.symm

theorem ofLittleEndian_eq_foldr (data : Bytes) :
    ofLittleEndian data = data.foldr (fun b n => b.toNat + 256 * n) 0 :=
  ofLowBytes_eq_foldr _ data (le_shiftLeft_doublings data.length)

@[simp] theorem ofLittleEndian_nil : ofLittleEndian [] = 0 := rfl

/-- The first byte is the lowest. -/
theorem ofLittleEndian_cons (b : UInt8) (data : Bytes) :
    ofLittleEndian (b :: data) = b.toNat + 256 * ofLittleEndian data := by
  simp [ofLittleEndian_eq_foldr]

/-! ## Two's complement -/

/-- The number of binary digits of a magnitude; zero has none. -/
def bitLength (n : Nat) : Nat := if n = 0 then 0 else Nat.log2 n + 1

/-- The number of bytes an integer takes in two's complement. -/
def signedWidth (i : Int) : Nat := max 1 ((bitLength i.natAbs + 8) / 8)

/-- An integer in two's complement on `width` bytes. -/
def signedLittleEndian (width : Nat) (i : Int) : Bytes :=
  littleEndian width (i % (1 <<< (8 * width) : Nat)).toNat

/-- The integer that bytes write in two's complement.  No byte at all is zero. -/
def ofSignedLittleEndian (data : Bytes) : Int :=
  let n := ofLittleEndian data
  let range := 1 <<< (8 * data.length)
  if 2 * n < range then n else (n : Int) - (range : Nat)

end ModuleDocs
