import Mathlib
import ModuleDocs.Number.Shortest
import ModuleDocs.Proofs.Number.Binary64

/-!
# The digits of a double round to it

The reals that round to one double form an interval, and the intervals of different doubles share no
point: where two of them meet, one of the mantissas is odd and its interval open
(`Shortest.eq_of_contains`).  The digits that are searched for lie in the interval
(`Shortest.contains_digits`), because the finest of the grids that are tried has steps smaller than
half of it.  So the digits of different doubles are different numbers.
-/

namespace ModuleDocs

namespace Shortest

/-! ## Intervals -/

/-- A power is that of the positive part of its exponent, divided by that of the negative one. -/
theorem zpow_mul_pow_toNat {base : ℚ} (hbase : base ≠ 0) (e : Int) :
    base ^ e * base ^ (-e).toNat = base ^ e.toNat := by
  rw [← zpow_natCast, ← zpow_natCast, ← zpow_add₀ hbase]
  congr 1
  omega

namespace Interval

variable {i : Interval} {x : ℚ} {n d : Nat} {e : Int}

/-- What the numbers of an interval count. -/
def unit (i : Interval) : ℚ := i.num / i.den

/-- The interval, as one of reals, contains the number. -/
@[mk_iff]
structure Contains (i : Interval) (x : ℚ) : Prop where
  low_le : i.low * i.unit ≤ x
  le_high : x ≤ i.high * i.unit
  closed : x = i.low * i.unit ∨ x = i.high * i.unit → i.closed = true

/-- The interval has positive units and goes at least one below and above its value. -/
structure IsAround (i : Interval) : Prop where
  num : 0 < i.num
  den : 0 < i.den
  low_lt : i.low < i.value
  lt_high : i.value < i.high

theorem IsAround.unit_pos (h : i.IsAround) : 0 < i.unit := by
  have hnum := h.num
  have hden := h.den
  unfold unit
  positivity

/-! ### Points of decimal grids

Multiplied by `scale`, units and the points of a grid are natural numbers, those that `holds` and
`below` compute with. -/

/-- A common denominator of the units and the points of a grid. -/
def scale (i : Interval) (e : Int) : ℚ := i.den * 10 ^ (-e).toNat

theorem scale_pos (hden : 0 < i.den) (e : Int) : 0 < i.scale e := by
  unfold scale
  positivity

theorem units_mul_scale (hden : 0 < i.den) (bound : Nat) (e : Int) :
    bound * i.unit * i.scale e = ((bound * (10 ^ (-e).toNat * i.num) : Nat) : ℚ) := by
  unfold unit scale
  push_cast
  field_simp

theorem point_mul_scale (i : Interval) (n : Nat) (e : Int) :
    n * 10 ^ e * i.scale e = ((n * 10 ^ e.toNat * i.den : Nat) : ℚ) := by
  unfold scale
  push_cast
  rw [← zpow_mul_pow_toNat (by norm_num) e]
  ring

theorem units_le_point_iff (hden : 0 < i.den) (bound n : Nat) (e : Int) :
    bound * i.unit ≤ n * 10 ^ e ↔
      bound * (10 ^ (-e).toNat * i.num) ≤ n * 10 ^ e.toNat * i.den := by
  rw [← mul_le_mul_iff_of_pos_right (scale_pos hden e), units_mul_scale hden, point_mul_scale,
    Nat.cast_le]

theorem point_le_units_iff (hden : 0 < i.den) (bound n : Nat) (e : Int) :
    n * 10 ^ e ≤ bound * i.unit ↔
      n * 10 ^ e.toNat * i.den ≤ bound * (10 ^ (-e).toNat * i.num) := by
  rw [← mul_le_mul_iff_of_pos_right (scale_pos hden e), units_mul_scale hden, point_mul_scale,
    Nat.cast_le]

theorem holds_iff (hden : 0 < i.den) : i.holds n e = true ↔ i.Contains (n * 10 ^ e) := by
  have hends : ∀ bound : Nat, n * (10 : ℚ) ^ e = bound * i.unit ↔
      n * 10 ^ e.toNat * i.den = bound * (10 ^ (-e).toNat * i.num) := by
    intro bound
    rw [le_antisymm_iff, point_le_units_iff hden, units_le_point_iff hden, le_antisymm_iff]
  rw [contains_iff, units_le_point_iff hden, point_le_units_iff hden, hends, hends]
  unfold holds
  simp only [Nat.pow_eq]
  cases i.closed with
  | true => simp
  | false =>
    simp only [Bool.false_eq_true, if_false, imp_false, not_or, Bool.and_eq_true,
      decide_eq_true_eq]
    omega

/-- The grid point below the value is within one step of it. -/
theorem below_le (hden : 0 < i.den) : (i.below e).1 * 10 ^ e ≤ i.value * i.unit ∧
    i.value * i.unit < ((i.below e).1 + 1) * 10 ^ e := by
  have hstep : 0 < i.den * 10 ^ e.toNat := by positivity
  have hbelow : (i.below e).1 = i.value * i.num * 10 ^ (-e).toNat / (i.den * 10 ^ e.toNat) := rfl
  have hnum : i.value * (10 ^ (-e).toNat * i.num) = i.value * i.num * 10 ^ (-e).toNat := by ring
  constructor
  · rw [point_le_units_iff hden, hnum, mul_assoc, mul_comm _ i.den, hbelow]
    exact Nat.div_mul_le_self _ _
  · rw [← Nat.cast_succ, ← not_le, point_le_units_iff hden, hnum, mul_assoc, mul_comm _ i.den,
      hbelow, not_le]
    exact (Nat.div_lt_iff_lt_mul hstep).1 (Nat.lt_succ_self _)

/-- A grid of steps not above one unit has a point in the interval. -/
theorem holds_below (h : i.IsAround) (he : 10 ^ e ≤ i.unit) :
    i.holds (i.below e).1 e = true := by
  obtain ⟨hle, hlt⟩ := below_le (e := e) h.den
  have hunit := h.unit_pos
  have hlow : (i.low : ℚ) + 1 ≤ i.value := mod_cast h.low_lt
  have hhigh : (i.value : ℚ) + 1 ≤ i.high := mod_cast h.lt_high
  have hpoint : i.low * i.unit < (i.below e).1 * 10 ^ e := by nlinarith
  have hend : (i.below e).1 * 10 ^ e < i.high * i.unit := by nlinarith
  refine (holds_iff h.den).2 ⟨hpoint.le, hend.le, ?_⟩
  rintro (heq | heq)
  · exact absurd heq hpoint.ne'
  · exact absurd heq hend.ne

/-! ### The search -/

theorem holds_of_onGrid? (h : i.onGrid? e = some n) : i.holds n e = true := by
  unfold onGrid? at h
  generalize i.below e = point at h
  obtain ⟨d, side⟩ := point
  dsimp only at h
  cases hd : i.holds d e <;> cases hnext : i.holds (d + 1) e <;> simp only [hd, hnext] at h
  · cases h
  · cases h
    exact hnext
  · cases h
    exact hd
  · cases side with
    | lt =>
      cases h
      exact hd
    | eq =>
      cases h
      split
      · exact hd
      · exact hnext
    | gt =>
      cases h
      exact hnext

theorem exists_onGrid? (h : i.holds (i.below e).1 e = true) : ∃ n, i.onGrid? e = some n := by
  unfold onGrid?
  generalize i.below e = point at h
  obtain ⟨d, side⟩ := point
  dsimp only at h ⊢
  rw [h]
  cases i.holds (d + 1) e with
  | true => cases side <;> exact ⟨_, rfl⟩
  | false => exact ⟨_, rfl⟩

/-- What is found lies in the interval, if the last of the grids has steps not above one unit. -/
theorem holds_search (h : i.IsAround) (grids : Nat) :
    ∀ e : Int, 10 ^ (e - grids) ≤ i.unit →
      i.holds (i.search e (grids + 1)).1 (i.search e (grids + 1)).2 = true := by
  induction grids with
  | zero =>
    intro e he
    rw [Nat.cast_zero, sub_zero] at he
    obtain ⟨n, hn⟩ := exists_onGrid? (holds_below h he)
    rw [search, hn]
    exact holds_of_onGrid? hn
  | succ grids ih =>
    intro e he
    rw [search]
    cases hn : i.onGrid? e with
    | some n => exact holds_of_onGrid? hn
    | none =>
      refine ih (e - 1) ?_
      rwa [sub_sub, add_comm (1 : Int), ← Nat.cast_succ]

theorem lt_pow_length_toDigits (n : Nat) : n < 10 ^ (Nat.toDigits 10 n).length :=
  (Nat.length_toDigits_le_iff (by decide) Nat.length_toDigits_pos).1 le_rfl

theorem pow_length_toDigits_le (hn : 0 < n) : 10 ^ ((Nat.toDigits 10 n).length - 1) ≤ n := by
  by_contra hlt
  rw [not_le] at hlt
  by_cases hone : (Nat.toDigits 10 n).length = 1
  · rw [hone] at hlt
    omega
  · have hpos : 0 < (Nat.toDigits 10 n).length := Nat.length_toDigits_pos
    have hle := (Nat.length_toDigits_le_iff (by decide) (by omega)).2 hlt
    omega

/-- The value has at least as many places as are counted. -/
theorem zpow_places_le (hvalue : 0 < i.value * i.num) (hden : 0 < i.den) :
    10 ^ (i.places - 1) ≤ i.value * i.unit := by
  have hunits : i.value * i.unit = (i.value * i.num : Nat) / (i.den : ℚ) := by
    unfold unit
    push_cast
    ring
  rw [hunits]
  unfold places
  generalize i.value * i.num = num at hvalue
  dsimp only
  split
  · rename_i hle
    have hpos : 0 < (Nat.toDigits 10 (num / i.den)).length := Nat.length_toDigits_pos
    have hexp : ((Nat.toDigits 10 (num / i.den)).length : Int) - 1
        = ((Nat.toDigits 10 (num / i.den)).length - 1 : Nat) := by omega
    rw [hexp, zpow_natCast]
    calc (10 : ℚ) ^ ((Nat.toDigits 10 (num / i.den)).length - 1)
      _ ≤ (num / i.den : Nat) := mod_cast pow_length_toDigits_le (Nat.div_pos hle hden)
      _ ≤ num / i.den := Nat.cast_div_le
  · -- The places count the zeros of the rounded up reciprocal, less one for a power of ten.
    have hceil := Nat.lt_mul_div_succ (i.den + num - 1) hvalue
    have hlt := lt_pow_length_toDigits ((i.den + num - 1) / num - 1)
    generalize (i.den + num - 1) / num = ceil at hceil hlt
    generalize (Nat.toDigits 10 (ceil - 1)).length = zeros at hlt
    have hden_le : i.den ≤ num * 10 ^ zeros := by
      calc i.den ≤ num * ceil := by
            rw [Nat.mul_succ] at hceil
            omega
        _ ≤ num * 10 ^ zeros := Nat.mul_le_mul_left num (by omega)
    rw [show (1 : Int) - zeros - 1 = -zeros by omega, zpow_neg, zpow_natCast,
      le_div_iff₀ (mod_cast hden), inv_mul_le_iff₀ (by positivity), mul_comm]
    exact_mod_cast hden_le

/-- Two intervals with a common point overlap, and if just their ends meet, both are closed. -/
theorem Contains.meet {j : Interval} {k : Nat} (hi : i.Contains x) (hj : j.Contains x)
    (hpos : 0 < i.unit) (hunit : j.unit = 2 ^ k * i.unit) : j.low * 2 ^ k ≤ i.high ∧
      (j.low * 2 ^ k = i.high → i.closed = true ∧ j.closed = true) := by
  have hlow : j.low * j.unit = (j.low * 2 ^ k : Nat) * i.unit := by
    rw [hunit]
    push_cast
    ring
  constructor
  · have hle := hj.low_le.trans hi.le_high
    rw [hlow, mul_le_mul_iff_of_pos_right hpos] at hle
    exact_mod_cast hle
  · intro heq
    rw [heq] at hlow
    have hx : x = i.high * i.unit := le_antisymm hi.le_high (hlow ▸ hj.low_le)
    exact ⟨hi.closed (.inr hx), hj.closed (.inl (hx.trans hlow.symm))⟩

end Interval

/-! ## The intervals of doubles -/

variable {m m' : Nat} {q q' : Int} {x : ℚ}

theorem unit_interval (m : Nat) (q : Int) : (interval m q).unit = 2 ^ (q - 2) := by
  have hpow := zpow_mul_pow_toNat (two_ne_zero : (2 : ℚ) ≠ 0) (q - 2)
  rw [neg_sub] at hpow
  rw [Interval.unit, interval]
  push_cast [Nat.one_shiftLeft]
  rw [← hpow]
  field_simp

theorem isAround_interval (hm : 0 < m) : (interval m q).IsAround where
  num := by
    simp [interval, Nat.one_shiftLeft]
  den := by
    simp [interval, Nat.one_shiftLeft]
  low_lt := by
    dsimp only [interval]
    split <;> omega
  lt_high := by
    dsimp only [interval]
    omega

theorem le_low_interval (m : Nat) (q : Int) : 4 * m - 2 ≤ (interval m q).low := by
  dsimp only [interval]
  split <;> omega

theorem closed_interval : (interval m q).closed = true ↔ m % 2 = 0 := decide_eq_true_iff

theorem Interval.Contains.pos (h : (interval m q).Contains x) (hm : 0 < m) : 0 < x := by
  have hlow : 0 < (interval m q).low := lt_of_lt_of_le (by omega) (le_low_interval m q)
  have hunit := (isAround_interval (q := q) hm).unit_pos
  exact lt_of_lt_of_le (by positivity) h.low_le

/-- Eighteen grids are enough, since the mantissas are below `2 ^ 53`. -/
theorem holds_search_interval (hm : 0 < m) (hlt : m < 2 ^ 53) (e : Int)
    (he : e = (interval m q).places - 1) :
    (interval m q).holds ((interval m q).search e 18).1 ((interval m q).search e 18).2 = true := by
  have haround := isAround_interval (q := q) hm
  have hunit := haround.unit_pos
  have hvalue : (interval m q).value = 4 * m := rfl
  have hplaces := Interval.zpow_places_le (i := interval m q)
    (Nat.mul_pos (by omega) haround.num) haround.den
  refine Interval.holds_search haround 17 e ?_
  rw [he, zpow_sub₀ (by norm_num), div_le_iff₀ (by positivity)]
  refine hplaces.trans ?_
  rw [hvalue, mul_comm]
  have hbound : ((4 * m : Nat) : ℚ) ≤ 10 ^ (17 : ℤ) := by
    have : 4 * m ≤ 10 ^ 17 := by omega
    exact_mod_cast this
  exact mul_le_mul_of_nonneg_left hbound hunit.le

theorem dropZeros_eq (fuel n : Nat) (e : Int) :
    (dropZeros n e fuel).1 * (10 : ℚ) ^ (dropZeros n e fuel).2 = n * 10 ^ e := by
  induction fuel generalizing n e with
  | zero => rfl
  | succ fuel ih =>
    rw [dropZeros]
    split
    · rename_i hzero
      have hn : (n : ℚ) = (n / 10 : Nat) * 10 := by
        exact_mod_cast (Nat.div_mul_cancel (Nat.dvd_of_mod_eq_zero hzero.1)).symm
      rw [ih, hn, zpow_add₀ (by norm_num), zpow_one]
      ring
    · rfl

/-- The digits of a double round to it. -/
theorem contains_digits (hm : 0 < m) (hlt : m < 2 ^ 53) :
    (interval m q).Contains ((digits m q).1 * 10 ^ (digits m q).2) := by
  have hholds := holds_search_interval (q := q) hm hlt _ rfl
  unfold digits
  dsimp only
  rw [dropZeros_eq]
  exact (Interval.holds_iff (isAround_interval hm).den).1 hholds

/-- No number rounds to two doubles. -/
theorem eq_of_contains (h : Binary64.IsFormat m q) (h' : Binary64.IsFormat m' q') (hm : 0 < m)
    (hm' : 0 < m') (hx : (interval m q).Contains x) (hx' : (interval m' q').Contains x) :
    m = m' ∧ q = q' := by
  wlog hq : q ≤ q' generalizing m m' q q'
  · obtain ⟨hm, hq⟩ := this h' h hm' hm hx' hx (by omega)
    exact ⟨hm.symm, hq.symm⟩
  have hunit : (interval m' q').unit = 2 ^ (q' - q).toNat * (interval m q).unit := by
    rw [unit_interval, unit_interval, ← zpow_natCast, ← zpow_add₀ two_ne_zero]
    congr 1
    omega
  obtain ⟨hle, hclosed⟩ := hx.meet hx' (isAround_interval hm).unit_pos hunit
  rw [closed_interval, closed_interval] at hclosed
  have hhigh : (interval m q).high = 4 * m + 2 := rfl
  have hhigh' : (interval m' q').high = 4 * m' + 2 := rfl
  have hlow := le_low_interval m q
  have hlow' := le_low_interval m' q'
  obtain rfl | hne := eq_or_lt_of_le hq
  · -- Intervals of one size: neighbours meet in their ends, and one of two neighbours is odd.
    have hunit : (interval m q).unit = 2 ^ 0 * (interval m' q).unit := by
      rw [unit_interval, unit_interval, pow_zero, one_mul]
    obtain ⟨hle', hclosed'⟩ := hx'.meet hx (isAround_interval hm').unit_pos hunit
    rw [closed_interval, closed_interval] at hclosed'
    rw [sub_self, Int.toNat_zero] at hle hclosed
    exact ⟨by omega, rfl⟩
  · -- The greater number is normal, and its interval is above all of the lesser exponent.
    exfalso
    have hlt := h.lt
    have hleast := h.le
    have hnormal : 2 ^ 52 ≤ m' := h'.normal.resolve_left (by omega)
    have hlow : 4 * 2 ^ 52 - 1 ≤ (interval m' q').low := by
      have hfractions : Binary64.fractions = 2 ^ 52 := rfl
      dsimp only [interval]
      split <;> omega
    have hstep : 2 ≤ 2 ^ (q' - q).toNat := Nat.le_self_pow (by omega) 2
    have htwice : (interval m' q').low * 2 ≤ (interval m' q').low * 2 ^ (q' - q).toNat :=
      Nat.mul_le_mul_left _ hstep
    obtain ⟨heven, _⟩ := hclosed (by omega)
    omega

end Shortest

end ModuleDocs
