import ModuleDocs.Number.Doubling

/-!
# Numbers as digits, most significant first

`ofDigits base digits` is the number that digits write.  It works by halves, so that a
number of many thousand digits is no trouble; `ofDigits_eq_foldl` says what it does
digit by digit.
-/

namespace ModuleDocs

/-- The number that at most `1 <<< k` digits write. -/
def ofFewDigits (base : Nat) : (k : Nat) → List Nat → Nat
  | 0, digits => digits.headD 0
  | k + 1, digits =>
    let size := 1 <<< k
    if digits.length ≤ size then ofFewDigits base k digits
    else
      ofFewDigits base k (digits.take (digits.length - size)) * Nat.pow base size
        + ofFewDigits base k (digits.drop (digits.length - size))

/-- The number that digits write. -/
def ofDigits (base : Nat) (digits : List Nat) : Nat :=
  ofFewDigits base (doublings digits.length) digits

/-- Digits behind a number move it up by their places. -/
theorem foldl_digits (base : Nat) (digits : List Nat) (value : Nat) :
    digits.foldl (fun n d => n * base + d) value
      = value * Nat.pow base digits.length + digits.foldl (fun n d => n * base + d) 0 := by
  induction digits generalizing value with
  | nil => simp
  | cons d digits ih =>
    rw [List.foldl_cons, List.foldl_cons, ih, ih (0 * base + d), List.length_cons]
    have up : Nat.pow base (digits.length + 1) = base * Nat.pow base digits.length :=
      Nat.mul_comm _ _
    rw [up, Nat.add_mul, Nat.mul_assoc]
    simp only [Nat.zero_mul, Nat.zero_add]
    omega

theorem ofFewDigits_eq_foldl (base k : Nat) (digits : List Nat)
    (fits : digits.length ≤ 1 <<< k) :
    ofFewDigits base k digits = digits.foldl (fun n d => n * base + d) 0 := by
  induction k generalizing digits with
  | zero =>
    cases digits with
    | nil => rfl
    | cons d rest =>
      have none_left : rest = [] := List.length_eq_zero_iff.1 (by simpa using fits)
      subst none_left
      simp [ofFewDigits]
  | succ k ih =>
    have half := shiftLeft_succ_eq_add k
    rw [ofFewDigits]
    split
    · rename_i short
      exact ih _ short
    · rename_i long
      rw [ih _ (by rw [List.length_take]; omega), ih _ (by rw [List.length_drop]; omega)]
      have split := foldl_digits base (digits.drop (digits.length - 1 <<< k))
        ((digits.take (digits.length - 1 <<< k)).foldl (fun n d => n * base + d) 0)
      rw [← List.foldl_append, List.take_append_drop, List.length_drop,
        show digits.length - (digits.length - 1 <<< k) = 1 <<< k by omega] at split
      exact split.symm

/-- Each digit multiplies what stands before it by the base. -/
theorem ofDigits_eq_foldl (base : Nat) (digits : List Nat) :
    ofDigits base digits = digits.foldl (fun n d => n * base + d) 0 :=
  ofFewDigits_eq_foldl _ _ _ (le_shiftLeft_doublings digits.length)

@[simp] theorem ofDigits_nil (base : Nat) : ofDigits base [] = 0 := rfl

/-- The last digit is the lowest. -/
theorem ofDigits_concat (base : Nat) (digits : List Nat) (d : Nat) :
    ofDigits base (digits ++ [d]) = ofDigits base digits * base + d := by
  simp [ofDigits_eq_foldl]

end ModuleDocs
