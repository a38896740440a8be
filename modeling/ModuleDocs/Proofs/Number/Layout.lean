import Mathlib
import ModuleDocs.Proofs.Number.Numeral
import ModuleDocs.Proofs.Number.Shortest
import ModuleDocs.Proofs.Text.Split

/-!
# Doubles are told apart by their texts

`Text.worth` reads digits with a point and an exponent.  A double that is laid out is worth its
digits, in positional form as in exponent form (`Shortest.Layout.worth_finite`), so that the text of
a double tells which number rounds to it, and with it the double (`Shortest.Layout.text_inj`).
-/

namespace ModuleDocs

/-! ## What a decimal is worth -/

namespace Text

variable {s t whole part : Text} {n k : Nat}

/-- The number that decimal digits write. -/
def decimal (t : Text) : Nat := ofDigits 10 (t.map fun c => c.val - 0x30)

theorem decimal_append (s t : Text) : decimal (s ++ t) = decimal s * 10 ^ t.length + decimal t := by
  unfold decimal
  rw [List.map_append, ofDigits_eq_foldl, ofDigits_eq_foldl, ofDigits_eq_foldl, List.foldl_append,
    foldl_digits, List.length_map, Nat.pow_eq]

theorem decimal_zeros (k : Nat) : decimal (List.replicate k '0') = 0 := by
  induction k with
  | zero => rfl
  | succ k ih =>
    rw [List.replicate_succ', decimal_append, ih]
    rfl

theorem decimal_zeros_append (k : Nat) (t : Text) :
    decimal ((List.replicate k '0' : Text) ++ t) = decimal t := by
  rw [decimal_append, decimal_zeros, Nat.zero_mul, Nat.zero_add]

theorem decimal_append_zeros (t : Text) (k : Nat) :
    decimal (t ++ (List.replicate k '0' : Text)) = decimal t * 10 ^ k := by
  rw [decimal_append, decimal_zeros, List.length_replicate, Nat.add_zero]

theorem decimal_ofNat (n : Nat) : decimal (ofNat n) = n := ofDigits_ofNat n

/-- Digits around a point. -/
def mantissa (t : Text) : ℚ :=
  match t.splitFirst? '.' with
  | some (whole, part) => decimal (whole ++ part) * 10 ^ (-(part.length : Int))
  | none => decimal t

/-- Digits behind a sign. -/
def exponent : Text → Int
  | [] => 0
  | sign :: digits => if sign = '-' then -decimal digits else decimal digits

/-- The number that a mantissa and an exponent stand for. -/
def worth (t : Text) : ℚ :=
  match t.splitFirst? 'e' with
  | some (front, back) => mantissa front * 10 ^ exponent back
  | none => mantissa t

/-- Digits, with a point somewhere among them or not. -/
def IsMantissa (t : Text) : Prop := ∀ c ∈ t, c.isDigit = true ∨ c = '.'

theorem worth_of_isMantissa (h : t.IsMantissa) : t.worth = t.mantissa := by
  have hnone : t.splitFirst? 'e' = none := splitFirst?_eq_none_iff.2 fun he => by
    rcases h _ he with hdigit | hpoint
    · exact absurd hdigit (by decide)
    · exact absurd hpoint (by decide)
  rw [worth, hnone]

theorem worth_scientific (h : s.IsMantissa) (t : Text) :
    (s ++ CodePoint.ofChar 'e' :: t).worth = s.mantissa * 10 ^ exponent t := by
  have hnot : CodePoint.ofChar 'e' ∉ s := fun he => by
    rcases h _ he with hdigit | hpoint
    · exact absurd hdigit (by decide)
    · exact absurd hpoint (by decide)
  rw [worth, splitFirst?_append_cons hnot]

theorem not_mem_of_digits (h : ∀ c ∈ t, c.isDigit = true) : CodePoint.ofChar '.' ∉ t :=
  fun hpoint => absurd (h _ hpoint) (by decide)

theorem mantissa_of_digits (h : ∀ c ∈ t, c.isDigit = true) : t.mantissa = decimal t := by
  rw [mantissa, splitFirst?_eq_none_iff.2 (not_mem_of_digits h)]

theorem mantissa_point (h : ∀ c ∈ whole, c.isDigit = true) (part : Text) :
    (whole ++ CodePoint.ofChar '.' :: part).mantissa
      = decimal (whole ++ part) * 10 ^ (-(part.length : Int)) := by
  rw [mantissa, splitFirst?_append_cons (not_mem_of_digits h)]

theorem isMantissa_point (hwhole : ∀ c ∈ whole, c.isDigit = true)
    (hpart : ∀ c ∈ part, c.isDigit = true) :
    (whole ++ CodePoint.ofChar '.' :: part).IsMantissa := by
  intro c hc
  rcases List.mem_append.1 hc with hc | hc
  · exact .inl (hwhole c hc)
  · rcases List.mem_cons.1 hc with rfl | hc
    · exact .inr rfl
    · exact .inl (hpart c hc)

theorem worth_point (hwhole : ∀ c ∈ whole, c.isDigit = true)
    (hpart : ∀ c ∈ part, c.isDigit = true) : (whole ++ CodePoint.ofChar '.' :: part).worth
      = decimal (whole ++ part) * 10 ^ (-(part.length : Int)) := by
  rw [worth_of_isMantissa (isMantissa_point hwhole hpart), mantissa_point hwhole]

theorem isDigit_of_mem_zeros {c : CodePoint} (h : c ∈ (List.replicate k '0' : Text)) :
    c.isDigit = true := by
  rw [List.eq_of_mem_replicate h]
  decide

theorem exponent_signed (e : Int) (k : Nat) :
    exponent ((if e < 0 then CodePoint.ofChar '-' else CodePoint.ofChar '+')
      :: ((List.replicate k '0' : Text) ++ ofNat e.natAbs)) = e := by
  rw [exponent, decimal_zeros_append, decimal_ofNat]
  by_cases he : e < 0
  · rw [if_pos he, if_pos rfl]
    omega
  · rw [if_neg he, if_neg (by decide)]
    omega

/-! ## Signs -/

/-- A text behind a minus sign or none. -/
def signed (negative : Bool) (t : Text) : Text :=
  if negative then CodePoint.ofChar '-' :: t else t

theorem signed_inj {negative negative' : Bool} (hs : ∀ c ∈ s.head?, c ≠ '-')
    (ht : ∀ c ∈ t.head?, c ≠ '-') (h : signed negative s = signed negative' t) :
    negative = negative' ∧ s = t := by
  cases negative <;> cases negative'
  · exact ⟨rfl, h⟩
  · subst h
    exact absurd rfl (hs _ rfl)
  · subst h
    exact absurd rfl (ht _ rfl)
  · exact ⟨rfl, (List.cons.inj h).2⟩

end Text

namespace Shortest.Layout

open Text

variable {l : Layout} {a b : UInt64} {digits : Text}

/-! ## The forms of a number -/

theorem zeroPoint_append (t : Text) :
    ofString "0." ++ t = [CodePoint.ofChar '0'] ++ CodePoint.ofChar '.' :: t := rfl

theorem append_pointZero (t : Text) :
    t ++ ofString ".0" = t ++ CodePoint.ofChar '.' :: (List.replicate 1 '0' : Text) := rfl

theorem exponentMark_eq (e : Int) : (if e < 0 then ofString "e-" else ofString "e+")
    = [CodePoint.ofChar 'e', if e < 0 then CodePoint.ofChar '-' else CodePoint.ofChar '+'] := by
  split <;> rfl

section Forms

variable (h : ∀ c ∈ digits, c.isDigit = true)
include h

/-- The point after the first digit, if there are others. -/
theorem mantissa_first (hpos : 0 < digits.length) :
    let front : Text :=
      digits.take 1 ++ if digits.length = 1 then [] else CodePoint.ofChar '.' :: digits.drop 1
    IsMantissa front ∧ mantissa front = decimal digits * 10 ^ (1 - (digits.length : Int)) := by
  dsimp only
  split
  · rename_i hone
    rw [List.append_nil, List.take_of_length_le hone.le, mantissa_of_digits h, hone]
    exact ⟨fun c hc => .inl (h c hc), by simp⟩
  · have htake : ∀ c ∈ digits.take 1, c.isDigit = true := fun c hc => h c (List.mem_of_mem_take hc)
    refine ⟨isMantissa_point htake fun c hc => h c (List.mem_of_mem_drop hc), ?_⟩
    rw [mantissa_point htake, List.take_append_drop, List.length_drop]
    congr 2
    omega

/-- Zeros between the point and the digits. -/
theorem worth_zeros_before (k : Nat) :
    (ofString "0." ++ (List.replicate k '0' : Text) ++ digits).worth
      = decimal digits * 10 ^ (-(k + digits.length : Int)) := by
  have hpart : ∀ c ∈ (List.replicate k '0' : Text) ++ digits, c.isDigit = true := by
    intro c hc
    rcases List.mem_append.1 hc with hc | hc
    · exact isDigit_of_mem_zeros hc
    · exact h c hc
  have hwhole : ∀ c ∈ [CodePoint.ofChar '0'], c.isDigit = true :=
    List.forall_mem_singleton.2 (by decide)
  have hzero := decimal_zeros_append 1 ((List.replicate k '0' : Text) ++ digits)
  rw [List.replicate_one] at hzero
  rw [List.append_assoc, zeroPoint_append, worth_point hwhole hpart, hzero, decimal_zeros_append,
    List.length_append, List.length_replicate, Nat.cast_add]

/-- Zeros between the digits and the point. -/
theorem worth_zeros_behind (k : Nat) :
    (digits ++ (List.replicate k '0' : Text) ++ ofString ".0").worth = decimal digits * 10 ^ k := by
  have hwhole : ∀ c ∈ digits ++ (List.replicate k '0' : Text), c.isDigit = true := by
    intro c hc
    rcases List.mem_append.1 hc with hc | hc
    · exact h c hc
    · exact isDigit_of_mem_zeros hc
  rw [append_pointZero, worth_point hwhole fun c hc => isDigit_of_mem_zeros hc,
    decimal_append_zeros, decimal_append_zeros, List.length_replicate]
  push_cast
  rw [zpow_neg]
  field_simp

/-- The point between two digits. -/
theorem worth_between {k : Nat} (hk : k ≤ digits.length) :
    worth (digits.take k ++ CodePoint.ofChar '.' :: digits.drop k)
      = decimal digits * 10 ^ ((k : Int) - digits.length) := by
  rw [worth_point (fun c hc => h c (List.mem_of_mem_take hc))
    (fun c hc => h c (List.mem_of_mem_drop hc)), List.take_append_drop, List.length_drop,
    Nat.cast_sub hk, neg_sub]

end Forms

/-- A number is laid out as what it is worth. -/
theorem worth_finite (l : Layout) (n : Nat) (e : Int) : (l.finite n e).worth = n * 10 ^ e := by
  have hdigits : ∀ c ∈ ofNat n, c.isDigit = true := fun c hc => isDigit_of_mem_ofNat hc
  have hworth := decimal_ofNat n
  have hpos : 0 < (ofNat n).length := List.length_pos_iff.2 (ofNat_ne_nil n)
  unfold finite
  generalize ofNat n = digits at *
  dsimp only
  split
  · obtain ⟨hmantissa, hvalue⟩ := mantissa_first hdigits hpos
    have hexponent := exponent_signed (digits.length + e - 1)
    rw [exponentMark_eq, List.append_assoc, List.append_assoc, List.cons_append,
      List.singleton_append, worth_scientific hmantissa, hvalue, hexponent, hworth, mul_assoc, ← zpow_add₀ (by norm_num)]
    congr 2
    omega
  · split
    · rw [worth_zeros_before hdigits, hworth]
      congr 2
      omega
    · split
      · rw [worth_zeros_behind hdigits, hworth, ← zpow_natCast]
        congr 2
        omega
      · rename_i hplaces hlt
        have hle : ((digits.length : Int) + e).toNat ≤ digits.length := by omega
        rw [worth_between hdigits hle, hworth]
        congr 2
        omega

/-! ## Texts of numbers -/

/-- The code points that numbers are written with. -/
def IsNumeric (c : CodePoint) : Prop := c.isDigit = true ∨ c = '.' ∨ c = 'e' ∨ c = '-' ∨ c = '+'

/-- Digits up to a point or an exponent. -/
def IsDecimal (t : Text) : Prop :=
  ∃ whole mark rest, t = whole ++ mark :: rest ∧ whole ≠ [] ∧ (∀ c ∈ whole, c.isDigit = true) ∧
    mark.isDigit = false ∧ IsNumeric mark ∧ ∀ c ∈ rest, IsNumeric c

theorem isNumeric_of_digits (h : ∀ c ∈ digits, c.isDigit = true) : ∀ c ∈ digits, IsNumeric c :=
  fun c hc => .inl (h c hc)

theorem isDecimal_point {whole part : Text} (hne : whole ≠ [])
    (hwhole : ∀ c ∈ whole, c.isDigit = true) (hpart : ∀ c ∈ part, IsNumeric c) :
    IsDecimal (whole ++ CodePoint.ofChar '.' :: part) :=
  ⟨whole, '.', part, rfl, hne, hwhole, by decide, .inr (.inl rfl), hpart⟩

theorem isDecimal_finite (l : Layout) (n : Nat) (e : Int) : IsDecimal (l.finite n e) := by
  have hdigits : ∀ c ∈ ofNat n, c.isDigit = true := fun c hc => isDigit_of_mem_ofNat hc
  have hne := ofNat_ne_nil n
  unfold finite
  generalize ofNat n = digits at *
  have htake : ∀ k, ∀ c ∈ digits.take k, c.isDigit = true :=
    fun k c hc => hdigits c (List.mem_of_mem_take hc)
  have hdrop : ∀ k, ∀ c ∈ digits.drop k, IsNumeric c :=
    fun k c hc => .inl (hdigits c (List.mem_of_mem_drop hc))
  have htake_ne : ∀ k, 0 < k → digits.take k ≠ [] := by
    intro k hk
    rw [Ne, List.take_eq_nil_iff, not_or]
    exact ⟨by omega, hne⟩
  have hzeros : ∀ k, ∀ c ∈ (List.replicate k '0' : Text), IsNumeric c :=
    fun k => isNumeric_of_digits fun c hc => isDigit_of_mem_zeros hc
  dsimp only
  split
  · generalize (digits.length : Int) + e - 1 = power
    rw [exponentMark_eq]
    have hpower : ∀ k, ∀ c ∈ (if power < 0 then CodePoint.ofChar '-' else CodePoint.ofChar '+')
        :: ((List.replicate k '0' : Text) ++ ofNat power.natAbs), IsNumeric c := by
      intro k
      refine List.forall_mem_cons.2 ⟨?_, List.forall_mem_append.2 ⟨hzeros k,
        isNumeric_of_digits fun c hc => isDigit_of_mem_ofNat hc⟩⟩
      split
      · exact .inr (.inr (.inr (.inl rfl)))
      · exact .inr (.inr (.inr (.inr rfl)))
    split
    · rw [List.append_nil, List.append_assoc, List.append_assoc]
      exact ⟨_, _, _, rfl, htake_ne 1 (by decide), htake 1, by decide, .inr (.inr (.inl rfl)),
        hpower _⟩
    · rw [List.append_assoc, List.append_assoc, List.append_assoc, List.cons_append]
      refine isDecimal_point (htake_ne 1 (by decide)) (htake 1)
        (List.forall_mem_append.2 ⟨hdrop 1, ?_⟩)
      exact List.forall_mem_cons.2 ⟨.inr (.inr (.inl rfl)), hpower _⟩
  · split
    · rw [List.append_assoc, zeroPoint_append]
      exact isDecimal_point (List.cons_ne_nil _ _) (List.forall_mem_singleton.2 (by decide))
        (List.forall_mem_append.2 ⟨hzeros _, isNumeric_of_digits hdigits⟩)
    · split
      · rw [append_pointZero]
        exact isDecimal_point (List.append_ne_nil_of_left_ne_nil hne _)
          (List.forall_mem_append.2 ⟨hdigits, fun c hc => isDigit_of_mem_zeros hc⟩) (hzeros 1)
      · exact isDecimal_point (htake_ne _ (by omega)) (htake _) (hdrop _)

theorem IsDecimal.head? {t : Text} (h : IsDecimal t) :
    ∃ c, t.head? = some c ∧ c.isDigit = true := by
  obtain ⟨whole, mark, rest, rfl, hne, hwhole, _⟩ := h
  obtain ⟨c, others, rfl⟩ := List.exists_cons_of_ne_nil hne
  exact ⟨c, rfl, hwhole c List.mem_cons_self⟩

theorem IsDecimal.forall_mem {t : Text} (h : IsDecimal t) : ∀ c ∈ t, IsNumeric c := by
  obtain ⟨whole, mark, rest, rfl, _, hwhole, _, hmark, hrest⟩ := h
  exact List.forall_mem_append.2
    ⟨isNumeric_of_digits hwhole, List.forall_mem_cons.2 ⟨hmark, hrest⟩⟩

/-! ## Texts of doubles -/

/-- The sign that is written. -/
def isNegative : Binary64.Value → Bool
  | .nan => false
  | .infinite negative => negative
  | .finite negative _ _ => negative

/-- What is written behind the sign. -/
def size (l : Layout) : Binary64.Value → Text
  | .nan => l.nan
  | .infinite _ => l.infinity
  | .finite _ m q =>
    if m = 0 then l.finite 0 0 else l.finite (Shortest.digits m q).1 (Shortest.digits m q).2

theorem text_eq (l : Layout) (bits : UInt64) : l.text bits =
    signed (isNegative (Binary64.classify bits)) (l.size (Binary64.classify bits)) := by
  unfold text
  cases Binary64.classify bits with
  | nan => rfl
  | infinite negative => cases negative <;> rfl
  | finite negative m q => cases negative <;> rfl

/-- The words of a layout are different and do not begin as numbers do. -/
structure IsClear (l : Layout) : Prop where
  nan : ∀ c ∈ (ofString l.nan).head?, c.isDigit = false ∧ c ≠ '-'
  infinity : ∀ c ∈ (ofString l.infinity).head?, c.isDigit = false ∧ c ≠ '-'
  different : ofString l.nan ≠ ofString l.infinity

theorem isDecimal_size (l : Layout) (negative : Bool) (m : Nat) (q : Int) :
    IsDecimal (l.size (.finite negative m q)) := by
  rw [size]
  split <;> exact isDecimal_finite _ _ _

theorem head?_size (hl : l.IsClear) (v : Binary64.Value) : ∀ c ∈ (l.size v).head?, c ≠ '-' := by
  intro c hc
  cases v with
  | nan => exact (hl.nan c hc).2
  | infinite negative => exact (hl.infinity c hc).2
  | finite negative m q =>
    obtain ⟨d, hd, hdigit⟩ := (isDecimal_size l negative m q).head?
    cases hd.symm.trans hc
    rintro rfl
    exact absurd hdigit (by decide)

theorem worth_zero (l : Layout) (negative : Bool) (q : Int) :
    (l.size (.finite negative 0 q)).worth = 0 := by
  rw [size, if_pos rfl, worth_finite, Nat.cast_zero, zero_mul]

/-- A number is worth something that rounds to it. -/
theorem contains_worth (l : Layout) (negative : Bool) {m : Nat} {q : Int} (hm : 0 < m)
    (hlt : m < 2 ^ 53) : (interval m q).Contains (l.size (.finite negative m q)).worth := by
  rw [size, if_neg hm.ne', worth_finite]
  exact contains_digits hm hlt

/-- The mantissa and the exponent of a number are known from its text. -/
theorem size_finite_inj {negative negative' : Bool} {m m' : Nat} {q q' : Int}
    (h : Binary64.IsFormat m q) (h' : Binary64.IsFormat m' q')
    (hsize : l.size (.finite negative m q) = l.size (.finite negative' m' q')) :
    m = m' ∧ q = q' := by
  have hworth := congrArg worth hsize
  rcases Nat.eq_zero_or_pos m with rfl | hm <;> rcases Nat.eq_zero_or_pos m' with rfl | hm'
  · have hq := h.normal
    have hq' := h'.normal
    exact ⟨rfl, by omega⟩
  · have hpos := (contains_worth l negative' hm' h'.lt (q := q')).pos hm'
    rw [← hworth, worth_zero] at hpos
    exact absurd hpos (lt_irrefl 0)
  · have hpos := (contains_worth l negative hm h.lt (q := q)).pos hm
    rw [hworth, worth_zero] at hpos
    exact absurd hpos (lt_irrefl 0)
  · exact eq_of_contains h h' hm hm' (contains_worth l negative hm h.lt)
      (hworth ▸ contains_worth l negative' hm' h'.lt)

/-- A word is no number. -/
theorem size_finite_ne {word : Text} (hword : ∀ c ∈ word.head?, c.isDigit = false ∧ c ≠ '-')
    (negative : Bool) (m : Nat) (q : Int) : l.size (.finite negative m q) ≠ word := by
  rintro rfl
  obtain ⟨c, hc, hdigit⟩ := (isDecimal_size l negative m q).head?
  rw [(hword c hc).1] at hdigit
  cases hdigit

/-- Doubles of one text are the same, or both are no number. -/
theorem text_inj (hl : l.IsClear) (h : l.text a = l.text b) :
    a = b ∨ Binary64.isNaN a = true ∧ Binary64.isNaN b = true := by
  rw [text_eq, text_eq] at h
  obtain ⟨hsign, hsize⟩ := signed_inj (head?_size hl _) (head?_size hl _) h
  cases ha : Binary64.classify a with
  | nan =>
    cases hb : Binary64.classify b with
    | nan => exact .inr ⟨decide_eq_true ha, decide_eq_true hb⟩
    | infinite negative =>
      rw [ha, hb] at hsize
      exact absurd hsize hl.different
    | finite negative m q =>
      rw [ha, hb] at hsize
      exact absurd hsize.symm (size_finite_ne hl.nan _ _ _)
  | infinite negative =>
    have hnan : Binary64.isNaN a = false := decide_eq_false (by rw [ha]; exact nofun)
    refine .inl (Binary64.eq_of_classify_eq ?_ hnan)
    cases hb : Binary64.classify b with
    | nan =>
      rw [ha, hb] at hsize
      exact absurd hsize.symm hl.different
    | infinite negative' =>
      rw [ha, hb] at hsign
      rw [ha, show negative = negative' from hsign]
    | finite negative m q =>
      rw [ha, hb] at hsize
      exact absurd hsize.symm (size_finite_ne hl.infinity _ _ _)
  | finite negative m q =>
    have hnan : Binary64.isNaN a = false := decide_eq_false (by rw [ha]; exact nofun)
    refine .inl (Binary64.eq_of_classify_eq ?_ hnan)
    cases hb : Binary64.classify b with
    | nan =>
      rw [ha, hb] at hsize
      exact absurd hsize (size_finite_ne hl.nan _ _ _)
    | infinite negative' =>
      rw [ha, hb] at hsize
      exact absurd hsize (size_finite_ne hl.infinity _ _ _)
    | finite negative' m' q' =>
      rw [ha, hb] at hsign hsize
      obtain ⟨hm, hq⟩ := size_finite_inj (Binary64.isFormat_of_classify ha)
        (Binary64.isFormat_of_classify hb) hsize
      rw [ha, show negative = negative' from hsign, hm, hq]

/-- A double is written as numbers are, or in the words for what is none. -/
theorem mem_text {c : CodePoint} (h : c ∈ l.text a) :
    IsNumeric c ∨ c ∈ ofString l.nan ∨ c ∈ ofString l.infinity := by
  rw [text_eq, signed] at h
  have hsize : c ∈ l.size (Binary64.classify a) →
      IsNumeric c ∨ c ∈ ofString l.nan ∨ c ∈ ofString l.infinity := by
    intro hc
    cases hclass : Binary64.classify a with
    | nan =>
      rw [hclass] at hc
      exact .inr (.inl hc)
    | infinite negative =>
      rw [hclass] at hc
      exact .inr (.inr hc)
    | finite negative m q =>
      rw [hclass] at hc
      exact .inl ((isDecimal_size l negative m q).forall_mem c hc)
  split at h
  · rcases List.mem_cons.1 h with rfl | hc
    · exact .inl (.inr (.inr (.inr (.inl rfl))))
    · exact hsize hc
  · exact hsize h

theorem text_ne_nil (hnan : ofString l.nan ≠ []) (hinfinity : ofString l.infinity ≠ []) :
    l.text a ≠ [] := by
  rw [text_eq, signed]
  split
  · exact List.cons_ne_nil _ _
  · cases Binary64.classify a with
    | nan => exact hnan
    | infinite negative => exact hinfinity
    | finite negative m q =>
      obtain ⟨c, hc, _⟩ := (isDecimal_size l negative m q).head?
      intro hnil
      rw [hnil] at hc
      cases hc

/-! ## Integers -/

theorem head?_ofNat (n : Nat) : ∀ c ∈ (ofNat n).head?, c ≠ '-' := by
  intro c hc hsign
  have hdigit := isDigit_of_mem_ofNat (List.mem_of_mem_head? hc)
  rw [hsign] at hdigit
  exact absurd hdigit (by decide)

theorem ofInt_eq (i : Int) : ofInt i = signed (i < 0) (ofNat i.natAbs) := by
  rw [ofInt, signed]
  simp only [decide_eq_true_eq]

theorem isNumeric_of_mem_ofInt {i : Int} {c : CodePoint} (hc : c ∈ ofInt i) : IsNumeric c := by
  rw [ofInt_eq, signed] at hc
  split at hc
  · rcases List.mem_cons.1 hc with rfl | hc
    · exact .inr (.inr (.inr (.inl rfl)))
    · exact .inl (isDigit_of_mem_ofNat hc)
  · exact .inl (isDigit_of_mem_ofNat hc)

theorem ofInt_inj {i j : Int} (h : ofInt i = ofInt j) : i = j := by
  rw [ofInt_eq, ofInt_eq] at h
  obtain ⟨hsign, hsize⟩ := signed_inj (head?_ofNat _) (head?_ofNat _) h
  have habs := congrArg decimal hsize
  rw [decimal_ofNat, decimal_ofNat] at habs
  rw [decide_eq_decide] at hsign
  omega

/-- A double is never written as an integer is. -/
theorem text_ne_ofInt (hl : l.IsClear) (bits : UInt64) (i : Int) : l.text bits ≠ ofInt i := by
  intro h
  rw [text_eq, ofInt_eq] at h
  obtain ⟨_, hsize⟩ := signed_inj (head?_size hl _) (head?_ofNat _) h
  have hdigits : ∀ c ∈ l.size (Binary64.classify bits), c.isDigit = true := by
    rw [hsize]
    exact fun c hc => isDigit_of_mem_ofNat hc
  have hword : ∀ word : Text, (∀ c ∈ word.head?, c.isDigit = false ∧ c ≠ '-') →
      l.size (Binary64.classify bits) ≠ word := by
    rintro word hword rfl
    obtain ⟨c, rest, hcons⟩ := List.exists_cons_of_ne_nil (hsize ▸ ofNat_ne_nil i.natAbs)
    have hdigit := hdigits c (hcons ▸ List.mem_cons_self)
    rw [(hword c (hcons ▸ rfl)).1] at hdigit
    cases hdigit
  cases hclass : Binary64.classify bits with
  | nan => exact hword _ hl.nan (hclass ▸ rfl)
  | infinite negative => exact hword _ hl.infinity (hclass ▸ rfl)
  | finite negative m q =>
    obtain ⟨whole, mark, rest, heq, _, _, hmark, _⟩ := isDecimal_size l negative m q
    have hdigit := hdigits mark (by
      rw [hclass, heq]
      simp)
    rw [hmark] at hdigit
    cases hdigit

end Shortest.Layout

end ModuleDocs
