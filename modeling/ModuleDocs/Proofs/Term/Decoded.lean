import Mathlib
import ModuleDocs.Proofs.Term.Fits
import ModuleDocs.Proofs.Text.Decoding

/-!
# What was read can be written again

Whatever bytes are read as a term, its maps are dictionaries and its sizes fit the numbers that
they are written on (`Term.gives_isDecoded`).  There is one exception.  The writer makes room for a
sign beside the digits of an integer, and so it takes a byte too many for those integers that are
minus a power of two just at the limit of their width.  The one of them that is as wide as a length
can say is read and not written (`Term.encode_of_isDecoded`).
-/

namespace ModuleDocs

open Decoder Result

/-! ## Integers -/

theorem natAbs_ofSignedLittleEndian_le {data : Bytes} {k : Nat} (hk : 0 < k)
    (h : data.length ≤ k) :
    (ofSignedLittleEndian data).natAbs ≤ 2 ^ (8 * k - 1) ∧
      ((ofSignedLittleEndian data).natAbs = 2 ^ (8 * k - 1) → ofSignedLittleEndian data < 0) := by
  have hsmall := ofLittleEndian_lt data
  have hrange : 256 ^ data.length ≤ 2 * 2 ^ (8 * k - 1) := by
    calc 256 ^ data.length ≤ 256 ^ k := Nat.pow_le_pow_right (by norm_num) h
      _ = 2 ^ (8 * k) := by rw [← shiftLeft_eight_mul, Nat.one_shiftLeft]
      _ = 2 ^ (8 * k - 1 + 1) := by rw [Nat.sub_add_cancel (by omega)]
      _ = 2 * 2 ^ (8 * k - 1) := pow_succ' 2 _
  unfold ofSignedLittleEndian
  dsimp only
  rw [shiftLeft_eight_mul]
  generalize 2 ^ (8 * k - 1) = half at *
  split <;> omega

/-- An integer that was read takes no more bytes than it was read from, or it is minus the power of
two at the limit of these. -/
theorem signedWidth_ofSignedLittleEndian {data : Bytes} {k : Nat} (hk : 0 < k)
    (h : data.length ≤ k) :
    signedWidth (ofSignedLittleEndian data) ≤ k ∨ ofSignedLittleEndian data = -2 ^ (8 * k - 1) := by
  obtain ⟨hle, hneg⟩ := natAbs_ofSignedLittleEndian_le hk h
  rcases hle.lt_or_eq with hlt | heq
  · have hwidth := signedWidth_le hlt
    exact Or.inl (by omega)
  · have hsign := hneg heq
    have habs : ((ofSignedLittleEndian data).natAbs : Int) = 2 ^ (8 * k - 1) := by
      rw [heq, Nat.cast_pow, Nat.cast_ofNat]
    exact Or.inr (by omega)

/-- Minus a power of two at the limit of a width takes one byte more. -/
theorem lt_signedWidth_neg_two_pow {k : Nat} (hk : 0 < k) :
    k < signedWidth (-2 ^ (8 * k - 1)) := by
  have habs : (-2 ^ (8 * k - 1) : Int).natAbs = 2 ^ (8 * k - 1) := by
    rw [Int.natAbs_neg, Int.natAbs_pow]
    rfl
  have hdigits : bitLength (2 ^ (8 * k - 1)) = 8 * k - 1 + 1 := by
    rw [bitLength, if_neg (by positivity), Nat.log2_two_pow]
  rw [signedWidth, habs, hdigits]
  omega

/-! ## Fields -/

/-- No more bytes are taken than were asked for. -/
theorem Reader.within_le (r : Reader) (n : Nat) : r.within n ≤ n := by
  unfold Reader.within Reader.bytesBefore
  split <;> split <;> omega

namespace Decoder

theorem gives_take (n : Nat) : Gives (take n) fun data => data.length ≤ n := by
  intro r s data hrun
  rw [take, run_bind_of_ok (run_get r)] at hrun
  split at hrun
  · cases hrun
  · rw [run_bind_of_ok (run_set r _)] at hrun
    cases hrun
    exact (List.length_take_le _ _).trans (r.within_le n)

theorem gives_number {width limit : Nat} (hlimit : 256 ^ width = limit + 1) :
    Gives (number width) fun n => n ≤ limit := by
  refine Gives.bind (P := fun data => data.length = width) ?_ fun data hlength => ?_
  · refine Gives.bind (Gives.any _) fun data _ => ?_
    split
    · exact Gives.pure ‹_›
    · exact Gives.throw _
  · have hsmall := ofLittleEndian_lt data
    rw [hlength] at hsmall
    exact Gives.pure (by omega)

theorem gives_blob : Gives blob fun data => data.length ≤ 0xFFFFFFFF :=
  Gives.bind (gives_number (by norm_num)) fun n hn r s data hrun =>
    (gives_take n r s data hrun).trans hn

/-- A text that is read is written on as many bytes. -/
theorem gives_utf8 (data : Bytes) : Gives (utf8 data) fun t =>
    Utf8.isEncodable t = true ∧ (Utf8.encodeAll t).length = data.length := by
  unfold utf8
  split
  · rename_i t hdecode
    obtain ⟨ht, hdata⟩ := Utf8.encode_eq_ok_iff.1 (Utf8.encode_of_decode hdecode)
    exact Gives.pure ⟨ht, by rw [← hdata]⟩
  · exact Gives.throw _

theorem gives_string {read : Decoder Bytes} {limit : Nat}
    (hread : Gives read fun data => data.length ≤ limit) :
    Gives (do utf8 (← read)) fun t =>
      Utf8.isEncodable t = true ∧ (Utf8.encodeAll t).length ≤ limit :=
  Gives.bind hread fun data hdata r s t hrun =>
    (gives_utf8 data r s t hrun).imp_right fun hlength => hlength.trans_le hdata

theorem gives_longString : Gives longString fun t =>
    Utf8.isEncodable t = true ∧ (Utf8.encodeAll t).length ≤ 0xFFFFFFFF := gives_string gives_blob

theorem gives_shortString : Gives shortString fun t =>
    Utf8.isEncodable t = true ∧ (Utf8.encodeAll t).length ≤ 0xFFFF := by
  have hread : Gives (do take (← number 2)) fun data => data.length ≤ 0xFFFF :=
    Gives.bind (gives_number (by norm_num)) fun n hn r s data hrun =>
      (gives_take n r s data hrun).trans hn
  have hstring := gives_string hread
  rwa [bind_assoc] at hstring

/-- As many values are read as were asked for. -/
theorem gives_length_repeatRead {α : Type} (d : Decoder α) (done : List α) (n : Nat) :
    Gives (repeatRead d done n) fun as => as.length = done.length + n := by
  induction n generalizing done with
  | zero => exact Gives.pure (by simp)
  | succ n ih =>
    refine Gives.bind (Gives.any d) fun a _ r s as hrun => ?_
    have hlength := ih (a :: done) r s as hrun
    rw [List.length_cons] at hlength
    omega

end Decoder

/-! ## Maps -/

namespace Items

theorem length_set_le (key value : Term) (items : Items) :
    (set key value items).length ≤ items.length + 1 := by
  induction items with
  | nil => exact le_refl 1
  | cons first rest ih =>
    rw [set]
    split
    · exact Nat.le_succ _
    · exact Nat.succ_le_succ ih

theorem length_update_le (items more : Items) :
    (update items more).length ≤ items.length + more.length := by
  induction more generalizing items with
  | nil => exact le_refl _
  | cons item more ih =>
    have hset := length_set_le item.1 item.2 items
    have hrest := ih (set item.1 item.2 items)
    rw [update_cons, List.length_cons]
    omega

theorem length_ofPairs_le (items : Items) : (ofPairs items).length ≤ items.length := by
  rw [ofPairs_eq_update]
  simpa using length_update_le [] items

end Items

namespace Term

/-! ## Terms -/

section

variable {P Q : Term → Prop}

mutual

/-- Two properties of all parts are one. -/
theorem Every.and : ∀ t : Term, Every P t → Every Q t → Every (fun t => P t ∧ Q t) t
  | .list items, hP, hQ => ⟨⟨hP.1, hQ.1⟩, EveryItem.and items hP.2 hQ.2⟩
  | .tuple items, hP, hQ => ⟨⟨hP.1, hQ.1⟩, EveryItem.and items hP.2 hQ.2⟩
  | .map items, hP, hQ => ⟨⟨hP.1, hQ.1⟩, EveryPair.and items hP.2 hQ.2⟩
  | .none, hP, hQ | .bool _, hP, hQ | .int _, hP, hQ | .float _, hP, hQ | .bytes _, hP, hQ
  | .text _, hP, hQ | .atom _, hP, hQ | .tagged _ _, hP, hQ | .funRef _ _, hP, hQ
  | .foreign _, hP, hQ => ⟨hP, hQ⟩

theorem EveryItem.and : ∀ items : List Term, EveryItem P items → EveryItem Q items →
    EveryItem (fun t => P t ∧ Q t) items
  | [], _, _ => trivial
  | t :: rest, hP, hQ => ⟨Every.and t hP.1 hQ.1, EveryItem.and rest hP.2 hQ.2⟩

theorem EveryPair.and : ∀ items : Items, EveryPair P items → EveryPair Q items →
    EveryPair (fun t => P t ∧ Q t) items
  | [], _, _ => trivial
  | (key, value) :: rest, hP, hQ => ⟨Every.and key hP.1 hQ.1, Every.and value hP.2.1 hQ.2.1,
      EveryPair.and rest hP.2.2 hQ.2.2⟩

end

end

/-- The least integer of which a length prefix can say how many bytes its two's complement takes. -/
def leastInt : Int := -2 ^ (8 * 0xFFFF - 1)

/-- A term as it comes out of bytes. -/
structure IsDecoded (t : Term) : Prop where
  value : t.IsValue
  fits : t.Every fun part => part.Fits ∨ part = .int leastInt

/-- Lists and tuples of what comes out of bytes do so too, if their length fits. -/
theorem everyItem_of_isDecoded {items : List Term} (h : ∀ t ∈ items, t.IsDecoded) :
    EveryItem (OnMaps Items.IsDict) items ∧
      EveryItem (fun part => part.Fits ∨ part = .int leastInt) items :=
  ⟨everyItem_iff.2 fun t ht => (h t ht).value, everyItem_iff.2 fun t ht => (h t ht).fits⟩

/-- Of items with equal keys one is left, so that there are no more than were read. -/
theorem isDecoded_ofPairs {items : Items} (hlength : items.length ≤ 0xFFFFFFFF)
    (h : ∀ item ∈ items, item.1.isHashable = true ∧ item.1.IsDecoded ∧ item.2.IsDecoded) :
    (Term.map (Items.ofPairs items)).IsDecoded := by
  have hitems := Items.forall_ofPairs (K := IsDecoded) (V := IsDecoded) fun item hitem => (h item hitem).2
  have hdict := Items.isDict_ofPairs fun item hitem => (h item hitem).1
  have hfits : (Items.ofPairs items).length ≤ 0xFFFFFFFF := (Items.length_ofPairs_le items).trans hlength
  exact ⟨⟨hdict, everyPair_iff.2 fun item hitem => (hitems item hitem).imp (·.value) (·.value)⟩,
    ⟨Or.inl hfits, everyPair_iff.2 fun item hitem => (hitems item hitem).imp (·.fits) (·.fits)⟩⟩

theorem gives_isDecoded (levels : Nat) : Gives (decodeWithin levels) IsDecoded := by
  induction levels with
  | zero => exact Gives.throw _
  | succ levels ih =>
    have hitem : Gives (decodeItem (decodeWithin levels)) fun item =>
        item.1.isHashable = true ∧ item.1.IsDecoded ∧ item.2.IsDecoded := by
      refine Gives.bind ih fun key hkey => Gives.bind ih fun value hvalue => ?_
      split
      · exact Gives.pure ⟨‹_›, hkey, hvalue⟩
      · exact Gives.throw _
    have hcount : Gives (number 4) fun n => n ≤ 0xFFFFFFFF := gives_number (by norm_num)
    refine Gives.bind (Gives.any _) fun tag _ => ?_
    split
    case h_1 | h_2 | h_3 => exact Gives.pure ⟨trivial, Or.inl trivial⟩
    case h_4 =>
      have hlimit : Gives (number 2) fun n => n ≤ 0xFFFF := gives_number (by norm_num)
      refine Gives.bind hlimit fun width hwidth => ?_
      refine Gives.bind (gives_take width) fun data hdata => Gives.pure ⟨trivial, ?_⟩
      exact (signedWidth_ofSignedLittleEndian (by norm_num) (hdata.trans hwidth)).imp_right
        fun hleast => congrArg Term.int hleast
    case h_5 => exact Gives.bind (Gives.any _) fun bits _ => Gives.pure ⟨trivial, Or.inl trivial⟩
    case h_6 => exact Gives.bind gives_blob fun data hdata => Gives.pure ⟨trivial, Or.inl hdata⟩
    case h_7 | h_8 =>
      exact Gives.bind gives_longString fun t ht => Gives.pure ⟨trivial, Or.inl ht⟩
    case h_9 =>
      refine Gives.bind gives_shortString fun encoding hname => Gives.bind gives_blob fun data hdata => ?_
      exact Gives.pure ⟨trivial, Or.inl ⟨hname, hdata⟩⟩
    case h_10 | h_11 =>
      refine Gives.bind hcount fun count hlimit => Gives.bind
        ((Gives.repeatRead ih (by simp) count).and (gives_length_repeatRead _ [] count))
        fun items hitems => Gives.pure ?_
      obtain ⟨hvalue, hfits⟩ := everyItem_of_isDecoded hitems.1
      have hlength : items.length ≤ 0xFFFFFFFF := by
        have := hitems.2
        rw [List.length_nil] at this
        omega
      exact ⟨⟨trivial, hvalue⟩, ⟨Or.inl hlength, hfits⟩⟩
    case h_12 =>
      refine Gives.bind hcount fun count hlimit => Gives.bind
        ((Gives.repeatRead hitem (by simp) count).and (gives_length_repeatRead _ [] count))
        fun items hitems => Gives.pure (isDecoded_ofPairs ?_ hitems.1)
      have := hitems.2
      rw [List.length_nil] at this
      omega
    case h_13 => exact Gives.bind (Gives.any _) fun _ _ => Gives.throw _

/-- What fits is another integer. -/
theorem Fits.ne_leastInt {part : Term} (h : part.Fits) : part ≠ .int leastInt := by
  rintro rfl
  exact absurd h (not_le.2 (lt_signedWidth_neg_two_pow (by norm_num)))

/-- What comes out of bytes is written again, unless it holds the one integer that takes too many
bytes. -/
theorem encode_of_isDecoded {t : Term} (h : t.IsDecoded) (hstorable : t.isStorable = true)
    (hnumbers : t.HasNoNaNKey) :
    (t.Every (· ≠ .int leastInt) ∧ ∃ data, t.encode = .ok data) ∨
      ¬ t.Every (· ≠ .int leastInt) ∧ t.encode = .error .lengthOutOfRange := by
  by_cases hleast : t.Every (· ≠ .int leastInt)
  · have hfits : t.Every Fits :=
      (Every.and t h.fits hleast).imp fun part hpart => hpart.1.resolve_right hpart.2
    exact Or.inl ⟨hleast, exists_encodeAt h.value hnumbers hfits (le_refl 0) hstorable⟩
  · have hsized : t.IsSized False True 0 := by
      refine ⟨h.value, hnumbers, h.fits.imp fun part hpart => ?_, Or.inr ⟨0, le_refl 0, hstorable⟩⟩
      exact hpart.imp_right fun hint => ⟨trivial, leastInt, hint⟩
    have hfails := (admits_failsOnly False True).encodeAt_failsWith t 0 hsized
    refine Or.inr ⟨hleast, ?_⟩
    cases hencode : t.encode with
    | ok data =>
      refine absurd ((every_isWritten t 0 data h.value hnumbers hencode).imp ?_) hleast
      rintro part hwritten rfl
      have hfits : (Term.int leastInt).Fits := hwritten.signedWidth_le
      exact hfits.ne_leastInt rfl
    | error e => rw [((hfails e hencode).resolve_left fun hdeep => hdeep.2).1]

end Term

end ModuleDocs
