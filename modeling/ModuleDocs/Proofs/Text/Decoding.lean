import Mathlib
import ModuleDocs.Proofs.Text.Utf8

/-!
# What was read as UTF-8 is written again

`Utf8.encode_of_decode` is the other direction of `Utf8.decode_of_encode`: the bytes that are
read as a text are the bytes of that text.  No sequence is read that is longer than its code
point needs, and no surrogate.

The automaton is turned round one sequence at a time (`exists_point_of_spells`): from the first
byte follows how many more there are and what lies in them.
-/

namespace ModuleDocs.Utf8

/-! ## Pieces that are all code points -/

theorem piecesFrom_eq_append (pos : Nat) (state : Option Pending) (done : List Piece)
    (data : Bytes) : piecesFrom pos state done data = done.reverse ++ piecesFrom pos state [] data := by
  induction data generalizing pos state done with
  | nil => cases state <;> simp [piecesFrom]
  | cons b rest ih =>
    unfold piecesFrom
    dsimp only
    split
    · split
      · split
        · rw [ih, ih _ _ [_]]
          simp
        · exact ih _ _ done
      · split
        · rw [ih, ih _ _ [_, _]]
          simp
        · rw [ih, ih _ _ [_]]
          simp
    · split
      · rw [ih, ih _ _ [_]]
        simp
      · exact ih _ _ done

/-- Pieces are collected if they are all code points. -/
theorem exists_of_collect {data : Bytes} {done t : Text} {parts : List Piece}
    (h : collect data done parts = .ok t) :
    ∃ more, t = done.reverse ++ more ∧ parts = more.map .point := by
  induction parts generalizing done with
  | nil =>
    cases h
    exact ⟨[], (List.append_nil _).symm, rfl⟩
  | cons part rest ih =>
    cases part with
    | point c =>
      obtain ⟨more, rfl, rfl⟩ := ih h
      exact ⟨c :: more, by simp, rfl⟩
    | bad start stop fault => cases h

/-- Read on from a state of the automaton, the bytes are the code points of the text. -/
def Spells (pos : Nat) (state : Option Pending) (data : Bytes) (t : Text) : Prop :=
  piecesFrom pos state [] data = t.map .point

theorem spells_of_decode {data : Bytes} {t : Text} (h : decode data = .ok t) :
    Spells 0 none data t := by
  obtain ⟨more, rfl, hparts⟩ := exists_of_collect h
  exact hparts

section Inversion

variable {pos start value left low high : Nat} {b : UInt8} {rest data : Bytes} {t : Text}

/-- The first piece is the first code point. -/
theorem exists_of_spells_cons {c : CodePoint} {state : Option Pending}
    (h : piecesFrom pos state [.point c] data = t.map .point) :
    ∃ more, t = c :: more ∧ Spells pos state data more := by
  rw [piecesFrom_eq_append] at h
  cases t with
  | nil => cases h
  | cons c' more =>
    obtain ⟨hpoint, hmore⟩ := List.cons.inj h
    exact ⟨more, by rw [Piece.point.inj hpoint], hmore⟩

theorem not_point_of_bad {state : Option Pending} {stop : Nat} {fault : Fault} (done : List Piece) :
    piecesFrom pos state (done ++ [.bad start stop fault]) data ≠ t.map .point := by
  rw [piecesFrom_eq_append, List.reverse_append]
  cases t <;> simp

/-- A byte that is due lies in its range. -/
theorem exists_of_spells_some (hlow : 0x80 ≤ low) (hhigh : high ≤ 0xBF)
    (h : Spells pos (some ⟨start, value, left, low, high⟩) data t) :
    ∃ d rest, data = UInt8.ofNat (0x80 + d) :: rest ∧ d < 0x40 ∧ low ≤ 0x80 + d ∧
      0x80 + d ≤ high := by
  cases data with
  | nil => cases t <;> cases h
  | cons b rest =>
    by_cases hb : low ≤ b.toNat ∧ b.toNat ≤ high
    · refine ⟨b.toNat - 0x80, rest, ?_, by omega, by omega, by omega⟩
      rw [Nat.add_sub_of_le (by omega), UInt8.ofNat_toNat]
    · exfalso
      rw [Spells, piecesFrom] at h
      simp only [Bool.and_eq_true, decide_eq_true_eq, hb, if_false] at h
      split at h
      · exact not_point_of_bad [_] h
      · exact not_point_of_bad [] h

/-- Before the last byte of a sequence stands one more byte. -/
theorem exists_of_spells_continue (hlow : 0x80 ≤ low) (hhigh : high ≤ 0xBF)
    (h : Spells pos (some ⟨start, value, left + 2, low, high⟩) data t) :
    ∃ d rest, data = UInt8.ofNat (0x80 + d) :: rest ∧ d < 0x40 ∧ low ≤ 0x80 + d ∧
      0x80 + d ≤ high ∧
      Spells (pos + 1) (some ⟨start, value * 0x40 + d, left + 1, 0x80, 0xBF⟩) rest t := by
  obtain ⟨d, rest, rfl, hd, hfirst, hlast⟩ := exists_of_spells_some hlow hhigh h
  rw [Spells, piecesFrom_continue hd hfirst hlast] at h
  exact ⟨d, rest, rfl, hd, hfirst, hlast, h⟩

/-- The last byte of a sequence gives its code point. -/
theorem exists_of_spells_last (hlow : 0x80 ≤ low) (hhigh : high ≤ 0xBF)
    (h : Spells pos (some ⟨start, value, 1, low, high⟩) data t) :
    ∃ d rest more, data = UInt8.ofNat (0x80 + d) :: rest ∧ d < 0x40 ∧ low ≤ 0x80 + d ∧
      0x80 + d ≤ high ∧ t = .ofNat (value * 0x40 + d) :: more ∧
      Spells (pos + 1) none rest more := by
  obtain ⟨d, rest, rfl, hd, hfirst, hlast⟩ := exists_of_spells_some hlow hhigh h
  rw [Spells, piecesFrom_last hd hfirst hlast] at h
  obtain ⟨more, rfl, hmore⟩ := exists_of_spells_cons h
  exact ⟨d, rest, more, rfl, hd, hfirst, hlast, rfl, hmore⟩

end Inversion

/-! ## First bytes -/

/-- What a byte says that begins a sequence of several. -/
theorem lead_eq_inr {pos : Nat} {b : UInt8} {p : Pending} (h : lead pos b = .inr p) :
    ∃ n, (2 ≤ n ∧ n < 0x20 ∧ b = UInt8.ofNat (0xC0 + n) ∧ p = ⟨pos, n, 1, 0x80, 0xBF⟩) ∨
      (n < 0x10 ∧ b = UInt8.ofNat (0xE0 + n) ∧
        p = ⟨pos, n, 2, if n = 0 then 0xA0 else 0x80, if n = 0xD then 0x9F else 0xBF⟩) ∨
      (n < 5 ∧ b = UInt8.ofNat (0xF0 + n) ∧
        p = ⟨pos, n, 3, if n = 0 then 0x90 else 0x80, if n = 4 then 0x8F else 0xBF⟩) := by
  have hbyte {base : Nat} (hb : base ≤ b.toNat) : b = UInt8.ofNat (base + (b.toNat - base)) := by
    rw [Nat.add_sub_of_le hb, UInt8.ofNat_toNat]
  have hsame {base n : Nat} (hb : base ≤ b.toNat) : b.toNat = base + n ↔ b.toNat - base = n := by
    omega
  unfold lead at h
  dsimp only at h
  split at h
  · cases h
  split at h
  · cases h
  split at h
  · cases h
    exact ⟨b.toNat - 0xC0, Or.inl ⟨by omega, by omega, hbyte (by omega), rfl⟩⟩
  split at h
  · cases h
    refine ⟨b.toNat - 0xE0, Or.inr (Or.inl ⟨by omega, hbyte (by omega), ?_⟩)⟩
    simp only [← hsame (by omega : 0xE0 ≤ b.toNat)]
  split at h
  · cases h
    refine ⟨b.toNat - 0xF0, Or.inr (Or.inr ⟨by omega, hbyte (by omega), ?_⟩)⟩
    simp only [← hsame (by omega : 0xF0 ≤ b.toNat)]
  · cases h

theorem lead_eq_inl_point {pos : Nat} {b : UInt8} {c : CodePoint} (h : lead pos b = .inl (.point c)) :
    b.toNat < 0x80 ∧ c = .ofNat b.toNat := by
  unfold lead at h
  dsimp only at h
  split at h
  · rename_i hb
    cases h
    exact ⟨hb, rfl⟩
  · repeat' (split at h)
    all_goals cases h

/-! ## Sequences -/

section Sequences

variable {n d d' d'' : Nat}

theorem encodePoint_one {b : UInt8} (hb : b.toNat < 0x80) : encodePoint (.ofNat b.toNat) = [b] := by
  simp [encodePoint, CodePoint.val_ofNat_of_lt (show b.toNat < 0x110000 by omega), hb]

theorem encodePoint_two (hlow : 2 ≤ n) (hhigh : n < 0x20) (hd : d < 0x40) :
    encodePoint (.ofNat (n * 0x40 + d)) = [UInt8.ofNat (0xC0 + n), UInt8.ofNat (0x80 + d)] := by
  have hfirst : (n * 0x40 + d) / 0x40 = n := by omega
  have hlast : (n * 0x40 + d) % 0x40 = d := by omega
  rw [encodePoint, CodePoint.val_ofNat_of_lt (by omega), if_neg (by omega), if_pos (by omega)]
  rw [hfirst, hlast]

theorem encodePoint_three (hn : n < 0x10) (hlow : n = 0 → 0x20 ≤ d) (hd : d < 0x40)
    (hd' : d' < 0x40) :
    encodePoint (.ofNat ((n * 0x40 + d) * 0x40 + d')) =
      [UInt8.ofNat (0xE0 + n), UInt8.ofNat (0x80 + d), UInt8.ofNat (0x80 + d')] := by
  have hfirst : ((n * 0x40 + d) * 0x40 + d') / 0x1000 = n := by omega
  have hmiddle : ((n * 0x40 + d) * 0x40 + d') / 0x40 % 0x40 = d := by omega
  have hlast : ((n * 0x40 + d) * 0x40 + d') % 0x40 = d' := by omega
  rw [encodePoint, CodePoint.val_ofNat_of_lt (by omega), if_neg (by omega), if_neg (by omega),
    if_pos (by omega)]
  rw [hfirst, hmiddle, hlast]

theorem encodePoint_four (hn : n < 5) (hlow : n = 0 → 0x10 ≤ d) (hhigh : n = 4 → d < 0x10)
    (hd : d < 0x40) (hd' : d' < 0x40) (hd'' : d'' < 0x40) :
    encodePoint (.ofNat (((n * 0x40 + d) * 0x40 + d') * 0x40 + d'')) =
      [UInt8.ofNat (0xF0 + n), UInt8.ofNat (0x80 + d), UInt8.ofNat (0x80 + d'),
        UInt8.ofNat (0x80 + d'')] := by
  have hfirst : (((n * 0x40 + d) * 0x40 + d') * 0x40 + d'') / 0x40000 = n := by omega
  have hsecond : (((n * 0x40 + d) * 0x40 + d') * 0x40 + d'') / 0x1000 % 0x40 = d := by omega
  have hthird : (((n * 0x40 + d) * 0x40 + d') * 0x40 + d'') / 0x40 % 0x40 = d' := by omega
  have hlast : (((n * 0x40 + d) * 0x40 + d') * 0x40 + d'') % 0x40 = d'' := by omega
  rw [encodePoint, CodePoint.val_ofNat_of_lt (by omega), if_neg (by omega), if_neg (by omega),
    if_neg (by omega)]
  rw [hfirst, hsecond, hthird, hlast]

theorem isSurrogate_ofNat {v : Nat} (hv : v < 0x110000) (h : v < 0xD800 ∨ 0xDFFF < v) :
    (CodePoint.ofNat v).isSurrogate = false := by
  simp only [CodePoint.isSurrogate, CodePoint.val_ofNat_of_lt hv, Bool.and_eq_false_iff,
    decide_eq_false_iff_not]
  omega

end Sequences

/-- The bytes begin with those of their first code point. -/
theorem exists_point_of_spells {pos : Nat} {b : UInt8} {rest : Bytes} {t : Text}
    (h : Spells pos none (b :: rest) t) :
    ∃ c pos' rest' more, b :: rest = encodePoint c ++ rest' ∧ c.isSurrogate = false ∧
      t = c :: more ∧ Spells pos' none rest' more := by
  cases hlead : lead pos b with
  | inl piece =>
    rw [Spells, piecesFrom_of_lead_inl hlead] at h
    cases piece with
    | bad start stop fault => exact absurd h (not_point_of_bad [])
    | point c =>
      obtain ⟨hb, rfl⟩ := lead_eq_inl_point hlead
      obtain ⟨more, rfl, hmore⟩ := exists_of_spells_cons h
      refine ⟨_, pos + 1, rest, more, ?_, isSurrogate_ofNat (by omega) (by omega), rfl, hmore⟩
      rw [encodePoint_one hb, List.singleton_append]
  | inr p =>
    have h : Spells (pos + 1) (some p) rest t := by rwa [Spells, piecesFrom_of_lead_inr hlead] at h
    obtain ⟨n, ⟨hlow, hhigh, rfl, rfl⟩ | ⟨hn, rfl, rfl⟩ | ⟨hn, rfl, rfl⟩⟩ := lead_eq_inr hlead
    · obtain ⟨d, rest', more, rfl, hd, _, _, rfl, hmore⟩ :=
        exists_of_spells_last (by omega) (by omega) h
      refine ⟨_, _, rest', more, ?_, isSurrogate_ofNat (by omega) (by omega), rfl, hmore⟩
      rw [encodePoint_two hlow hhigh hd]
      rfl
    · obtain ⟨d, rest, rfl, hd, hfirst, hlast, h⟩ :=
        exists_of_spells_continue (by split <;> omega) (by split <;> omega) h
      obtain ⟨d', rest', more, rfl, hd', _, _, rfl, hmore⟩ :=
        exists_of_spells_last (by omega) (by omega) h
      have hlow : n = 0 → 0x20 ≤ d := fun hzero => by
        rw [if_pos hzero] at hfirst
        omega
      have hhigh : n = 0xD → d < 0x20 := fun hlead => by
        rw [if_pos hlead] at hlast
        omega
      refine ⟨_, _, rest', more, ?_, isSurrogate_ofNat (by omega) (by omega), rfl, hmore⟩
      rw [encodePoint_three hn hlow hd hd']
      rfl
    · obtain ⟨d, rest, rfl, hd, hfirst, hlast, h⟩ :=
        exists_of_spells_continue (by split <;> omega) (by split <;> omega) h
      obtain ⟨d', rest, rfl, hd', _, _, h⟩ := exists_of_spells_continue (by omega) (by omega) h
      obtain ⟨d'', rest', more, rfl, hd'', _, _, rfl, hmore⟩ :=
        exists_of_spells_last (by omega) (by omega) h
      have hlow : n = 0 → 0x10 ≤ d := fun hzero => by
        rw [if_pos hzero] at hfirst
        omega
      have hhigh : n = 4 → d < 0x10 := fun hlead => by
        rw [if_pos hlead] at hlast
        omega
      refine ⟨_, _, rest', more, ?_, isSurrogate_ofNat (by omega) (by omega), rfl, hmore⟩
      rw [encodePoint_four hn hlow hhigh hd hd' hd'']
      rfl

/-! ## Whole texts -/

/-- Bytes that are all code points are the bytes of these. -/
theorem encode_of_spells {pos : Nat} {data : Bytes} {t : Text} (h : Spells pos none data t) :
    isEncodable t = true ∧ data = encodeAll t := by
  -- on the length: what is left behind a code point is no tail of the list as it stands
  induction hlength : data.length using Nat.strong_induction_on generalizing pos data t with
  | _ length ih =>
  cases data with
  | nil =>
    cases t with
    | nil => exact ⟨rfl, rfl⟩
    | cons c more => cases h
  | cons b rest =>
    obtain ⟨c, pos', rest', more, hdata, hc, rfl, hmore⟩ := exists_point_of_spells h
    have hpoint : encodePoint c ≠ [] := by
      unfold encodePoint
      dsimp only
      split_ifs <;> exact List.cons_ne_nil _ _
    have hshorter : rest'.length < length := by
      rw [← hlength, hdata, List.length_append]
      have := List.length_pos_iff.2 hpoint
      omega
    obtain ⟨hencodable, rfl⟩ := ih _ hshorter hmore rfl
    refine ⟨?_, hdata⟩
    rw [isEncodable_cons, hc, hencodable]
    rfl

/-- The bytes that are read as a text are the bytes of the text. -/
theorem encode_of_decode {data : Bytes} {t : Text} (h : decode data = .ok t) :
    encode t = .ok data :=
  encode_eq_ok_iff.2 (encode_of_spells (spells_of_decode h))

end ModuleDocs.Utf8
