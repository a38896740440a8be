import Mathlib
import ModuleDocs.Text.Utf8

/-!
# UTF-8 that was written is read back

`Utf8.decode_of_encode` says that the bytes of a text are read as that text.  It
rests on `piecesFrom_encodePoint`: between two pieces, the automaton takes the
bytes of one code point and stands between two pieces again.

Beside it stand the texts that can be written at all (`encode_eq_ok_iff`) and
the two sources of UTF-8 that need no check: ASCII and Latin-1.
-/

namespace ModuleDocs

@[simp] theorem CodePoint.ofNat_val (c : CodePoint) : CodePoint.ofNat c.val = c := by
  have hc := c.isLt
  apply Fin.ext
  simp only [CodePoint.ofNat]
  omega

theorem CodePoint.val_ofNat_of_lt {n : Nat} (h : n < 0x110000) : (CodePoint.ofNat n).val = n := by
  simp only [CodePoint.ofNat]
  omega

namespace Utf8

/-! ## Texts that can be written -/

theorem firstSurrogates?_eq_none_iff (t : Text) :
    firstSurrogates? t = none ↔ isEncodable t = true := by
  have hdrop : t.dropWhile (! ·.isSurrogate) = [] ↔ isEncodable t = true := by
    rw [List.dropWhile_eq_nil_iff, isEncodable, List.all_eq_true]
  rw [← hdrop, firstSurrogates?]
  split
  · rename_i heq
    exact ⟨fun _ => heq, fun _ => rfl⟩
  · rename_i heq
    simp [heq]

/-- A text has bytes just when it holds no surrogate. -/
theorem encode_eq_ok_iff {t : Text} {data : Bytes} :
    encode t = .ok data ↔ isEncodable t = true ∧ data = encodeAll t := by
  rw [← firstSurrogates?_eq_none_iff, encode]
  cases firstSurrogates? t with
  | none => simp [eq_comm]
  | some run => simp

theorem encode_of_isEncodable {t : Text} (h : isEncodable t = true) :
    encode t = .ok (encodeAll t) :=
  encode_eq_ok_iff.2 ⟨h, rfl⟩

@[simp] theorem isEncodable_nil : isEncodable [] = true := rfl

theorem isEncodable_cons (c : CodePoint) (t : Text) :
    isEncodable (c :: t) = (! c.isSurrogate && isEncodable t) := rfl

theorem isEncodable_append (s t : Text) :
    isEncodable (s ++ t) = (isEncodable s && isEncodable t) :=
  List.all_append

/-! ## Steps of the automaton -/

theorem toNat_ofNat_of_lt {n : Nat} (h : n < 256) : (UInt8.ofNat n).toNat = n := by
  rw [UInt8.toNat_ofNat']
  omega

section Steps

variable {pos : Nat} {done : List Piece} {b : UInt8} {rest : Bytes}

theorem piecesFrom_of_lead_inl {piece : Piece} (h : lead pos b = .inl piece) :
    piecesFrom pos none done (b :: rest) = piecesFrom (pos + 1) none (piece :: done) rest := by
  simp [piecesFrom, h]

theorem piecesFrom_of_lead_inr {p : Pending} (h : lead pos b = .inr p) :
    piecesFrom pos none done (b :: rest) = piecesFrom (pos + 1) (some p) done rest := by
  simp [piecesFrom, h]

variable {start value left low high d : Nat}

/-- A byte in range goes on with a sequence that has more bytes due behind it. -/
theorem piecesFrom_continue (hd : d < 0x40) (hlow : low ≤ 0x80 + d) (hhigh : 0x80 + d ≤ high) :
    piecesFrom pos (some ⟨start, value, left + 2, low, high⟩) done (UInt8.ofNat (0x80 + d) :: rest)
      = piecesFrom (pos + 1) (some ⟨start, value * 0x40 + d, left + 1, 0x80, 0xBF⟩) done rest := by
  have hbyte : (UInt8.ofNat (0x80 + d)).toNat = 0x80 + d := toNat_ofNat_of_lt (by omega)
  generalize UInt8.ofNat (0x80 + d) = b at *
  rw [piecesFrom]
  simp [hbyte, hlow, hhigh]

/-- The last byte that is due ends a sequence. -/
theorem piecesFrom_last (hd : d < 0x40) (hlow : low ≤ 0x80 + d) (hhigh : 0x80 + d ≤ high) :
    piecesFrom pos (some ⟨start, value, 1, low, high⟩) done (UInt8.ofNat (0x80 + d) :: rest)
      = piecesFrom (pos + 1) none (.point (.ofNat (value * 0x40 + d)) :: done) rest := by
  have hbyte : (UInt8.ofNat (0x80 + d)).toNat = 0x80 + d := toNat_ofNat_of_lt (by omega)
  generalize UInt8.ofNat (0x80 + d) = b at *
  rw [piecesFrom]
  simp [hbyte, hlow, hhigh]

end Steps

/-! ## First bytes -/

section FirstBytes

variable (pos : Nat) {n : Nat}

theorem lead_one (h : n < 0x80) : lead pos (UInt8.ofNat n) = .inl (.point (.ofNat n)) := by
  have hbyte : (UInt8.ofNat n).toNat = n := toNat_ofNat_of_lt (by omega)
  simp only [lead, hbyte, if_pos h]

theorem lead_two (hlow : 2 ≤ n) (hhigh : n < 0x20) :
    lead pos (UInt8.ofNat (0xC0 + n)) = .inr ⟨pos, n, 1, 0x80, 0xBF⟩ := by
  have hbyte : (UInt8.ofNat (0xC0 + n)).toNat = 0xC0 + n := toNat_ofNat_of_lt (by omega)
  simp only [lead, hbyte, Nat.add_sub_cancel_left]
  rw [if_neg (by omega), if_neg (by omega), if_pos (by omega)]

theorem lead_three (hhigh : n < 0x10) :
    lead pos (UInt8.ofNat (0xE0 + n))
      = .inr ⟨pos, n, 2, if n = 0 then 0xA0 else 0x80, if n = 0xD then 0x9F else 0xBF⟩ := by
  have hbyte : (UInt8.ofNat (0xE0 + n)).toNat = 0xE0 + n := toNat_ofNat_of_lt (by omega)
  have hfirst : 0xE0 + n = 0xE0 ↔ n = 0 := by omega
  have hlast : 0xE0 + n = 0xED ↔ n = 0xD := by omega
  simp only [lead, hbyte, Nat.add_sub_cancel_left, hfirst, hlast]
  rw [if_neg (by omega), if_neg (by omega), if_neg (by omega), if_pos (by omega)]

theorem lead_four (hhigh : n < 5) :
    lead pos (UInt8.ofNat (0xF0 + n))
      = .inr ⟨pos, n, 3, if n = 0 then 0x90 else 0x80, if n = 4 then 0x8F else 0xBF⟩ := by
  have hbyte : (UInt8.ofNat (0xF0 + n)).toNat = 0xF0 + n := toNat_ofNat_of_lt (by omega)
  have hfirst : 0xF0 + n = 0xF0 ↔ n = 0 := by omega
  have hlast : 0xF0 + n = 0xF4 ↔ n = 4 := by omega
  simp only [lead, hbyte, Nat.add_sub_cancel_left, hfirst, hlast]
  rw [if_neg (by omega), if_neg (by omega), if_neg (by omega), if_neg (by omega),
    if_pos (by omega)]

end FirstBytes

/-! ## Reading what was written -/

section CodePoints

variable {c : CodePoint} (pos : Nat) (done : List Piece) (rest : Bytes)

private theorem piecesFrom_two (hlow : 0x80 ≤ c.val) (hhigh : c.val < 0x800) :
    piecesFrom pos none done
        (UInt8.ofNat (0xC0 + c.val / 0x40) :: UInt8.ofNat (0x80 + c.val % 0x40) :: rest)
      = piecesFrom (pos + 2) none (.point c :: done) rest := by
  have hvalue : c.val / 0x40 * 0x40 + c.val % 0x40 = c.val := by omega
  rw [piecesFrom_of_lead_inr (lead_two pos (by omega) (by omega)),
    piecesFrom_last (by omega) (by omega) (by omega), hvalue, CodePoint.ofNat_val]

private theorem piecesFrom_three (hlow : 0x800 ≤ c.val) (hhigh : c.val < 0x10000)
    (hc : c.isSurrogate = false) :
    piecesFrom pos none done
        (UInt8.ofNat (0xE0 + c.val / 0x1000) :: UInt8.ofNat (0x80 + c.val / 0x40 % 0x40)
          :: UInt8.ofNat (0x80 + c.val % 0x40) :: rest)
      = piecesFrom (pos + 3) none (.point c :: done) rest := by
  have hsurrogate : ¬ (0xD800 ≤ c.val ∧ c.val ≤ 0xDFFF) := by
    simpa [CodePoint.isSurrogate] using hc
  have hvalue : (c.val / 0x1000 * 0x40 + c.val / 0x40 % 0x40) * 0x40 + c.val % 0x40 = c.val := by
    omega
  rw [piecesFrom_of_lead_inr (lead_three pos (by omega)),
    piecesFrom_continue (by omega) (by split <;> omega) (by split <;> omega),
    piecesFrom_last (by omega) (by omega) (by omega), hvalue, CodePoint.ofNat_val]

private theorem piecesFrom_four (hlow : 0x10000 ≤ c.val) :
    piecesFrom pos none done
        (UInt8.ofNat (0xF0 + c.val / 0x40000) :: UInt8.ofNat (0x80 + c.val / 0x1000 % 0x40)
          :: UInt8.ofNat (0x80 + c.val / 0x40 % 0x40) :: UInt8.ofNat (0x80 + c.val % 0x40) :: rest)
      = piecesFrom (pos + 4) none (.point c :: done) rest := by
  have hhigh := c.isLt
  have hvalue : ((c.val / 0x40000 * 0x40 + c.val / 0x1000 % 0x40) * 0x40
      + c.val / 0x40 % 0x40) * 0x40 + c.val % 0x40 = c.val := by omega
  rw [piecesFrom_of_lead_inr (lead_four pos (by omega)),
    piecesFrom_continue (by omega) (by split <;> omega) (by split <;> omega),
    piecesFrom_continue (by omega) (by omega) (by omega),
    piecesFrom_last (by omega) (by omega) (by omega), hvalue, CodePoint.ofNat_val]

end CodePoints

/-- The bytes of a code point are one piece. -/
theorem piecesFrom_encodePoint {c : CodePoint} (hc : c.isSurrogate = false) (pos : Nat)
    (done : List Piece) (rest : Bytes) :
    piecesFrom pos none done (encodePoint c ++ rest)
      = piecesFrom (pos + (encodePoint c).length) none (.point c :: done) rest := by
  simp only [encodePoint]
  split
  · rename_i hone
    have hlead := lead_one pos hone
    rw [CodePoint.ofNat_val] at hlead
    exact piecesFrom_of_lead_inl hlead
  · split
    · exact piecesFrom_two pos done rest (by omega) (by assumption)
    · split
      · exact piecesFrom_three pos done rest (by omega) (by assumption) hc
      · exact piecesFrom_four pos done rest (by omega)

theorem piecesFrom_encodeAll {t : Text} (ht : isEncodable t = true) (pos : Nat)
    (done : List Piece) :
    piecesFrom pos none done (encodeAll t) = done.reverse ++ t.map .point := by
  induction t generalizing pos done with
  | nil => simp [encodeAll, piecesFrom]
  | cons c t ih =>
    rw [isEncodable_cons, Bool.and_eq_true, Bool.not_eq_true'] at ht
    rw [encodeAll, List.flatMap_cons, piecesFrom_encodePoint ht.1]
    rw [show t.flatMap encodePoint = encodeAll t from rfl, ih ht.2]
    simp

theorem collect_map_point (data : Bytes) (done t : Text) :
    collect data done (t.map .point) = .ok (done.reverse ++ t) := by
  induction t generalizing done with
  | nil => simp [collect]
  | cons c t ih => simp [collect, ih]

/-- The bytes of a text are read as the text. -/
theorem decode_encodeAll {t : Text} (ht : isEncodable t = true) :
    decode (encodeAll t) = .ok t := by
  rw [decode, pieces, piecesFrom_encodeAll ht]
  exact collect_map_point _ [] t

theorem decode_of_encode {t : Text} {data : Bytes} (h : encode t = .ok data) :
    decode data = .ok t := by
  obtain ⟨ht, rfl⟩ := encode_eq_ok_iff.1 h
  exact decode_encodeAll ht

/-! ## Texts without surrogates -/

theorem isEncodable_of_val_lt {t : Text} (h : ∀ c ∈ t, c.val < 0xD800) : isEncodable t = true := by
  rw [isEncodable, List.all_eq_true]
  intro c hc
  have := h c hc
  simp only [CodePoint.isSurrogate, Bool.not_eq_true', Bool.and_eq_false_iff, decide_eq_false_iff_not]
  omega

theorem isEncodable_ofLatin1 (data : Bytes) : isEncodable (ofLatin1 data) = true := by
  apply isEncodable_of_val_lt
  intro c hc
  obtain ⟨b, -, rfl⟩ := List.mem_map.1 hc
  have hb := b.toNat_lt
  rw [CodePoint.val_ofNat_of_lt (by omega)]
  omega

end Utf8

end ModuleDocs
