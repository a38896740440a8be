import Mathlib
import ModuleDocs.Proofs.Text.Decoding

/-!
# Well-formed UTF-8

`Utf8.forms` is the table of the byte sequences that are one code point: nothing longer than the
code point needs, no surrogate, and nothing past the last code point.  These are the sequences
that are written (`Utf8.isSequence_iff`), so that the bytes that can be read as a text are the
ones that the table allows (`Utf8.isTabular_iff_decode`).
-/

namespace ModuleDocs.Utf8

/-- The forms of a sequence: for each of its bytes, the least and the greatest value. -/
def forms : List (List (Nat × Nat)) := [
  [(0x00, 0x7F)],
  [(0xC2, 0xDF), (0x80, 0xBF)],
  [(0xE0, 0xE0), (0xA0, 0xBF), (0x80, 0xBF)],
  [(0xE1, 0xEC), (0x80, 0xBF), (0x80, 0xBF)],
  [(0xED, 0xED), (0x80, 0x9F), (0x80, 0xBF)],
  [(0xEE, 0xEF), (0x80, 0xBF), (0x80, 0xBF)],
  [(0xF0, 0xF0), (0x90, 0xBF), (0x80, 0xBF), (0x80, 0xBF)],
  [(0xF1, 0xF3), (0x80, 0xBF), (0x80, 0xBF), (0x80, 0xBF)],
  [(0xF4, 0xF4), (0x80, 0x8F), (0x80, 0xBF), (0x80, 0xBF)]]

/-- The byte lies between two values. -/
def IsBetween (range : Nat × Nat) (b : UInt8) : Prop := range.1 ≤ b.toNat ∧ b.toNat ≤ range.2

/-- The bytes have one of the forms: those of one code point. -/
def IsSequence (data : Bytes) : Prop := ∃ form ∈ forms, List.Forall₂ IsBetween form data

/-- The bytes are sequences of the table, one behind the other. -/
def IsTabular (data : Bytes) : Prop :=
  ∃ parts : List Bytes, (∀ part ∈ parts, IsSequence part) ∧ data = parts.flatten

/-! ## Sequences that are written -/

section Forms

variable {n d d' d'' : Nat}

theorem isBetween_ofNat {low high : Nat} (hlow : low ≤ n) (hhigh : n ≤ high) (hbyte : n < 256) :
    IsBetween (low, high) (UInt8.ofNat n) := by
  rw [IsBetween, toNat_ofNat_of_lt hbyte]
  exact ⟨hlow, hhigh⟩

/-- A byte behind the first one. -/
theorem isBetween_due (hd : d < 0x40) : IsBetween (0x80, 0xBF) (UInt8.ofNat (0x80 + d)) :=
  isBetween_ofNat (by omega) (by omega) (by omega)

theorem isSequence_one (hn : n < 0x80) : IsSequence [UInt8.ofNat n] :=
  ⟨[(0x00, 0x7F)], by decide, .cons (isBetween_ofNat (by omega) (by omega) (by omega)) .nil⟩

theorem isSequence_two (hlow : 2 ≤ n) (hhigh : n < 0x20) (hd : d < 0x40) :
    IsSequence [UInt8.ofNat (0xC0 + n), UInt8.ofNat (0x80 + d)] :=
  ⟨[(0xC2, 0xDF), (0x80, 0xBF)], by decide,
    .cons (isBetween_ofNat (by omega) (by omega) (by omega)) (.cons (isBetween_due hd) .nil)⟩

theorem isSequence_three (hn : n < 0x10) (hlow : n = 0 → 0x20 ≤ d) (hhigh : n = 0xD → d < 0x20)
    (hd : d < 0x40) (hd' : d' < 0x40) :
    IsSequence [UInt8.ofNat (0xE0 + n), UInt8.ofNat (0x80 + d), UInt8.ofNat (0x80 + d')] := by
  have hform (low high least greatest : Nat)
      (hmem : [(low, high), (least, greatest), (0x80, 0xBF)] ∈ forms)
      (hfirst : low ≤ 0xE0 + n ∧ 0xE0 + n ≤ high)
      (hsecond : least ≤ 0x80 + d ∧ 0x80 + d ≤ greatest) :
      IsSequence [UInt8.ofNat (0xE0 + n), UInt8.ofNat (0x80 + d), UInt8.ofNat (0x80 + d')] :=
    ⟨_, hmem, .cons (isBetween_ofNat hfirst.1 hfirst.2 (by omega))
      (.cons (isBetween_ofNat hsecond.1 hsecond.2 (by omega)) (.cons (isBetween_due hd') .nil))⟩
  rcases (by omega : n = 0 ∨ 1 ≤ n ∧ n < 0xD ∨ n = 0xD ∨ 0xD < n) with hn | hn | hn | hn
  · exact hform 0xE0 0xE0 0xA0 0xBF (by decide) (by omega) (by omega)
  · exact hform 0xE1 0xEC 0x80 0xBF (by decide) (by omega) (by omega)
  · exact hform 0xED 0xED 0x80 0x9F (by decide) (by omega) (by omega)
  · exact hform 0xEE 0xEF 0x80 0xBF (by decide) (by omega) (by omega)

theorem isSequence_four (hn : n < 5) (hlow : n = 0 → 0x10 ≤ d) (hhigh : n = 4 → d < 0x10)
    (hd : d < 0x40) (hd' : d' < 0x40) (hd'' : d'' < 0x40) :
    IsSequence [UInt8.ofNat (0xF0 + n), UInt8.ofNat (0x80 + d), UInt8.ofNat (0x80 + d'),
      UInt8.ofNat (0x80 + d'')] := by
  have hform (low high least greatest : Nat)
      (hmem : [(low, high), (least, greatest), (0x80, 0xBF), (0x80, 0xBF)] ∈ forms)
      (hfirst : low ≤ 0xF0 + n ∧ 0xF0 + n ≤ high)
      (hsecond : least ≤ 0x80 + d ∧ 0x80 + d ≤ greatest) :
      IsSequence [UInt8.ofNat (0xF0 + n), UInt8.ofNat (0x80 + d), UInt8.ofNat (0x80 + d'),
        UInt8.ofNat (0x80 + d'')] :=
    ⟨_, hmem, .cons (isBetween_ofNat hfirst.1 hfirst.2 (by omega))
      (.cons (isBetween_ofNat hsecond.1 hsecond.2 (by omega))
        (.cons (isBetween_due hd') (.cons (isBetween_due hd'') .nil)))⟩
  rcases (by omega : n = 0 ∨ 1 ≤ n ∧ n < 4 ∨ n = 4) with hn | hn | hn
  · exact hform 0xF0 0xF0 0x90 0xBF (by decide) (by omega) (by omega)
  · exact hform 0xF1 0xF3 0x80 0xBF (by decide) (by omega) (by omega)
  · exact hform 0xF4 0xF4 0x80 0x8F (by decide) (by omega) (by omega)

end Forms

/-- The bytes of a code point that is no surrogate have one of the forms. -/
theorem isSequence_encodePoint {c : CodePoint} (hc : c.isSurrogate = false) :
    IsSequence (encodePoint c) := by
  have hlast := c.isLt
  have hsurrogate : ¬ (0xD800 ≤ c.val ∧ c.val ≤ 0xDFFF) := by
    simpa [CodePoint.isSurrogate] using hc
  unfold encodePoint
  dsimp only
  split
  · exact isSequence_one (by omega)
  split
  · exact isSequence_two (by omega) (by omega) (by omega)
  split
  · exact isSequence_three (by omega) (by omega) (by omega) (by omega) (by omega)
  · exact isSequence_four (by omega) (by omega) (by omega) (by omega) (by omega) (by omega)

/-! ## Sequences of the table -/

/-- A byte between two values is given by its distance from a third one below them. -/
theorem exists_of_isBetween {base low high : Nat} {b : UInt8} (hbase : base ≤ low)
    (h : IsBetween (low, high) b) :
    ∃ d, b = UInt8.ofNat (base + d) ∧ low ≤ base + d ∧ base + d ≤ high := by
  obtain ⟨hlow, hhigh⟩ : low ≤ b.toNat ∧ b.toNat ≤ high := h
  refine ⟨b.toNat - base, ?_, by omega, by omega⟩
  rw [Nat.add_sub_of_le (by omega), UInt8.ofNat_toNat]

/-- The bytes are what some code point is written with. -/
def IsPoint (data : Bytes) : Prop := ∃ c : CodePoint, c.isSurrogate = false ∧ data = encodePoint c

section Rows

variable {low high least greatest : Nat} {data : Bytes}

theorem isPoint_one (h : List.Forall₂ IsBetween [(0x00, 0x7F)] data) : IsPoint data := by
  rcases h with _ | ⟨hbyte, _ | _⟩
  obtain ⟨-, hlast⟩ := hbyte
  dsimp only at hlast
  exact ⟨.ofNat _, isSurrogate_ofNat (by omega) (by omega), (encodePoint_one (by omega)).symm⟩

theorem isPoint_two (h : List.Forall₂ IsBetween [(0xC2, 0xDF), (0x80, 0xBF)] data) :
    IsPoint data := by
  rcases h with _ | ⟨hlead, _ | ⟨hlast, _ | _⟩⟩
  obtain ⟨n, rfl, hn⟩ := exists_of_isBetween (show 0xC0 ≤ 0xC2 by omega) hlead
  obtain ⟨d, rfl, hd⟩ := exists_of_isBetween le_rfl hlast
  refine ⟨.ofNat (n * 0x40 + d), isSurrogate_ofNat (by omega) (by omega), ?_⟩
  exact (encodePoint_two (by omega) (by omega) (by omega)).symm

/-- Three bytes: behind `E0` nothing that two bytes could write, behind `ED` no surrogate. -/
theorem isPoint_three (hfirst : 0xE0 ≤ low ∧ high ≤ 0xEF) (hsecond : 0x80 ≤ least ∧ greatest ≤ 0xBF)
    (hshortest : low = 0xE0 → 0xA0 ≤ least)
    (hsurrogate : low ≤ 0xED → 0xED ≤ high → greatest ≤ 0x9F)
    (h : List.Forall₂ IsBetween [(low, high), (least, greatest), (0x80, 0xBF)] data) :
    IsPoint data := by
  rcases h with _ | ⟨hlead, _ | ⟨hnext, _ | ⟨hlast, _ | _⟩⟩⟩
  obtain ⟨n, rfl, hn⟩ := exists_of_isBetween hfirst.1 hlead
  obtain ⟨d, rfl, hd⟩ := exists_of_isBetween hsecond.1 hnext
  obtain ⟨d', rfl, hd'⟩ := exists_of_isBetween le_rfl hlast
  refine ⟨.ofNat ((n * 0x40 + d) * 0x40 + d'), isSurrogate_ofNat (by omega) (by omega), ?_⟩
  exact (encodePoint_three (by omega) (by omega) (by omega) (by omega)).symm

/-- Four bytes: behind `F0` nothing that three bytes could write, behind `F4` nothing past the last
code point. -/
theorem isPoint_four (hfirst : 0xF0 ≤ low ∧ high ≤ 0xF4) (hsecond : 0x80 ≤ least ∧ greatest ≤ 0xBF)
    (hshortest : low = 0xF0 → 0x90 ≤ least) (hinside : high = 0xF4 → greatest ≤ 0x8F)
    (h : List.Forall₂ IsBetween [(low, high), (least, greatest), (0x80, 0xBF), (0x80, 0xBF)] data) :
    IsPoint data := by
  rcases h with _ | ⟨hlead, _ | ⟨hnext, _ | ⟨hthird, _ | ⟨hlast, _ | _⟩⟩⟩⟩
  obtain ⟨n, rfl, hn⟩ := exists_of_isBetween hfirst.1 hlead
  obtain ⟨d, rfl, hd⟩ := exists_of_isBetween hsecond.1 hnext
  obtain ⟨d', rfl, hd'⟩ := exists_of_isBetween le_rfl hthird
  obtain ⟨d'', rfl, hd''⟩ := exists_of_isBetween le_rfl hlast
  refine ⟨.ofNat (((n * 0x40 + d) * 0x40 + d') * 0x40 + d''),
    isSurrogate_ofNat (by omega) (by omega), ?_⟩
  exact (encodePoint_four (by omega) (by omega) (by omega) (by omega) (by omega) (by omega)).symm

end Rows

/-- A sequence of the table is what some code point is written with. -/
theorem isPoint_of_isSequence {data : Bytes} (h : IsSequence data) : IsPoint data := by
  obtain ⟨form, hmem, hform⟩ := h
  simp only [forms, List.mem_cons, List.not_mem_nil, or_false] at hmem
  rcases hmem with rfl | rfl | rfl | rfl | rfl | rfl | rfl | rfl | rfl
  · exact isPoint_one hform
  · exact isPoint_two hform
  · exact isPoint_three (by omega) (by omega) (by omega) (by omega) hform
  · exact isPoint_three (by omega) (by omega) (by omega) (by omega) hform
  · exact isPoint_three (by omega) (by omega) (by omega) (by omega) hform
  · exact isPoint_three (by omega) (by omega) (by omega) (by omega) hform
  · exact isPoint_four (by omega) (by omega) (by omega) (by omega) hform
  · exact isPoint_four (by omega) (by omega) (by omega) (by omega) hform
  · exact isPoint_four (by omega) (by omega) (by omega) (by omega) hform

/-- The table lists what code points are written with. -/
theorem isSequence_iff {data : Bytes} : IsSequence data ↔ IsPoint data := by
  refine ⟨isPoint_of_isSequence, ?_⟩
  rintro ⟨c, hc, rfl⟩
  exact isSequence_encodePoint hc

/-! ## Whole texts -/

/-- The bytes that the table allows are those that texts are written with. -/
theorem isTabular_iff {data : Bytes} :
    IsTabular data ↔ ∃ t, isEncodable t = true ∧ data = encodeAll t := by
  constructor
  · rintro ⟨parts, hparts, rfl⟩
    induction parts with
    | nil => exact ⟨[], rfl, rfl⟩
    | cons part rest ih =>
      obtain ⟨hpart, hrest⟩ := List.forall_mem_cons.1 hparts
      obtain ⟨c, hc, rfl⟩ := isSequence_iff.1 hpart
      obtain ⟨t, ht, hdata⟩ := ih hrest
      refine ⟨c :: t, by rw [isEncodable_cons, hc, ht]; rfl, ?_⟩
      rw [List.flatten_cons, hdata]
      rfl
  · rintro ⟨t, ht, rfl⟩
    refine ⟨t.map encodePoint, ?_, List.flatMap_def⟩
    intro part hpart
    obtain ⟨c, hc, rfl⟩ := List.mem_map.1 hpart
    exact isSequence_encodePoint (by simpa using List.all_eq_true.1 ht c hc)

/-- The bytes that can be read as a text are the ones that the table allows. -/
theorem isTabular_iff_decode {data : Bytes} : IsTabular data ↔ ∃ t, decode data = .ok t := by
  rw [isTabular_iff]
  constructor
  · rintro ⟨t, ht, rfl⟩
    exact ⟨t, decode_encodeAll ht⟩
  · rintro ⟨t, ht⟩
    exact ⟨t, encode_eq_ok_iff.1 (encode_of_decode ht)⟩

end ModuleDocs.Utf8
