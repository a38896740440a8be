import Mathlib
import ModuleDocs.File.Spelling

/-!
# Double dots

`Location.follow` goes along names as a walk does that is not stopped.  It comes to the same
location along names whose double dots were dropped before (`Path.map_encode_cancelDots`),
as no other text gives the name of a double dot (`FileName.encode_eq_dots_iff`).
-/

namespace ModuleDocs

/-! ## Names -/

namespace FileName

variable {c : CodePoint} {t : Text}

/-- Only a dot starts with the byte of a dot. -/
theorem eq_dot_of_encodePoint {rest : Bytes} (h : encodePoint c = 0x2E :: rest) :
    c = CodePoint.ofChar '.' ∧ rest = [] := by
  have hpoint := c.isLt
  have hbyte {n : Nat} (hn : UInt8.ofNat n = 0x2E) : n % 256 = 0x2E := by
    have := congrArg UInt8.toNat hn
    simpa using this
  unfold encodePoint isByteEscape Utf8.encodePoint at h
  dsimp only at h
  split at h
  · rename_i hescape
    simp only [Bool.and_eq_true, decide_eq_true_eq] at hescape
    have := hbyte (List.cons.inj h).1
    omega
  split at h
  · rename_i hsmall
    have := hbyte (List.cons.inj h).1
    exact ⟨Fin.ext (show c.val = 0x2E by omega), (List.cons.inj h).2.symm⟩
  split at h
  · have := hbyte (List.cons.inj h).1
    omega
  split at h
  · have := hbyte (List.cons.inj h).1
    omega
  · have := hbyte (List.cons.inj h).1
    omega

/-- A text whose name starts with a dot starts with one. -/
theorem eq_dot_of_encode {rest : Bytes} (h : encode t = 0x2E :: rest) :
    ∃ u, t = CodePoint.ofChar '.' :: u ∧ encode u = rest := by
  cases t with
  | nil => cases h
  | cons c u =>
    have hencode : encode (c :: u) = encodePoint c ++ encode u := rfl
    rw [hencode] at h
    cases hpoint : encodePoint c with
    | nil =>
      have := one_le_length_encodePoint c
      simp [hpoint] at this
    | cons b more =>
      rw [hpoint, List.cons_append] at h
      obtain ⟨rfl, hrest⟩ := List.cons.inj h
      obtain ⟨rfl, rfl⟩ := eq_dot_of_encodePoint hpoint
      exact ⟨u, rfl, hrest⟩

/-- Just one text gives the name of a double dot. -/
theorem encode_eq_dots_iff : encode t = [0x2E, 0x2E] ↔ t = Text.ofString ".." := by
  constructor
  · intro h
    obtain ⟨u, rfl, hu⟩ := eq_dot_of_encode h
    obtain ⟨v, rfl, hv⟩ := eq_dot_of_encode hu
    have := length_le_length_encode v
    rw [hv, List.length_nil] at this
    rw [List.eq_nil_of_length_eq_zero (Nat.le_zero.1 this)]
    rfl
  · rintro rfl
    decide

end FileName

/-- Where names lead from a location: a double dot out of a directory, any other name
into one. -/
def Location.follow : Location → List FileName → Location
  | a, [] => a
  | a, name :: rest => follow (if name = [0x2E, 0x2E] then a.dropLast else a ++ [name]) rest

namespace Location

theorem follow_append (a : Location) (names more : List FileName) :
    a.follow (names ++ more) = (a.follow names).follow more := by
  induction names generalizing a with
  | nil => rfl
  | cons name rest ih => exact ih _

/-- Names without double dots lead on and on. -/
theorem follow_of_not_mem (a : Location) {names : List Text} (h : Text.ofString ".." ∉ names) :
    a.follow (names.map FileName.encode) = a ++ names.map FileName.encode := by
  induction names generalizing a with
  | nil => exact (List.append_nil a).symm
  | cons name rest ih =>
    obtain ⟨hname, hrest⟩ := not_or.1 (mt List.mem_cons.2 h)
    have hdots : FileName.encode name ≠ [0x2E, 0x2E] :=
      fun hdots => hname (FileName.encode_eq_dots_iff.1 hdots).symm
    rw [List.map_cons, follow, if_neg hdots, ih _ hrest, List.append_assoc]
    rfl

end Location

namespace Path

theorem map_encode_cancelDots (done names : List Text) :
    (cancelDots done names).map FileName.encode
      = Location.follow (done.reverse.map FileName.encode) (names.map FileName.encode) := by
  induction names generalizing done with
  | nil => rfl
  | cons name rest ih =>
    rw [cancelDots, List.map_cons, Location.follow]
    split
    · rename_i hname
      rw [if_pos (FileName.encode_eq_dots_iff.2 hname), ih, ← List.dropLast_reverse,
        List.map_dropLast]
    · rename_i hname
      rw [if_neg (mt FileName.encode_eq_dots_iff.1 hname), ih, List.reverse_cons, List.map_append]
      rfl

theorem dots_not_mem_cancelDots {done : List Text} (h : Text.ofString ".." ∉ done)
    (names : List Text) : Text.ofString ".." ∉ cancelDots done names := by
  induction names generalizing done with
  | nil => rwa [cancelDots, List.mem_reverse]
  | cons name rest ih =>
    rw [cancelDots]
    split
    · exact ih (mt List.mem_of_mem_tail h)
    · rename_i hname
      exact ih (by simp [h, Ne.symm hname])

theorem dots_not_mem_resolve (p workingDirectory : Path) :
    Text.ofString ".." ∉ (p.resolve workingDirectory).names :=
  dots_not_mem_cancelDots List.not_mem_nil _

end Path

end ModuleDocs
