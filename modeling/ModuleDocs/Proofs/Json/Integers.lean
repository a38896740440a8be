import Mathlib
import ModuleDocs.Json.Reader
import ModuleDocs.Proofs.Result

/-!
# Integers that are refused

The reader goes over a text from the front to the back, so that each cursor has an ending of the
text before it (`Reads`).  It refuses an integer only where more digits stand in a row than an
integer may have: `hasLongRun_of_read`.
-/

namespace ModuleDocs.Json

open Result

/-- Somewhere in the text, more digits stand in a row than an integer may have. -/
def HasLongRun (t : Text) : Prop :=
  ∃ digits, digits <:+: t ∧ (∀ c ∈ digits, c.isDigit = true) ∧ Decimal.maxDigits < digits.length

theorem HasLongRun.of_suffix {t u : Text} (h : HasLongRun t) (htu : t <:+ u) : HasLongRun u := by
  obtain ⟨digits, hinfix, hdigits⟩ := h
  exact ⟨digits, hinfix.trans htu.isInfix, hdigits⟩

/-- A step that starts at a cursor goes on behind it, and refuses an integer only if there are
too many digits in a row. -/
def Reads {α : Type} (c : Cursor) (x : Except ReadError (α × Cursor)) : Prop :=
  Meets (fun e => ∀ error, e.cause = .integer error → HasLongRun c.rest)
    (fun read => read.2.rest <:+ c.rest) x

variable {α β : Type} {c c' : Cursor}

namespace Reads

theorem ok {a : α} (h : c'.rest <:+ c.rest) : Reads c (.ok (a, c')) := Meets.ok h

theorem error {e : ReadError} (h : ∀ error, e.cause ≠ .integer error) :
    Reads c (.error e : Except ReadError (α × Cursor)) :=
  ⟨FailsWith.error fun error herror => absurd herror (h error), nofun⟩

/-- What holds behind a cursor holds at it. -/
theorem of_suffix {x : Except ReadError (α × Cursor)} (h : Reads c' x)
    (hsuffix : c'.rest <:+ c.rest) : Reads c x where
  failsWith := h.failsWith.imp fun _ he error herror => (he error herror).of_suffix hsuffix
  gives := fun a ha => (h.gives a ha).trans hsuffix

theorem bind {x : Except ReadError (α × Cursor)} {f : α × Cursor → Except ReadError (β × Cursor)}
    (hx : Reads c x) (hf : ∀ a c', c'.rest <:+ c.rest → Reads c' (f (a, c'))) :
    Reads c (x >>= f) :=
  Meets.bind hx fun (a, c') hsuffix => (hf a c' hsuffix).of_suffix hsuffix

end Reads

/-! ## Cursors -/

namespace Cursor

theorem advance_suffix (c : Cursor) (n : Nat) : (c.advance n).rest <:+ c.rest :=
  List.drop_suffix n c.rest

theorem skipSpace_suffix (c : Cursor) : c.skipSpace.rest <:+ c.rest := c.advance_suffix _

theorem skipSpace_advance_suffix (c : Cursor) (n : Nat) :
    (c.skipSpace.advance n).rest <:+ c.rest :=
  (c.skipSpace.advance_suffix n).trans c.skipSpace_suffix

theorem advance_skipSpace_suffix (c : Cursor) (n : Nat) :
    (c.advance n).skipSpace.rest <:+ c.rest :=
  (c.advance n).skipSpace_suffix.trans (c.advance_suffix n)

end Cursor

/-! ## Numbers -/

theorem length_of_integerOf {negative : Bool} {digits : Text} {error : Decimal.TooLong}
    (h : integerOf negative digits = .error error) : Decimal.maxDigits < digits.length := by
  rcases bind_eq_error_iff.1 h with hallow | ⟨_, -, hvalue⟩
  · unfold Decimal.allow at hallow
    split at hallow
    · assumption
    · cases hallow
  · cases hvalue

/-- Without its sign, a number begins with a zero that stands alone, or with a row of digits. -/
theorem hasLongRun_of_whole {body : Text} (h : Decimal.maxDigits <
    (if body.head? = some (CodePoint.ofChar '0') then body.take 1 else digitsOf body).length) :
    HasLongRun body := by
  split at h
  · have hone : (body.take 1).length ≤ 1 := List.length_take_le 1 body
    have hmany : 1 < Decimal.maxDigits := by decide
    omega
  · exact ⟨digitsOf body, (List.takeWhile_prefix _).isInfix,
      fun _ hc => List.mem_takeWhile_imp hc, h⟩

theorem hasLongRun_of_number? {t : Text} {length : Nat} {error : Decimal.TooLong}
    (h : number? t = some (length, .error error)) : HasLongRun t := by
  unfold number? at h
  extract_lets negative body whole at h
  split at h
  · cases h
  split at h
  · split at h
    · have hlong := length_of_integerOf (Prod.mk.inj (Option.some.inj h)).2
      refine (hasLongRun_of_whole hlong).of_suffix ?_
      unfold body
      split
      · exact List.tail_suffix t
      · exact List.suffix_refl t
    · cases h
  · cases h

theorem reads_readScalar (c : Cursor) : Reads c (readScalar c) := by
  unfold readScalar
  split
  · exact Reads.ok (c.advance_suffix _)
  split
  · exact Reads.ok (c.advance_suffix _)
  · rename_i hnumber
    refine ⟨FailsWith.error fun _ _ => hasLongRun_of_number? hnumber, by nofun⟩
  · exact Reads.error nofun

/-! ## Strings -/

theorem reads_stringBody (start position : Nat) (done t : Text) :
    Reads ⟨position, t⟩ (stringBody start position done t) := by
  fun_induction stringBody start position done t with
  | case2 => exact Reads.ok (List.suffix_cons _ _)
  | case4 =>
    rename_i ih
    exact ih.of_suffix (List.suffix_cons _ _)
  | case6 =>
    rename_i ih
    exact ih.of_suffix (List.drop_suffix 2 (_ :: _ :: _))
  | case11 =>
    rename_i ih
    exact ih.of_suffix
      (List.drop_suffix 12 (_ :: _ :: _ :: _ :: _ :: _ :: _ :: _ :: _ :: _ :: _ :: _ :: _))
  | case12 | case13 | case14 =>
    rename_i ih
    exact ih.of_suffix (List.drop_suffix 6 (_ :: _ :: _ :: _ :: _ :: _ :: _))
  | _ => exact Reads.error nofun

theorem reads_readString (c : Cursor) : Reads c (readString c) :=
  (reads_stringBody _ _ _ _).of_suffix (List.tail_suffix c.rest)

/-! ## Values -/

theorem reads_values (fuel : Nat) : (∀ c, Reads c (readValue fuel c)) ∧
    (∀ done c, Reads c (readItems fuel done c)) ∧
    ∀ done c, Reads c (readMembers fuel done c) := by
  induction fuel with
  | zero =>
    refine ⟨fun c => ?_, fun done c => ?_, fun done c => ?_⟩
    · exact Reads.error nofun
    · exact Reads.error nofun
    · exact Reads.error nofun
  | succ fuel ih =>
    obtain ⟨hvalue, hitems, hmembers⟩ := ih
    refine ⟨fun c => ?_, fun done c => ?_, fun done c => ?_⟩
    · rw [readValue]
      split
      · exact (reads_readString c).bind fun t c' hc' => Reads.ok (List.suffix_refl _)
      split
      · dsimp only
        split
        · exact Reads.ok ((Cursor.advance_suffix _ _).trans (c.advance_skipSpace_suffix 1))
        · exact (hitems _ _).of_suffix (c.advance_skipSpace_suffix 1)
      split
      · dsimp only
        split
        · exact Reads.ok ((Cursor.advance_suffix _ _).trans (c.advance_skipSpace_suffix 1))
        · exact (hmembers _ _).of_suffix (c.advance_skipSpace_suffix 1)
      · exact reads_readScalar c
    · rw [readItems]
      refine (hvalue c).bind fun item c' hc' => ?_
      dsimp only
      split
      · exact Reads.ok (c'.skipSpace_advance_suffix 1)
      split
      · exact (hitems _ _).of_suffix
          ((Cursor.skipSpace_suffix _).trans (c'.skipSpace_advance_suffix 1))
      · exact Reads.error nofun
    · rw [readMembers]
      split
      · exact Reads.error nofun
      refine (reads_readString c).bind fun name c' hc' => ?_
      dsimp only
      split
      · exact Reads.error nofun
      have hvalue' : Reads c' (readValue fuel (c'.skipSpace.advance 1).skipSpace) :=
        (hvalue _).of_suffix ((Cursor.skipSpace_suffix _).trans (c'.skipSpace_advance_suffix 1))
      refine hvalue'.bind fun value c'' _ => ?_
      dsimp only
      split
      · exact Reads.ok (c''.skipSpace_advance_suffix 1)
      split
      · exact (hmembers _ _).of_suffix
          ((Cursor.skipSpace_suffix _).trans (c''.skipSpace_advance_suffix 1))
      · exact Reads.error nofun

/-- An integer is refused only if more digits stand in a row than an integer may have. -/
theorem hasLongRun_of_read {source : Text} {error : Decimal.TooLong} {position : Nat}
    (h : read source = .error ⟨.integer error, position⟩) : HasLongRun source := by
  unfold read at h
  split at h
  · cases h
  have hreads := ((reads_values (2 * source.length + 2)).1 _).of_suffix
    (Cursor.skipSpace_suffix ⟨0, source⟩)
  rcases bind_eq_error_iff.1 h with hvalue | ⟨⟨value, c⟩, -, hend⟩
  · exact hreads.failsWith _ hvalue _ rfl
  · dsimp only at hend
    split at hend
    · cases hend
    · cases hend

end ModuleDocs.Json
