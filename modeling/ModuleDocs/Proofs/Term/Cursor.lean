import Mathlib
import ModuleDocs.Term.Decode
import ModuleDocs.Proofs.Result
import ModuleDocs.Proofs.Term.Reader

/-!
# Reading stays within the bytes

`Decoder.StaysWithin d` says that the step `d`, begun at any place in a byte
string, ends at a place in it that is not before the first, and that an error
on the way is one that is told about bytes: a field never comes out short.
Every reading step is of this kind, because `take` looks at the size before it
moves (`staysWithin_take`) and the property is closed under sequencing and
repetition; so is the reading of whole terms (`Term.staysWithin_decode`),
whatever counts and lengths the bytes declare.
-/

namespace ModuleDocs

open Result

/-- An error that is told about bytes.  Only the one about a field that has come out short
is none. -/
def DecodeError.IsReported (e : DecodeError) : Prop := ∀ width, e ≠ .shortField width

namespace Decoder

variable {α β : Type}

/-- A run from a place in the bytes ends at a place in them, further on or the same, and
fails with reported errors only. -/
structure EndsWithin (d : Decoder α) (data : Bytes) (start : Nat) : Prop where
  reader : ∃ stop, start ≤ stop ∧ stop ≤ data.length ∧
    (d.run (Reader.ofBytes data start)).2 = Reader.ofBytes data stop
  failsWith : FailsWith DecodeError.IsReported (d.run (Reader.ofBytes data start)).1

/-- Runs from all places in all bytes end within the bytes. -/
def StaysWithin (d : Decoder α) : Prop :=
  ∀ (data : Bytes) (start : Nat), start ≤ data.length → EndsWithin d data start

/-! ## Chains of steps -/

/-- Of two steps the second only has to do with what the first gives. -/
theorem EndsWithin.bind {d : Decoder α} {f : α → Decoder β} {data : Bytes} {start : Nat}
    (hd : EndsWithin d data start)
    (hf : ∀ a (middle : Nat), d.run (Reader.ofBytes data start) = (.ok a, Reader.ofBytes data middle) →
      middle ≤ data.length → EndsWithin (f a) data middle) :
    EndsWithin (d >>= f) data start := by
  obtain ⟨⟨middle, hstart, hmiddle, hreader⟩, hfails⟩ := hd
  rcases hrun : d.run (Reader.ofBytes data start) with ⟨result, r⟩
  rw [hrun] at hreader hfails
  subst hreader
  cases result with
  | error e =>
    have hboth := run_bind_of_error (f := f) hrun
    constructor
    · exact ⟨middle, hstart, hmiddle, by rw [hboth]⟩
    · rw [hboth]
      exact FailsWith.error (hfails e rfl)
  | ok a =>
    have hboth := run_bind_of_ok (f := f) hrun
    obtain ⟨⟨stop, hmiddle', hstop, hreader⟩, hfails'⟩ := hf a middle hrun hmiddle
    constructor
    · exact ⟨stop, hstart.trans hmiddle', hstop, by rw [hboth, hreader]⟩
    · rw [hboth]
      exact hfails'

namespace StaysWithin

theorem pure (a : α) : StaysWithin (Pure.pure a) := by
  intro data start hstart
  exact ⟨⟨start, le_rfl, hstart, rfl⟩, FailsWith.ok a⟩

theorem throw {e : DecodeError} (he : e.IsReported) : StaysWithin (throw e : Decoder α) := by
  intro data start hstart
  exact ⟨⟨start, le_rfl, hstart, rfl⟩, FailsWith.error he⟩

theorem get : StaysWithin (MonadState.get : Decoder Reader) := by
  intro data start hstart
  exact ⟨⟨start, le_rfl, hstart, rfl⟩, FailsWith.ok _⟩

theorem bind {d : Decoder α} {f : α → Decoder β} (hd : StaysWithin d)
    (hf : ∀ a, StaysWithin (f a)) : StaysWithin (d >>= f) := by
  intro data start hstart
  apply EndsWithin.bind (hd data start hstart)
  intro a middle _ hmiddle
  exact hf a data middle hmiddle

theorem repeatRead {d : Decoder α} (hd : StaysWithin d) (n : Nat) (done : List α) :
    StaysWithin (Decoder.repeatRead d done n) := by
  induction n generalizing done with
  | zero => exact pure done.reverse
  | succ n ih => exact bind hd fun a => ih (a :: done)

end StaysWithin

open StaysWithin

/-! ## Fields -/

/-- As many bytes are taken as were asked for, or none. -/
theorem run_take_ofBytes (data : Bytes) (start n : Nat) :
    (take n).run (Reader.ofBytes data start)
      = if data.length < start + n then
          (.error (.unexpectedEnd start n), Reader.ofBytes data start)
        else (.ok ((data.drop start).take n), Reader.ofBytes data (start + n : Nat)) := by
  have hrest : (Reader.ofBytes data start).rest = data.drop start := by
    show data.drop (Reader.bytesBefore data.length start) = data.drop start
    rw [Reader.bytesBefore, if_neg (by omega), Int.toNat_natCast]
  have hwithin : (Reader.ofBytes data start).within n = n :=
    Reader.within_of_nonneg (by simp [Reader.ofBytes]) n
  split
  · rename_i hshort
    have hshort' : (Reader.ofBytes data start).size < (Reader.ofBytes data start).pos + n := by
      show (data.length : Int) < start + n
      omega
    rw [take, run_bind_of_ok (run_get _), if_pos hshort']
    rfl
  · rename_i henough
    have henough' : (Reader.ofBytes data start).pos + n ≤ (Reader.ofBytes data start).size := by
      show (start : Int) + n ≤ data.length
      omega
    rw [run_take_of_le henough', hrest, hwithin, Reader.skip_ofBytes]
    rfl

theorem staysWithin_take (n : Nat) : StaysWithin (take n) := by
  intro data start hstart
  have hrun := run_take_ofBytes data start n
  split at hrun
  · constructor
    · exact ⟨start, le_rfl, hstart, by rw [hrun]⟩
    · rw [hrun]
      exact FailsWith.error fun width h => by cases h
  · rename_i henough
    constructor
    · exact ⟨start + n, Nat.le_add_right start n, by omega, by rw [hrun]⟩
    · rw [hrun]
      exact FailsWith.ok _

/-- A field has its width, since `take` gives all bytes that it was asked for. -/
theorem staysWithin_field (width : Nat) : StaysWithin (field width) := by
  intro data start hstart
  apply EndsWithin.bind (staysWithin_take width data start hstart)
  intro taken middle hrun hmiddle
  rw [run_take_ofBytes] at hrun
  split at hrun
  · cases hrun
  · rename_i henough
    have htaken : (data.drop start).take width = taken := Except.ok.inj (congrArg Prod.fst hrun)
    have hlength : taken.length = width := by
      rw [← htaken, List.length_take, List.length_drop]
      omega
    rw [if_pos hlength]
    exact StaysWithin.pure taken data middle hmiddle

theorem staysWithin_number (width : Nat) : StaysWithin (number width) :=
  bind (staysWithin_field width) fun data => pure (ofLittleEndian data)

theorem staysWithin_double : StaysWithin double :=
  bind (staysWithin_number 8) fun n => pure (UInt64.ofNat n)

theorem staysWithin_blob : StaysWithin blob :=
  bind (staysWithin_number 4) fun n => staysWithin_take n

theorem staysWithin_utf8 (data : Bytes) : StaysWithin (utf8 data) := by
  unfold utf8
  split
  · exact pure _
  · exact throw fun width h => by cases h

theorem staysWithin_shortString : StaysWithin shortString :=
  bind (staysWithin_number 2) fun n => bind (staysWithin_take n) staysWithin_utf8

theorem staysWithin_longString : StaysWithin longString :=
  bind staysWithin_blob staysWithin_utf8

end Decoder

/-! ## Terms -/

namespace Term

open Decoder StaysWithin

theorem staysWithin_decodeItem {read : Decoder Term} (hread : StaysWithin read) :
    StaysWithin (decodeItem read) := by
  refine bind hread fun key => bind hread fun value => ?_
  split
  · exact pure (key, value)
  · exact throw fun width h => by cases h

/-- However deep terms stand inside each other, reading stays within the bytes. -/
theorem staysWithin_decodeWithin (levels : Nat) : StaysWithin (decodeWithin levels) := by
  induction levels with
  | zero => exact throw fun width h => by cases h
  | succ levels ih =>
    refine bind (staysWithin_number 1) fun tag => ?_
    split
    case h_1 | h_2 | h_3 => exact pure _
    case h_4 => exact bind (staysWithin_number 2) fun n => bind (staysWithin_take n) fun _ => pure _
    case h_5 => exact bind staysWithin_double fun _ => pure _
    case h_6 => exact bind staysWithin_blob fun _ => pure _
    case h_7 | h_8 => exact bind staysWithin_longString fun _ => pure _
    case h_9 => exact bind staysWithin_shortString fun _ => bind staysWithin_blob fun _ => pure _
    case h_10 | h_11 =>
      exact bind (staysWithin_number 4) fun n => bind (repeatRead ih n []) fun _ => pure _
    case h_12 =>
      refine bind (staysWithin_number 4) fun n => ?_
      exact bind (repeatRead (staysWithin_decodeItem ih) n []) fun _ => pure _
    case h_13 => exact bind get fun _ => throw fun width h => by cases h

theorem staysWithin_decode : StaysWithin decode := staysWithin_decodeWithin (maxDepth + 1)

end Term

end ModuleDocs
