import Mathlib
import ModuleDocs.Proofs.Term.Cursor

/-!
# Reading depends only on the bytes that are read

`Decoder.IsLocal d` says that when the step `d` gives a value, it has taken bytes at its
place which it takes wherever they stand and whatever follows.  So the step cannot see
how many bytes there are behind those it takes.

The reading steps are of this kind because `take` is (`isLocal_take`), and the property is
closed under sequencing and repetition; so is the reading of whole terms
(`Term.isLocal_decode`), for all bytes that are accepted and not only for those that are
written.
-/

namespace ModuleDocs

namespace Decoder

variable {α β : Type}

/-- What the step takes when it gives a value, it takes wherever that stands. -/
def IsLocal (d : Decoder α) : Prop :=
  ∀ (front rest : Bytes) (a : α) (s : Reader),
    d.run (Reader.ofBytes (front ++ rest) front.length) = (.ok a, s) →
      ∃ taken back, rest = taken ++ back ∧ Reads d taken a

/-- Where a local step stops. -/
theorem IsLocal.exists_reads {d : Decoder α} (hd : IsLocal d) {front rest : Bytes} {a : α}
    {s : Reader} (hrun : d.run (Reader.ofBytes (front ++ rest) front.length) = (.ok a, s)) :
    ∃ taken back, rest = taken ++ back ∧ Reads d taken a ∧
      s = Reader.ofBytes ((front ++ taken) ++ back) (front ++ taken).length := by
  obtain ⟨taken, back, rfl, hreads⟩ := hd front rest a s hrun
  refine ⟨taken, back, rfl, hreads, ?_⟩
  have hsame := (hrun.symm.trans (hreads front back))
  rw [List.append_assoc, List.length_append, Nat.cast_add]
  exact congrArg Prod.snd hsame

namespace IsLocal

/-! ## Chains of steps -/

theorem pure (a : α) : IsLocal (Pure.pure a) := by
  intro front rest b s hrun
  rw [run_pure] at hrun
  cases hrun
  exact ⟨[], rest, rfl, Reads.pure a⟩

theorem throw (e : DecodeError) : IsLocal (throw e : Decoder α) := by
  intro front rest a s hrun
  rw [run_throw] at hrun
  cases hrun

theorem bind {d : Decoder α} {f : α → Decoder β} (hd : IsLocal d) (hf : ∀ a, IsLocal (f a)) :
    IsLocal (d >>= f) := by
  intro front rest b s hrun
  obtain ⟨a, t, hfirst, hsecond⟩ := exists_of_run_bind_ok hrun
  obtain ⟨taken, back, rfl, hreads, rfl⟩ := hd.exists_reads hfirst
  obtain ⟨more, back, rfl, hreads'⟩ := hf a (front ++ taken) back b s hsecond
  refine ⟨taken ++ more, back, ?_, hreads.bind hreads'⟩
  rw [List.append_assoc]

/-- A step that only looks where it is before it fails. -/
theorem get_throw (e : Reader → DecodeError) :
    IsLocal (MonadState.get >>= fun r => MonadExcept.throw (e r) : Decoder α) := by
  intro front rest a s hrun
  rw [run_bind_of_ok (run_get _), run_throw] at hrun
  cases hrun

theorem repeatRead {d : Decoder α} (hd : IsLocal d) (n : Nat) (done : List α) :
    IsLocal (Decoder.repeatRead d done n) := by
  induction n generalizing done with
  | zero => exact pure done.reverse
  | succ n ih => exact bind hd fun a => ih (a :: done)

end IsLocal

open IsLocal

/-! ## Fields -/

/-- The bytes taken are the next ones, however many there are behind them. -/
theorem isLocal_take (n : Nat) : IsLocal (take n) := by
  intro front rest data s hrun
  rw [run_take_ofBytes] at hrun
  split at hrun
  · cases hrun
  rename_i henough
  have hlength : n ≤ rest.length := by
    rw [List.length_append] at henough
    omega
  have hdata : rest.take n = data := by
    rw [← Except.ok.inj (congrArg Prod.fst hrun), List.drop_left]
  have hreads := reads_take data
  rw [← hdata, List.length_take, Nat.min_eq_left hlength] at hreads
  refine ⟨rest.take n, rest.drop n, (List.take_append_drop n rest).symm, ?_⟩
  rw [← hdata]
  exact hreads

theorem isLocal_field (width : Nat) : IsLocal (field width) := by
  refine bind (isLocal_take width) fun data => ?_
  split
  · exact pure data
  · exact throw _

theorem isLocal_number (width : Nat) : IsLocal (number width) :=
  bind (isLocal_field width) fun data => pure (ofLittleEndian data)

theorem isLocal_double : IsLocal double :=
  bind (isLocal_number 8) fun n => pure (UInt64.ofNat n)

theorem isLocal_blob : IsLocal blob :=
  bind (isLocal_number 4) fun n => isLocal_take n

theorem isLocal_utf8 (data : Bytes) : IsLocal (utf8 data) := by
  unfold utf8
  split
  · exact pure _
  · exact throw _

theorem isLocal_shortString : IsLocal shortString :=
  bind (isLocal_number 2) fun n => bind (isLocal_take n) isLocal_utf8

theorem isLocal_longString : IsLocal longString :=
  bind isLocal_blob isLocal_utf8

end Decoder

/-! ## Terms -/

namespace Term

open Decoder IsLocal

theorem isLocal_decodeItem {read : Decoder Term} (hread : IsLocal read) :
    IsLocal (decodeItem read) := by
  refine bind hread fun key => bind hread fun value => ?_
  split
  · exact pure (key, value)
  · exact throw _

/-- However deep terms stand inside each other, a term is read from its own bytes. -/
theorem isLocal_decodeWithin (levels : Nat) : IsLocal (decodeWithin levels) := by
  induction levels with
  | zero => exact throw _
  | succ levels ih =>
    refine bind (isLocal_number 1) fun tag => ?_
    split
    case h_1 | h_2 | h_3 => exact pure _
    case h_4 => exact bind (isLocal_number 2) fun n => bind (isLocal_take n) fun _ => pure _
    case h_5 => exact bind isLocal_double fun _ => pure _
    case h_6 => exact bind isLocal_blob fun _ => pure _
    case h_7 | h_8 => exact bind isLocal_longString fun _ => pure _
    case h_9 => exact bind isLocal_shortString fun _ => bind isLocal_blob fun _ => pure _
    case h_10 | h_11 =>
      exact bind (isLocal_number 4) fun n => bind (repeatRead ih n []) fun _ => pure _
    case h_12 =>
      refine bind (isLocal_number 4) fun n => ?_
      exact bind (repeatRead (isLocal_decodeItem ih) n []) fun _ => pure _
    case h_13 => exact get_throw fun r => .unknownTag tag (r.pos - 1)

theorem isLocal_decode : IsLocal decode := isLocal_decodeWithin (maxDepth + 1)

end Term

end ModuleDocs
