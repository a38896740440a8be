import Mathlib
import ModuleDocs.Proofs.Term.Local

/-!
# The work of reading a term

A list, a tuple or a map declares how many terms stand in it, and bytes can declare any number at
each level.  How much work it is to read them is still a matter of how many bytes there are.
`Term.countWithin` is the reading of terms with a count of its calls.

* `Decoder.Advances d` says that the step `d` takes at least one byte whenever it gives a value.  To
  read as many values as were declared then takes as many bytes (`Decoder.Advances.le_repeatRead`).
* `Counting.CountedBy d m` says that `m` counts for `d`: it gives the same and ends at the same
  place, and on the way there it makes no more calls than bytes are taken, or one more if it fails.
  Each call takes the byte of a tag or is the last one (`Counting.CountedBy.call_tag`), and the
  property is closed under sequencing and repetition.

`Term.decode_isBounded` puts this together.
-/

namespace ModuleDocs

open Result

theorem Reader.ofBytes_inj {data data' : Bytes} {start start' : Nat}
    (h : Reader.ofBytes data start = Reader.ofBytes data' start') : start = start' :=
  Int.ofNat_inj.1 (congrArg Reader.pos h)

/-! ## Progress -/

namespace Decoder

variable {α β : Type} {d : Decoder α} {f : α → Decoder β}

/-- Whenever the step gives a value, it has taken a byte. -/
def Advances (d : Decoder α) : Prop :=
  ∀ (data : Bytes) (start stop : Nat) (a : α), start ≤ data.length →
    d.run (Reader.ofBytes data start) = (.ok a, Reader.ofBytes data stop) → start < stop

theorem StaysWithin.le_of_run (hd : StaysWithin d) {data : Bytes} {start stop : Nat}
    {result : Except DecodeError α} (hstart : start ≤ data.length)
    (hrun : d.run (Reader.ofBytes data start) = (result, Reader.ofBytes data stop)) :
    start ≤ stop ∧ stop ≤ data.length := by
  obtain ⟨stop', hle, hend, hreader⟩ := (hd data start hstart).reader
  rw [hrun] at hreader
  obtain rfl := Reader.ofBytes_inj hreader
  exact ⟨hle, hend⟩

/-- A run of two steps that gives a value goes through a place between its ends. -/
theorem StaysWithin.exists_middle (hd : StaysWithin d) {data : Bytes} {start : Nat} {s : Reader}
    {b : β} (hstart : start ≤ data.length)
    (hrun : (d >>= f).run (Reader.ofBytes data start) = (.ok b, s)) :
    ∃ a middle, middle ≤ data.length ∧
      d.run (Reader.ofBytes data start) = (.ok a, Reader.ofBytes data middle) ∧
      (f a).run (Reader.ofBytes data middle) = (.ok b, s) := by
  obtain ⟨a, t, hfirst, hsecond⟩ := exists_of_run_bind_ok hrun
  obtain ⟨middle, _, hmiddle, hreader⟩ := (hd data start hstart).reader
  rw [hfirst] at hreader
  cases hreader
  exact ⟨a, middle, hmiddle, hfirst, hsecond⟩

namespace Advances

theorem bind (h : Advances d) (hd : StaysWithin d) (hf : ∀ a, StaysWithin (f a)) :
    Advances (d >>= f) := by
  intro data start stop b hstart hrun
  obtain ⟨a, middle, hmiddle, hfirst, hsecond⟩ := hd.exists_middle hstart hrun
  exact (h data start middle a hstart hfirst).trans_le ((hf a).le_of_run hmiddle hsecond).1

/-- To read `n` values takes `n` bytes. -/
theorem le_repeatRead (h : Advances d) (hd : StaysWithin d) {n : Nat} {done values : List α}
    {data : Bytes} {start stop : Nat} (hstart : start ≤ data.length)
    (hrun : (repeatRead d done n).run (Reader.ofBytes data start)
      = (.ok values, Reader.ofBytes data stop)) : start + n ≤ stop := by
  induction n generalizing done start with
  | zero =>
    have hsame := Reader.ofBytes_inj (congrArg Prod.snd hrun)
    omega
  | succ n ih =>
    obtain ⟨a, middle, hmiddle, hfirst, hsecond⟩ := hd.exists_middle hstart hrun
    have hone := h data start middle a hstart hfirst
    have hrest := ih hmiddle hsecond
    omega

/-- A local step that gives nothing where there are no bytes takes one wherever it gives a
value. -/
theorem of_isLocal (hd : IsLocal d) (hempty : (d.run (Reader.ofBytes [] 0)).1.isOk = false) :
    Advances d := by
  intro data start stop a hstart hrun
  obtain ⟨front, rest, rfl, rfl⟩ : ∃ front rest, data = front ++ rest ∧ start = front.length :=
    ⟨data.take start, data.drop start, by simp, by simp [hstart]⟩
  obtain ⟨taken, back, rfl, hreads, hreader⟩ := hd.exists_reads hrun
  have hstop := Reader.ofBytes_inj hreader
  cases taken with
  | nil =>
    have hnothing := hreads [] []
    simp only [List.append_nil, List.length_nil, Nat.cast_zero] at hnothing
    rw [hnothing] at hempty
    cases hempty
  | cons b taken =>
    rw [List.length_append, List.length_cons] at hstop
    omega

theorem tag : Advances (number 1) := of_isLocal (isLocal_number 1) rfl

/-- Of as many values as a count declares each takes a byte behind it. -/
theorem le_of_count (h : Advances d) (hd : StaysWithin d) {f : List α → Decoder β} {count : Nat}
    (hcount : count < 256 ^ 4) {front rest : Bytes} {b : β} {s : Reader}
    (hrun : (do f (← repeatRead d [] (← Decoder.number 4))).run
      (Reader.ofBytes (front ++ (littleEndian 4 count ++ rest)) front.length) = (.ok b, s)) :
    count ≤ rest.length := by
  rw [run_bind_of_ok (reads_number hcount front rest), ← Nat.cast_add] at hrun
  have hplace : front.length + (littleEndian 4 count).length
      ≤ (front ++ (littleEndian 4 count ++ rest)).length := by simp
  obtain ⟨values, middle, hmiddle, hvalues, _⟩ := (hd.repeatRead count []).exists_middle hplace hrun
  have hle := h.le_repeatRead hd hplace hvalues
  simp only [List.length_append] at hmiddle
  omega

end Advances

end Decoder

/-! ## Counting calls -/

/-- A reading step that counts calls. -/
abbrev Counting := ExceptT DecodeError (StateM (Reader × Nat))

namespace Counting

variable {α β : Type}

/-- A step in which nothing is called. -/
def ofDecoder (d : Decoder α) : Counting α :=
  ExceptT.mk fun (r, calls) => ((d.run r).1, (d.run r).2, calls)

instance : MonadLift Decoder Counting := ⟨ofDecoder⟩

/-- Counts a call in front of a step. -/
def call (m : Counting α) : Counting α := ExceptT.mk fun (r, calls) => m.run (r, calls + 1)

theorem run_call (m : Counting α) (r : Reader) (calls : Nat) :
    (call m).run (r, calls) = m.run (r, calls + 1) := rfl

theorem call_bind (m : Counting α) (f : α → Counting β) : call (m >>= f) = call m >>= f := rfl

theorem run_bind (m : Counting α) (f : α → Counting β) (s : Reader × Nat) :
    (m >>= f).run s = ExceptT.bindCont f (m.run s).1 (m.run s).2 := rfl

/-- There are as many bytes taken as calls made, or one less if it was a failure. -/
def IsPaid (taken made : Nat) : Except DecodeError α → Prop
  | .ok _ => made ≤ taken
  | .error _ => made ≤ taken + 1

/-- `m` does what `d` does, and the calls that it makes on the way are paid in bytes. -/
structure CountedBy (d : Decoder α) (m : Counting α) : Prop where
  stays : Decoder.StaysWithin d
  counts : ∀ (data : Bytes) (start stop calls : Nat) (result : Except DecodeError α),
    start ≤ data.length → d.run (Reader.ofBytes data start) = (result, Reader.ofBytes data stop) →
      ∃ made, m.run (Reader.ofBytes data start, calls)
          = (result, Reader.ofBytes data stop, calls + made) ∧ IsPaid (stop - start) made result

namespace CountedBy

variable {d : Decoder α} {m : Counting α} {f : α → Decoder β} {g : α → Counting β}

theorem ofDecoder (hd : Decoder.StaysWithin d) : CountedBy d (Counting.ofDecoder d) := by
  refine ⟨hd, fun data start stop calls result _ hrun => ⟨0, ?_, ?_⟩⟩
  · change ((d.run _).1, (d.run _).2, calls) = _
    rw [hrun]
    rfl
  · cases result <;> exact Nat.zero_le _

theorem pure (a : α) : CountedBy (Pure.pure a) (Pure.pure a : Counting α) :=
  ofDecoder (Decoder.StaysWithin.pure a)

/-- A call that fails at once is the last one. -/
theorem call_throw {e : DecodeError} (he : e.IsReported) :
    CountedBy (throw e : Decoder α) (call (Counting.ofDecoder (throw e))) := by
  refine ⟨Decoder.StaysWithin.throw he, fun data start stop calls result _ hrun => ?_⟩
  rw [Decoder.run_throw] at hrun
  obtain ⟨rfl, hreader⟩ := Prod.mk.inj hrun
  refine ⟨1, ?_, Nat.le_add_left 1 _⟩
  rw [run_call, ← hreader]
  rfl

/-- A call takes the byte of its tag, or there is none. -/
theorem call_tag : CountedBy (Decoder.number 1) (call (Counting.ofDecoder (Decoder.number 1))) := by
  refine ⟨Decoder.staysWithin_number 1, fun data start stop calls result hstart hrun => ⟨1, ?_, ?_⟩⟩
  · change (((Decoder.number 1).run _).1, ((Decoder.number 1).run _).2, calls + 1) = _
    rw [hrun]
  · cases result with
    | ok tag => exact Nat.sub_pos_of_lt (Decoder.Advances.tag data start stop tag hstart hrun)
    | error e => exact Nat.le_add_left 1 _

theorem bind (hd : CountedBy d m) (hf : ∀ a, CountedBy (f a) (g a)) :
    CountedBy (d >>= f) (m >>= g) := by
  refine ⟨hd.stays.bind fun a => (hf a).stays, fun data start stop calls result hstart hrun => ?_⟩
  obtain ⟨middle, hle, hmiddle, hreader⟩ := (hd.stays data start hstart).reader
  rcases hfirst : d.run (Reader.ofBytes data start) with ⟨e | a, s⟩
  · rw [hfirst] at hreader
    cases hreader
    rw [Decoder.run_bind_of_error hfirst] at hrun
    obtain ⟨rfl, hreader⟩ := Prod.mk.inj hrun
    obtain rfl := Reader.ofBytes_inj hreader
    obtain ⟨made, hmade, hpaid⟩ := hd.counts data start _ calls _ hstart hfirst
    refine ⟨made, ?_, hpaid⟩
    rw [run_bind, hmade]
    rfl
  · rw [hfirst] at hreader
    cases hreader
    rw [Decoder.run_bind_of_ok hfirst] at hrun
    obtain ⟨made, hmade, hpaid⟩ := hd.counts data start middle calls _ hstart hfirst
    obtain ⟨more, hmore, hpaid'⟩ :=
      (hf a).counts data middle stop (calls + made) result hmiddle hrun
    have hstop := ((hf a).stays.le_of_run hmiddle hrun).1
    refine ⟨made + more, ?_, ?_⟩
    · rw [run_bind, hmade, ← Nat.add_assoc, ← hmore]
      rfl
    · have hpaid : made ≤ middle - start := hpaid
      cases result with
      | ok b =>
        have hpaid' : more ≤ stop - middle := hpaid'
        show made + more ≤ stop - start
        omega
      | error e =>
        have hpaid' : more ≤ stop - middle + 1 := hpaid'
        show made + more ≤ stop - start + 1
        omega

theorem repeatRead (h : CountedBy d m) (n : Nat) (done : List α) :
    CountedBy (Decoder.repeatRead d done n) (Decoder.repeatRead m done n) := by
  induction n generalizing done with
  | zero => exact pure done.reverse
  | succ n ih => exact bind h fun a => ih (a :: done)

end CountedBy

end Counting

/-! ## Terms -/

namespace Term

open Decoder StaysWithin

/-- Reads a term of which at most `levels` stand inside each other, and counts the terms that are
begun, this one included. -/
def countWithin (levels : Nat) : Counting Term := decodeBy Counting.call levels

theorem countedBy_decodeItem {read : Decoder Term} {m : Counting Term}
    (h : Counting.CountedBy read m) : Counting.CountedBy (decodeItem read) (decodeItem m) := by
  refine h.bind fun key => h.bind fun value => ?_
  split
  · exact Counting.CountedBy.pure (key, value)
  · exact Counting.CountedBy.ofDecoder (throw fun width h => by cases h)

/-- The calls for a term are counted, and paid in bytes. -/
theorem countedBy_countWithin (levels : Nat) :
    Counting.CountedBy (decodeWithin levels) (countWithin levels) := by
  induction levels with
  | zero => exact Counting.CountedBy.call_throw fun width h => by cases h
  | succ levels ih =>
    rw [countWithin, decodeBy, Counting.call_bind]
    refine Counting.CountedBy.call_tag.bind fun tag => ?_
    have hnumber := Counting.CountedBy.ofDecoder (staysWithin_number 4)
    split
    case h_1 | h_2 | h_3 => exact Counting.CountedBy.pure _
    case h_4 =>
      exact (Counting.CountedBy.ofDecoder (staysWithin_number 2)).bind fun n =>
        (Counting.CountedBy.ofDecoder (staysWithin_take n)).bind fun _ => .pure _
    case h_5 => exact (Counting.CountedBy.ofDecoder staysWithin_double).bind fun _ => .pure _
    case h_6 => exact (Counting.CountedBy.ofDecoder staysWithin_blob).bind fun _ => .pure _
    case h_7 | h_8 =>
      exact (Counting.CountedBy.ofDecoder staysWithin_longString).bind fun _ => .pure _
    case h_9 =>
      exact (Counting.CountedBy.ofDecoder staysWithin_shortString).bind fun _ =>
        (Counting.CountedBy.ofDecoder staysWithin_blob).bind fun _ => .pure _
    case h_10 | h_11 => exact hnumber.bind fun n => (ih.repeatRead n []).bind fun _ => .pure _
    case h_12 =>
      refine hnumber.bind fun n => ?_
      exact ((countedBy_decodeItem ih).repeatRead n []).bind fun _ => .pure _
    case h_13 => exact .ofDecoder (bind get fun _ => throw fun width h => by cases h)

theorem advances_decodeWithin (levels : Nat) : Advances (decodeWithin levels) := by
  refine Advances.of_isLocal (isLocal_decodeWithin levels) ?_
  cases levels <;> rfl

theorem advances_decodeItem (levels : Nat) : Advances (decodeItem (decodeWithin levels)) := by
  have hstays := staysWithin_decodeWithin levels
  refine (advances_decodeWithin levels).bind hstays fun key => bind hstays fun value => ?_
  split
  · exact pure (key, value)
  · exact throw fun width h => by cases h

/-- The number of items that a list, a tuple or a map declares is not greater than the number of
bytes behind it. -/
theorem le_of_decodeWithin {levels tag count : Nat} {front rest : Bytes} {t : Term} {s : Reader}
    (htag : tag ∈ [9, 10, 11]) (hcount : count < 256 ^ 4)
    (hrun : (decodeWithin levels).run (Reader.ofBytes
      (front ++ (UInt8.ofNat tag :: (littleEndian 4 count ++ rest))) front.length) = (.ok t, s)) :
      count ≤ rest.length := by
  cases levels with
  | zero => cases hrun
  | succ levels =>
    have hstays := staysWithin_decodeWithin levels
    have hbyte : tag < 256 := by
      simp only [List.mem_cons, List.not_mem_nil, or_false] at htag
      omega
    have htagged := reads_tag hbyte front (littleEndian 4 count ++ rest)
    rw [List.singleton_append] at htagged
    have hplace : (front.length : Int) + [UInt8.ofNat tag].length
        = (front ++ [UInt8.ofNat tag]).length := by simp
    have hrun := (run_bind_of_ok htagged).symm.trans hrun
    rw [hplace, List.append_cons] at hrun
    simp only [List.mem_cons, List.not_mem_nil, or_false] at htag
    rcases htag with rfl | rfl | rfl
    · exact (advances_decodeWithin levels).le_of_count hstays hcount hrun
    · exact (advances_decodeWithin levels).le_of_count hstays hcount hrun
    · exact (advances_decodeItem levels).le_of_count (staysWithin_decodeItem hstays) hcount hrun

/-- From whatever place in bytes a term is read, reading ends within the bytes behind it, and
further on if there is a term.  A list, a tuple or a map that declares more items than there are
bytes behind is refused.  There are at most as many calls as bytes, and one more. -/
theorem decode_isBounded (front back : Bytes) (levels : Nat) :
    ∃ (result : Except DecodeError Term) (stop calls : Nat),
      (decodeWithin levels).run (Reader.ofBytes (front ++ back) front.length)
        = (result, Reader.ofBytes (front ++ back) stop) ∧
      front.length ≤ stop ∧ stop ≤ (front ++ back).length ∧
      (∀ t, result = .ok t → front.length < stop) ∧
      (∀ tag ∈ [9, 10, 11], ∀ count < 256 ^ 4, ∀ rest,
        back = UInt8.ofNat tag :: (littleEndian 4 count ++ rest) → rest.length < count →
          ∃ e, result = .error e ∧ e.IsReported) ∧
      (countWithin levels).run (Reader.ofBytes (front ++ back) front.length, 0)
        = (result, Reader.ofBytes (front ++ back) stop, calls) ∧
      calls ≤ back.length + 1 := by
  have hcounted := countedBy_countWithin levels
  have hplace : front.length ≤ (front ++ back).length := by simp
  obtain ⟨⟨stop, hstart, hend, hreader⟩, hfails⟩ := hcounted.stays (front ++ back) _ hplace
  set result := ((decodeWithin levels).run (Reader.ofBytes (front ++ back) front.length)).1
    with hresult
  have hrun : (decodeWithin levels).run (Reader.ofBytes (front ++ back) front.length)
      = (result, Reader.ofBytes (front ++ back) stop) := Prod.ext rfl hreader
  obtain ⟨calls, hcalls, hpaid⟩ := hcounted.counts _ _ _ 0 _ hplace hrun
  refine ⟨result, stop, calls, hrun, hstart, hend, ?_, ?_, ?_, ?_⟩
  · intro t ht
    rw [ht] at hrun
    exact advances_decodeWithin levels _ _ _ t hplace hrun
  · intro tag htag count hcount rest hback hshort
    cases hfound : result with
    | ok t =>
      rw [hfound, hback] at hrun
      have hle := le_of_decodeWithin htag hcount hrun
      omega
    | error e => exact ⟨e, rfl, hfails e hfound⟩
  · rwa [Nat.zero_add] at hcalls
  · rw [List.length_append] at hend
    cases hfound : result with
    | ok t =>
      rw [hfound] at hpaid
      have hpaid : calls ≤ stop - front.length := hpaid
      omega
    | error e =>
      rw [hfound] at hpaid
      have hpaid : calls ≤ stop - front.length + 1 := hpaid
      omega

end Term

end ModuleDocs
