import Mathlib
import ModuleDocs.Term.Encode
import ModuleDocs.Term.Reader
import ModuleDocs.Proofs.Number.LittleEndian
import ModuleDocs.Proofs.Text.Utf8

/-!
# What a reading step takes

`Decoder.Reads d data a` says that the step `d` takes the bytes `data` and gives
`a`, wherever they stand and whatever follows.  It is closed under sequencing
(`Reads.bind`), so that a format is read field by field, and each length prefix
of `Term.Encode` has its lemma here.  `Reads.unique` turns reading into
injectivity of writing.  `Decoder.Gives d P` says that the step `d` gives nothing
without the property `P`.
-/

namespace ModuleDocs

namespace Decoder

variable {α β : Type}

/-! ## Runs -/

theorem run_pure (a : α) (r : Reader) : (pure a : Decoder α).run r = (.ok a, r) := rfl

theorem run_throw (e : DecodeError) (r : Reader) : (throw e : Decoder α).run r = (.error e, r) :=
  rfl

theorem run_get (r : Reader) : (get : Decoder Reader).run r = (.ok r, r) := rfl

theorem run_set (r s : Reader) : (set s : Decoder PUnit).run r = (.ok ⟨⟩, s) := rfl

private theorem run_bind (d : Decoder α) (f : α → Decoder β) (r : Reader) :
    (d >>= f).run r = ExceptT.bindCont f (d.run r).1 (d.run r).2 := rfl

/-- A run of two steps goes on where the first ends. -/
theorem run_bind_of_ok {d : Decoder α} {f : α → Decoder β} {r s : Reader} {a : α}
    (h : d.run r = (.ok a, s)) : (d >>= f).run r = (f a).run s := by
  rw [run_bind, h]
  rfl

theorem run_bind_of_error {d : Decoder α} {f : α → Decoder β} {r s : Reader} {e : DecodeError}
    (h : d.run r = (.error e, s)) : (d >>= f).run r = (.error e, s) := by
  rw [run_bind, h]
  rfl

/-- A run of two steps that gives a value is a run of each. -/
theorem exists_of_run_bind_ok {d : Decoder α} {f : α → Decoder β} {r s : Reader} {b : β}
    (h : (d >>= f).run r = (.ok b, s)) :
    ∃ a t, d.run r = (.ok a, t) ∧ (f a).run t = (.ok b, s) := by
  rcases hd : d.run r with ⟨_ | a, t⟩
  · rw [run_bind_of_error hd] at h
    cases h
  · rw [run_bind_of_ok hd] at h
    exact ⟨a, t, rfl, h⟩

/-! ## Steps on the bytes they take -/

/-- The step takes `data` and gives `a`, whatever stands around. -/
def Reads (d : Decoder α) (data : Bytes) (a : α) : Prop :=
  ∀ front back : Bytes,
    d.run (Reader.ofBytes (front ++ (data ++ back)) front.length)
      = (.ok a, Reader.ofBytes (front ++ (data ++ back)) (front.length + data.length))

theorem Reads.pure (a : α) : Reads (pure a) [] a := by
  intro front back
  simp [run_pure]

/-- Two steps take what they take one after the other. -/
theorem Reads.bind {d : Decoder α} {f : α → Decoder β} {x y : Bytes} {a : α} {b : β}
    (hd : Reads d x a) (hf : Reads (f a) y b) : Reads (d >>= f) (x ++ y) b := by
  intro front back
  have h1 := hd front (y ++ back)
  have h2 := hf (front ++ x) back
  rw [List.append_assoc x] at *
  rw [run_bind_of_ok h1]
  simpa [List.append_assoc, add_assoc] using h2

/-- A step whose value is only passed on takes the same bytes. -/
theorem Reads.bind_pure {d : Decoder α} {data : Bytes} {a : α} (h : Reads d data a) (f : α → β) :
    Reads (d >>= fun a => Pure.pure (f a)) data (f a) := by
  simpa using h.bind (f := fun a => Pure.pure (f a)) (Reads.pure (f a))

/-- What a step gives on given bytes is one value. -/
theorem Reads.unique {d : Decoder α} {data : Bytes} {a b : α} (ha : Reads d data a)
    (hb : Reads d data b) : a = b := by
  have h := (ha [] []).symm.trans (hb [] [])
  exact Except.ok.inj (congrArg Prod.fst h)

/-- The step takes the last bytes `data` and gives `a`, whatever stands before them. -/
def ReadsLast (d : Decoder α) (data : Bytes) (a : α) : Prop :=
  ∀ front : Bytes,
    d.run (Reader.ofBytes (front ++ data) front.length)
      = (.ok a, Reader.ofBytes (front ++ data) (front.length + data.length))

/-- The last of two steps may ask whether bytes are left. -/
theorem Reads.bind_last {d : Decoder α} {f : α → Decoder β} {x y : Bytes} {a : α} {b : β}
    (hd : Reads d x a) (hf : ReadsLast (f a) y b) :
    ReadsLast (d >>= f) (x ++ y) b := by
  intro front
  have h1 := hd front y
  have h2 := hf (front ++ x)
  rw [run_bind_of_ok h1]
  simpa [List.append_assoc, add_assoc] using h2

/-! ## What steps give -/

/-- Whatever the step gives, on whatever bytes, has the property. -/
def Gives (d : Decoder α) (P : α → Prop) : Prop :=
  ∀ (r s : Reader) (a : α), d.run r = (.ok a, s) → P a

theorem Gives.any (d : Decoder α) : Gives d fun _ => True := fun _ _ _ _ => trivial

theorem Gives.pure {P : α → Prop} {a : α} (h : P a) : Gives (pure a) P := by
  intro r s b hrun
  rw [run_pure] at hrun
  cases hrun
  exact h

theorem Gives.throw {P : α → Prop} (e : DecodeError) : Gives (throw e) P := by
  intro r s b hrun
  rw [run_throw] at hrun
  cases hrun

theorem Gives.and {P Q : α → Prop} {d : Decoder α} (hP : Gives d P) (hQ : Gives d Q) :
    Gives d fun a => P a ∧ Q a := fun r s a hrun => ⟨hP r s a hrun, hQ r s a hrun⟩

theorem Gives.bind {P : α → Prop} {Q : β → Prop} {d : Decoder α} {f : α → Decoder β}
    (hd : Gives d P) (hf : ∀ a, P a → Gives (f a) Q) : Gives (d >>= f) Q := by
  intro r s b hrun
  obtain ⟨a, t, hfirst, hsecond⟩ := exists_of_run_bind_ok hrun
  exact hf a (hd r t a hfirst) t s b hsecond

theorem Gives.repeatRead {P : α → Prop} {d : Decoder α} (hd : Gives d P) {done : List α}
    (hdone : ∀ a ∈ done, P a) (n : Nat) : Gives (repeatRead d done n) fun as => ∀ a ∈ as, P a := by
  induction n generalizing done with
  | zero => exact Gives.pure (by simpa using hdone)
  | succ n ih =>
    refine Gives.bind hd fun a ha => ih ?_
    intro b hb
    rcases List.mem_cons.1 hb with rfl | hb
    · exact ha
    · exact hdone b hb

/-! ## Fields -/

/-- Bytes are taken as far as there are so many. -/
theorem run_take_of_le {r : Reader} {n : Nat} (h : r.pos + n ≤ r.size) :
    (take n).run r = (.ok (r.rest.take (r.within n)), r.skip n) := by
  rw [take, run_bind_of_ok (run_get r), if_neg (by omega), run_bind_of_ok (run_set r _)]
  rfl

theorem reads_take (data : Bytes) : Reads (take data.length) data data := by
  intro front back
  set whole := front ++ (data ++ back) with hwhole
  have hfits : (Reader.ofBytes whole front.length).pos + data.length
      ≤ (Reader.ofBytes whole front.length).size := by
    simp only [Reader.ofBytes, hwhole, List.length_append]
    omega
  have hwithin : (Reader.ofBytes whole front.length).within data.length = data.length :=
    Reader.within_of_nonneg (by simp [Reader.ofBytes]) _
  have hrest : (Reader.ofBytes whole front.length).rest = data ++ back := by
    simp [Reader.ofBytes, Reader.bytesBefore, hwhole]
  rw [run_take_of_le hfits, hwithin, hrest, Reader.skip_ofBytes, List.take_left]

theorem reads_field (data : Bytes) : Reads (field data.length) data data := by
  have h : Reads (field data.length) (data ++ []) data := by
    refine Reads.bind (reads_take data) ?_
    rw [if_pos rfl]
    exact Reads.pure data
  simpa using h

/-- A number is read from the bytes that write it. -/
theorem reads_number {width n : Nat} (h : n < 256 ^ width) :
    Reads (number width) (littleEndian width n) n := by
  have hfield := reads_field (littleEndian width n)
  rw [length_littleEndian] at hfield
  have hnumber : Reads (number width) (littleEndian width n ++ []) n := by
    refine Reads.bind hfield ?_
    rw [ofLittleEndian_littleEndian_of_lt h]
    exact Reads.pure n
  simpa using hnumber

/-- A tag is read from its byte. -/
theorem reads_tag {n : Nat} (h : n < 256) : Reads (number 1) [UInt8.ofNat n] n := by
  have hnumber := @reads_number 1 n (by simpa using h)
  simpa [littleEndian_succ] using hnumber

theorem reads_double (bits : UInt64) : Reads double (littleEndian 8 bits.toNat) bits := by
  have hdouble : Reads double (littleEndian 8 bits.toNat ++ []) bits := by
    refine Reads.bind (reads_number (by simpa using bits.toNat_lt)) ?_
    simpa using Reads.pure bits
  simpa using hdouble

/-! ## Length prefixes -/

theorem reads_blob {data out : Bytes} (h : encodeBlob data = .ok out) : Reads blob out data := by
  unfold encodeBlob at h
  split at h
  · cases h
  · rename_i hlength
    cases h
    refine Reads.bind (reads_number ?_) (reads_take data)
    have : (256 : Nat) ^ 4 = 0xFFFFFFFF + 1 := by norm_num
    omega

theorem reads_utf8 {t : Text} {data : Bytes} (h : Utf8.encode t = .ok data) :
    Reads (utf8 data) [] t := by
  rw [utf8, Utf8.decode_of_encode h]
  exact Reads.pure t

theorem encodeText_eq_ok_iff {t : Text} {data : Bytes} :
    encodeText t = .ok data ↔ Utf8.encode t = .ok data := by
  unfold encodeText
  cases Utf8.encode t <;> simp [Except.mapError]

theorem reads_longString {t : Text} {data out : Bytes} (ht : encodeText t = .ok data)
    (h : encodeBlob data = .ok out) : Reads longString out t := by
  have hlong : Reads longString (out ++ []) t :=
    Reads.bind (reads_blob h) (reads_utf8 (encodeText_eq_ok_iff.1 ht))
  simpa using hlong

theorem reads_shortString {t : Text} {out : Bytes} (h : encodeShortString t = .ok out) :
    Reads shortString out t := by
  unfold encodeShortString at h
  rcases hdata : encodeText t with _ | data
  · rw [hdata] at h
    cases h
  rw [hdata] at h
  by_cases hlength : 0xFFFF < data.length
  · simp [hlength, bind, Except.bind] at h
  · have hout : littleEndian 2 data.length ++ data = out := by
      simpa [hlength, bind, Except.bind, pure, Except.pure] using h
    subst hout
    refine Reads.bind (reads_number ?_) ?_
    · have : (256 : Nat) ^ 2 = 0xFFFF + 1 := by norm_num
      omega
    · have hstring : Reads (take data.length >>= utf8) (data ++ []) t :=
        Reads.bind (reads_take data) (reads_utf8 (encodeText_eq_ok_iff.1 hdata))
      simpa using hstring

/-- A count is read from the bytes that write it. -/
theorem reads_count {n : Nat} {out : Bytes} (h : encodeCount n = .ok out) :
    Reads (number 4) out n := by
  unfold encodeCount at h
  split at h
  · cases h
  · cases h
    refine reads_number ?_
    have : (256 : Nat) ^ 4 = 0xFFFFFFFF + 1 := by norm_num
    omega

/-! ## Repetition -/

/-- Values that stand one after the other are read in their order. -/
theorem reads_repeatRead {d : Decoder α} {parts : List (Bytes × α)}
    (h : ∀ part ∈ parts, Reads d part.1 part.2) (done : List α) :
    Reads (repeatRead d done parts.length) (parts.flatMap (·.1))
      (done.reverse ++ parts.map (·.2)) := by
  induction parts generalizing done with
  | nil => simpa [repeatRead] using Reads.pure done.reverse
  | cons part parts ih =>
    have hfirst := h part List.mem_cons_self
    have hrest := ih (fun p hp => h p (List.mem_cons_of_mem _ hp)) (part.2 :: done)
    rw [List.length_cons, List.flatMap_cons]
    have hboth := Reads.bind (f := fun a => repeatRead d (a :: done) parts.length) hfirst hrest
    simpa [repeatRead] using hboth

end Decoder

end ModuleDocs
