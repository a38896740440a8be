import Mathlib
import ModuleDocs.Proofs.Chunk.Load
import ModuleDocs.Proofs.Chunk.RoundTrip
import ModuleDocs.Proofs.Term.Local

/-!
# No chunk is the beginning of another

Behind its header a chunk is read from its own bytes alone (`isLocal_decodeParts`), and only
then it is asked whether any are left (`decodeBody_eq`).  So bytes behind an accepted chunk
are trailing bytes, and nothing else is wrong with them (`decode_append`); and if the
beginning of an accepted chunk were accepted, the rest of it would be trailing bytes.

`decode_prefixFree` puts both together.  It is about all bytes that are accepted, in
whatever order map items stand and however long integers are written.
-/

namespace ModuleDocs.Chunk

open Decoder Result

/-! ## What is read before the end is looked at -/

/-- Reads what follows the header, with any bytes behind it. -/
def decodeParts (version : Nat) : Decoder Chunk := do
  let formatId ← Decoder.shortString
  let module ← decodeEntry
  if module.ref.kind ≠ .module then throw .firstEntryNotModule
  else
    let count ← Decoder.number 4
    let entries ← decodeEntries none [] count
    return ⟨version, formatId, module, entries⟩

/-- Refuses a chunk with bytes behind it. -/
def decodeEnd (c : Chunk) : Decoder Chunk := do
  let left := (← get).remaining
  if left ≠ 0 then throw (.trailingBytes left.toNat) else return c

/-- The end is looked at when all else is read. -/
theorem decodeBody_eq (version : Nat) :
    decodeBody version = decodeParts version >>= decodeEnd := by
  simp only [decodeBody, decodeParts, bind_assoc]
  congr 1
  funext formatId
  congr 1
  funext module
  split
  · rfl
  · simp only [bind_assoc, pure_bind]
    rfl

theorem isLocal_decodeContent : IsLocal decodeContent := by
  refine IsLocal.bind (isLocal_number 1) fun tag => ?_
  split
  · exact IsLocal.pure _
  · exact IsLocal.bind isLocal_blob fun _ => IsLocal.pure _
  · exact IsLocal.pure _
  · exact IsLocal.throw _

theorem isLocal_decodeMetadata : IsLocal decodeMetadata := by
  refine IsLocal.bind Term.isLocal_decode fun t => ?_
  split
  · split
    · exact IsLocal.pure _
    · exact IsLocal.throw _
  · exact IsLocal.throw _

theorem isLocal_decodeEntry : IsLocal decodeEntry := by
  refine IsLocal.bind (isLocal_number 1) fun code => ?_
  split
  · exact IsLocal.throw _
  refine IsLocal.bind isLocal_shortString fun name => ?_
  refine IsLocal.bind (isLocal_take 6) fun fixed => IsLocal.bind isLocal_decodeContent fun _ => ?_
  exact IsLocal.bind isLocal_decodeMetadata fun _ => IsLocal.pure _

theorem isLocal_decodeEntries (n : Nat) (previous? : Option EntityRef) (done : List Entry) :
    IsLocal (decodeEntries previous? done n) := by
  induction n generalizing previous? done with
  | zero => exact IsLocal.pure done.reverse
  | succ n ih =>
    refine IsLocal.bind isLocal_decodeEntry fun e => ?_
    split
    · exact IsLocal.throw _
    split
    · exact IsLocal.throw _
    · exact ih (some e.ref) (e :: done)

theorem isLocal_decodeParts (version : Nat) : IsLocal (decodeParts version) := by
  refine IsLocal.bind isLocal_shortString fun formatId => ?_
  refine IsLocal.bind isLocal_decodeEntry fun module => ?_
  split
  · exact IsLocal.throw _
  refine IsLocal.bind (isLocal_number 4) fun count => ?_
  exact IsLocal.bind (isLocal_decodeEntries count none []) fun entries => IsLocal.pure _

/-- The end of the bytes is reached, or those left are told. -/
theorem run_decodeEnd (c : Chunk) (front back : Bytes) :
    ((decodeEnd c).run (Reader.ofBytes (front ++ back) front.length)).1
      = if back = [] then .ok c else .error (.trailingBytes back.length) := by
  have hleft : (Reader.ofBytes (front ++ back) front.length).remaining = back.length := by
    simp only [Reader.remaining, Reader.ofBytes, List.length_append, Nat.cast_add]
    omega
  rw [decodeEnd, run_bind_of_ok (run_get _)]
  simp only [hleft]
  by_cases hback : back = []
  · rw [if_pos hback, if_neg (by simp [hback])]
    rfl
  · have hsome : back.length ≠ 0 := fun h => hback (List.eq_nil_of_length_eq_zero h)
    rw [if_neg hback, if_pos (by omega), Int.toNat_natCast]
    rfl

/-- Bytes of which the parts of a chunk are taken are read as that chunk if none are left. -/
theorem run_decodeBody {version : Nat} {taken : Bytes} {c : Chunk}
    (h : Reads (decodeParts version) taken c) (front back : Bytes) :
    ((decodeBody version).run (Reader.ofBytes (front ++ (taken ++ back)) front.length)).1
      = if back = [] then .ok c else .error (.trailingBytes back.length) := by
  have hend := run_decodeEnd c (front ++ taken) back
  rw [List.append_assoc, List.length_append, Nat.cast_add] at hend
  rw [decodeBody_eq, run_bind_of_ok (h front back)]
  exact hend

/-- Bytes that are read as a chunk are all taken. -/
theorem reads_of_decodeBody {version : Nat} (front : Bytes) {rest : Bytes} {c : Chunk}
    (h : ((decodeBody version).run (Reader.ofBytes (front ++ rest) front.length)).1 = .ok c) :
    Reads (decodeParts version) rest c := by
  rcases hparts : (decodeParts version).run (Reader.ofBytes (front ++ rest) front.length) with
    ⟨result, s⟩
  cases result with
  | error e =>
    rw [decodeBody_eq, run_bind_of_error hparts] at h
    cases h
  | ok parts =>
    obtain ⟨taken, back, rfl, hreads⟩ := isLocal_decodeParts version front rest parts s hparts
    rw [run_decodeBody hreads] at h
    split at h
    · rename_i hback
      cases h
      rw [hback, List.append_nil]
      exact hreads
    · cases h

/-! ## Accepted bytes -/

/-- Bytes are accepted when they are a header and all that is behind it is taken. -/
theorem decode_eq_ok_iff {data : Bytes} {c : Chunk} :
    decode data = .ok c ↔
      ∃ body, data = magic ++ (littleEndian 2 currentVersion ++ (littleEndian 2 0 ++ body)) ∧
        Reads (decodeParts currentVersion) body c := by
  constructor
  · intro h
    obtain ⟨version, hpeek, hrest⟩ := bind_eq_ok_iff.1 h
    split at hrest
    · cases hrest
    rename_i hversion
    split at hrest
    · cases hrest
    rename_i hflags
    obtain ⟨rest, rfl, hlength, _⟩ := peekVersion_eq_ok_iff.1 (mapError_eq_ok_iff.1 hpeek)
    rw [not_not.1 hversion] at h
    -- The flags are the two bytes behind the version.
    have hbehind : (magic ++ (littleEndian 2 version ++ rest)).drop 6 = rest := by
      rw [← List.append_assoc]
      exact List.drop_left' (by rw [List.length_append, length_littleEndian]; rfl)
    have hwidth : (rest.take 2).length = 2 := by
      rw [List.length_take]
      omega
    have hzero : rest.take 2 = littleEndian 2 0 := by
      have hback := littleEndian_ofLittleEndian (rest.take 2)
      rw [hbehind] at hflags
      rw [hwidth, not_not.1 hflags] at hback
      exact hback.symm
    have hsplit : rest = littleEndian 2 0 ++ rest.drop 2 := by
      rw [← hzero, List.take_append_drop]
    rw [hsplit, decode_header_append] at h
    refine ⟨rest.drop 2, ?_, ?_⟩
    · rw [← hsplit, not_not.1 hversion]
    · exact reads_of_decodeBody [0x44, 0x4F, 0x43, 0x43, 1, 0, 0, 0]
        (mapError_eq_ok_iff.1 h)
  · intro h
    obtain ⟨body, rfl, hreads⟩ := h
    have hrun := run_decodeBody hreads [0x44, 0x4F, 0x43, 0x43, 1, 0, 0, 0] []
    rw [List.append_nil, if_pos rfl] at hrun
    rw [decode_header_append]
    exact mapError_eq_ok_iff.2 hrun

/-- Bytes behind a chunk are trailing bytes. -/
theorem decode_append {data back : Bytes} {c : Chunk} (h : decode data = .ok c)
    (hback : back ≠ []) :
    decode (data ++ back) = .error (.malformed (.trailingBytes back.length)) := by
  obtain ⟨body, rfl, hreads⟩ := decode_eq_ok_iff.1 h
  have hrun := run_decodeBody hreads [0x44, 0x4F, 0x43, 0x43, 1, 0, 0, 0] back
  rw [if_neg hback] at hrun
  rw [List.append_assoc, List.append_assoc, List.append_assoc, decode_header_append]
  exact mapError_eq_error_iff.2 ⟨_, hrun, rfl⟩

/-- The beginning of a chunk has its version. -/
theorem decode_ne_unsupported {front back : Bytes} {c : Chunk}
    (h : decode (front ++ back) = .ok c) (found : Nat) :
    decode front ≠ .error (.unsupportedVersion found) := by
  intro hfront
  obtain ⟨rest, rfl, hrest, hfound, hne⟩ := decode_eq_unsupported_iff.1 hfront
  have hwhole : decode ((magic ++ (littleEndian 2 found ++ rest)) ++ back)
      = .error (.unsupportedVersion found) := by
    apply decode_eq_unsupported_iff.2
    refine ⟨rest ++ back, ?_, ?_, hfound, hne⟩
    · rw [List.append_assoc, List.append_assoc]
    · rw [List.length_append]
      omega
  rw [hwhole] at h
  cases h

/-- The bytes are refused, with an error that is told about bytes. -/
def IsMalformed (data : Bytes) : Prop :=
  ∃ e : DecodeError, decode data = .error (.malformed e) ∧ e.IsReported

/-- Of bytes that are a chunk no beginning is one, and none with further bytes behind them. -/
theorem decode_prefixFree {data : Bytes} {c : Chunk} (h : decode data = .ok c) :
    (∀ front, front <+: data → front ≠ data → IsMalformed front) ∧
      ∀ back, back ≠ [] → IsMalformed (data ++ back) := by
  constructor
  · intro front hfront hne
    obtain ⟨back, rfl⟩ := hfront
    have hback : back ≠ [] := by
      intro hnil
      apply hne
      rw [hnil, List.append_nil]
    cases hresult : decode front with
    | ok c' =>
      rw [decode_append hresult hback] at h
      cases h
    | error refusal =>
      cases refusal with
      | unsupportedVersion found => exact absurd hresult (decode_ne_unsupported h found)
      | malformed e => exact ⟨e, hresult, decode_failsWith front _ hresult e rfl⟩
  · intro back hback
    exact ⟨_, decode_append h hback, fun width hwidth => by cases hwidth⟩

/-- A chunk as it is not written: the items of its map are out of order, one key comes twice,
and an integer has a byte more than need be. -/
def looseChunk : Bytes :=
  [0x44, 0x4F, 0x43, 0x43, 1, 0, 0, 0, 0, 0, 0, 1, 0, 0x6D, 0, 0, 1, 0, 0, 0, 0,
    11, 3, 0, 0, 0, 6, 1, 0, 0, 0, 0x62, 3, 2, 0, 1, 0, 6, 1, 0, 0, 0, 0x61, 0,
    6, 1, 0, 0, 0, 0x62, 2, 0, 0, 0, 0]

/-- It is accepted, but not without its last byte, and not with one more. -/
theorem decode_looseChunk :
    (decode looseChunk).isOk = true ∧ IsMalformed looseChunk.dropLast ∧
      IsMalformed (looseChunk ++ [0]) := by
  have haccepted : (decode looseChunk).isOk = true := by cbv
  obtain ⟨c, hc⟩ := exists_of_isOk haccepted
  obtain ⟨hfront, hback⟩ := decode_prefixFree hc
  exact ⟨haccepted, hfront _ (List.dropLast_prefix looseChunk) (by decide), hback [0] (by decide)⟩

end ModuleDocs.Chunk
