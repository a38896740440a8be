import Mathlib
import ModuleDocs.Chunk.Load
import ModuleDocs.Proofs.Number.LittleEndian
import ModuleDocs.Proofs.Term.Cursor

/-!
# Loading answers for all bytes

Whatever bytes stand where a container is expected, asking them for the chunk of
a name has one of four answers, and `ofContainerBytes_answers` says which:

* there is no such chunk, just when the container is accepted without one;
* the chunk has an unsupported version, just when it begins with the magic and
  another version, whatever follows them (`decode_eq_unsupported_iff`);
* the chunk, just when its bytes are one;
* a reason why not, in all other cases.

The reasons are those of readers.  A container is not refused with an error of
writing (`Container.decode_failsWith`), and no error of a chunk is a field that
comes out short (`decode_failsWith`), since reading stays within the bytes
(`staysWithin_decodeBody`).
-/

namespace ModuleDocs

open Result

/-! ## Refused containers -/

/-- The errors with which bytes are refused as a container.  The others are about names and
sizes that cannot be written. -/
def ContainerError.isRefusal : ContainerError → Bool
  | .shortHeader | .badMagic | .unsupportedVersion _ | .unsupportedFlags => true
  | .unsupportedHeaderSize | .unsupportedEntrySize | .tableTooLong | .tableHashMismatch => true
  | .badTableName _ | .duplicateName _ => true
  | .regionsOverlap | .regionTooLong _ | .chunkHashMismatch _ => true
  | _ => false

namespace Container

theorem decodeTable_failsWith (done : List Region) (table : Bytes) (n : Nat) :
    FailsWith (fun e => e.isRefusal = true) (decodeTable done table n) := by
  induction n generalizing done table with
  | zero => exact FailsWith.ok _
  | succ n ih =>
    rw [decodeTable]
    split
    · exact FailsWith.error rfl
    dsimp only
    split
    · exact FailsWith.error rfl
    · exact ih _ _

theorem checkRegions_failsWith (hash : Hash) (data : Bytes) (limit : Nat)
    (regions : List Region) :
    FailsWith (fun e => e.isRefusal = true) (checkRegions hash data limit regions) := by
  induction regions generalizing limit with
  | nil => exact FailsWith.ok ()
  | cons r rest ih =>
    rw [checkRegions]
    split
    · exact FailsWith.error rfl
    split
    · exact FailsWith.error rfl
    split
    · exact FailsWith.error rfl
    · exact ih _

/-- Bytes that are no container are refused. -/
theorem decode_failsWith (hash : Hash) (data : Bytes) :
    FailsWith (fun e => e.isRefusal = true) (decode hash data) := by
  unfold decode
  split_ifs
  case pos | pos | pos | pos | pos | pos => exact FailsWith.error rfl
  dsimp only
  split_ifs
  · exact FailsWith.error rfl
  · exact FailsWith.error rfl
  · refine FailsWith.bind (decodeTable_failsWith _ _ _) fun regions _ => ?_
    exact FailsWith.bind (checkRegions_failsWith _ _ _ _) fun _ _ => FailsWith.pure _

end Container

namespace Chunk

open Decoder StaysWithin

/-! ## Versions -/

/-- The version stands behind the magic, with two bytes or more behind it. -/
theorem peekVersion_eq_ok_iff {data : Bytes} {version : Nat} :
    peekVersion data = .ok version ↔
      ∃ rest, data = magic ++ (littleEndian 2 version ++ rest) ∧ 2 ≤ rest.length ∧
        version < 256 ^ 2 := by
  constructor
  · intro h
    unfold peekVersion at h
    split at h
    · cases h
    rename_i hlength
    split at h
    · cases h
    rename_i hmagic
    have hlength : 8 ≤ data.length := Nat.not_lt.1 hlength
    have hversion : ofLittleEndian ((data.drop 4).take 2) = version := Except.ok.inj h
    have hwidth : ((data.drop 4).take 2).length = 2 := by
      rw [List.length_take, List.length_drop]
      omega
    have hbytes : littleEndian 2 version = (data.drop 4).take 2 := by
      have hback := littleEndian_ofLittleEndian ((data.drop 4).take 2)
      rwa [hwidth, hversion] at hback
    refine ⟨(data.drop 4).drop 2, ?_, ?_, ?_⟩
    · rw [← not_not.1 hmagic, hbytes, List.take_append_drop, List.take_append_drop]
    · rw [List.length_drop, List.length_drop]
      omega
    · have hsmall := ofLittleEndian_lt ((data.drop 4).take 2)
      rwa [hwidth, hversion] at hsmall
  · intro h
    obtain ⟨rest, rfl, hrest, hversion⟩ := h
    have hmagic : (magic ++ (littleEndian 2 version ++ rest)).take 4 = magic :=
      List.take_left' rfl
    have hbehind : (magic ++ (littleEndian 2 version ++ rest)).drop 4
        = littleEndian 2 version ++ rest := List.drop_left' rfl
    have hlength : ¬ (magic ++ (littleEndian 2 version ++ rest)).length < headerSize := by
      have : magic.length = 4 := rfl
      rw [List.length_append, List.length_append, length_littleEndian, headerSize]
      omega
    rw [peekVersion, if_neg hlength, if_neg (not_not.2 hmagic), hbehind,
      List.take_left' (length_littleEndian 2 version),
      ofLittleEndian_littleEndian_of_lt hversion]

/-- Another version than the current one is refused, whatever stands behind it. -/
theorem decode_eq_unsupported_iff {data : Bytes} {found : Nat} :
    decode data = .error (.unsupportedVersion found) ↔
      ∃ rest, data = magic ++ (littleEndian 2 found ++ rest) ∧ 2 ≤ rest.length ∧
        found < 256 ^ 2 ∧ found ≠ currentVersion := by
  have hpeek : decode data = .error (.unsupportedVersion found) ↔
      peekVersion data = .ok found ∧ found ≠ currentVersion := by
    constructor
    · intro h
      unfold decode at h
      rcases bind_eq_error_iff.1 h with hpeek | ⟨version, hpeek, h⟩
      · obtain ⟨e, _, hsame⟩ := mapError_eq_error_iff.1 hpeek
        cases hsame
      split at h
      · rename_i hversion
        cases h
        exact ⟨mapError_eq_ok_iff.1 hpeek, hversion⟩
      split at h
      · cases h
      · obtain ⟨e, _, hsame⟩ := mapError_eq_error_iff.1 h
        cases hsame
    · intro h
      apply bind_eq_error_iff.2
      exact Or.inr ⟨found, mapError_eq_ok_iff.2 h.1, if_pos h.2⟩
  rw [hpeek, peekVersion_eq_ok_iff]
  constructor
  · intro h
    obtain ⟨⟨rest, hdata, hrest, hfound⟩, hne⟩ := h
    exact ⟨rest, hdata, hrest, hfound, hne⟩
  · intro h
    obtain ⟨rest, hdata, hrest, hfound, hne⟩ := h
    exact ⟨⟨rest, hdata, hrest, hfound⟩, hne⟩

/-! ## Bodies -/

theorem staysWithin_decodeContent : StaysWithin decodeContent := by
  refine bind (staysWithin_number 1) fun tag => ?_
  split
  · exact pure _
  · exact bind staysWithin_blob fun _ => pure _
  · exact pure _
  · exact throw fun width h => by cases h

theorem staysWithin_decodeMetadata : StaysWithin decodeMetadata := by
  refine bind Term.staysWithin_decode fun t => ?_
  split
  · split
    · exact pure _
    · exact throw fun width h => by cases h
  · exact throw fun width h => by cases h

theorem staysWithin_decodeEntry : StaysWithin decodeEntry := by
  refine bind (staysWithin_number 1) fun code => ?_
  split
  · exact throw fun width h => by cases h
  refine bind staysWithin_shortString fun name => bind (staysWithin_take 6) fun fixed => ?_
  exact bind staysWithin_decodeContent fun _ => bind staysWithin_decodeMetadata fun _ => pure _

theorem staysWithin_decodeEntries (n : Nat) (previous? : Option EntityRef) (done : List Entry) :
    StaysWithin (decodeEntries previous? done n) := by
  induction n generalizing previous? done with
  | zero => exact pure done.reverse
  | succ n ih =>
    refine bind staysWithin_decodeEntry fun e => ?_
    split
    · exact throw fun width h => by cases h
    split
    · exact throw fun width h => by cases h
    · exact ih (some e.ref) (e :: done)

theorem staysWithin_decodeBody (version : Nat) : StaysWithin (decodeBody version) := by
  refine bind staysWithin_shortString fun formatId => bind staysWithin_decodeEntry fun module => ?_
  split
  · exact throw fun width h => by cases h
  refine bind (staysWithin_number 4) fun count => ?_
  refine bind (staysWithin_decodeEntries count none []) fun entries => bind get fun r => ?_
  dsimp only
  split
  · exact throw fun width h => by cases h
  · exact pure _

theorem peekVersion_failsWith (data : Bytes) :
    FailsWith DecodeError.IsReported (peekVersion data) := by
  unfold peekVersion
  split
  · exact FailsWith.error fun width h => by cases h
  split
  · exact FailsWith.error fun width h => by cases h
  · exact FailsWith.ok _

/-- Bytes that are no chunk have an unsupported version, or an error that is told about
bytes. -/
theorem decode_failsWith (data : Bytes) :
    FailsWith (fun r => ∀ e, r = .malformed e → e.IsReported) (decode data) := by
  have hreported : ∀ e : DecodeError, e.IsReported →
      ∀ e', Refusal.malformed e = .malformed e' → e'.IsReported := by
    intro e he e' hsame
    cases hsame
    exact he
  unfold decode
  apply FailsWith.bind
  · exact FailsWith.mapError ((peekVersion_failsWith data).imp hreported)
  intro version hpeek
  obtain ⟨rest, hdata, hrest, _⟩ := peekVersion_eq_ok_iff.1 (mapError_eq_ok_iff.1 hpeek)
  have hlength : headerSize ≤ data.length := by
    have hmagic : magic.length = 4 := rfl
    rw [hdata, List.length_append, List.length_append, length_littleEndian, headerSize]
    omega
  split
  · exact FailsWith.error fun e h => by cases h
  split
  · exact FailsWith.error (hreported .unsupportedFlags fun width h => by cases h)
  · apply FailsWith.mapError
    exact (staysWithin_decodeBody version data headerSize hlength).failsWith.imp hreported

/-! ## Answers -/

/-- What bytes answer that are asked for the chunk of a name. -/
theorem ofContainerBytes_answers (hash : Hash) (data : Bytes) (path? : Option Text)
    (name : Text) :
    (∀ name' path?', ofContainerBytes hash data path? name = .error (.notFound name' path?') ↔
      name = name' ∧ path? = path?' ∧
        ∃ c, Container.decode hash data = .ok c ∧ Chunks.get? name c.chunks = none) ∧
    (∀ found, ofContainerBytes hash data path? name = .error (.version found) ↔
      ∃ c rest, Container.decode hash data = .ok c ∧
        Chunks.get? name c.chunks = some (magic ++ (littleEndian 2 found ++ rest)) ∧
        2 ≤ rest.length ∧ found < 256 ^ 2 ∧ found ≠ currentVersion) ∧
    (∀ chunk, ofContainerBytes hash data path? name = .ok chunk ↔
      ∃ c bytes, Container.decode hash data = .ok c ∧ Chunks.get? name c.chunks = some bytes ∧
        decode bytes = .ok chunk) ∧
    ∀ reason, ofContainerBytes hash data path? name = .error (.format reason) ↔
      (∃ e, Container.decode hash data = .error e ∧ e.isRefusal = true ∧
        ("artifact: " : Text) ++ e.message = reason) ∨
      ∃ c bytes e, Container.decode hash data = .ok c ∧
        Chunks.get? name c.chunks = some bytes ∧ decode bytes = .error (.malformed e) ∧
        e.IsReported ∧ e.message = reason := by
  have hversion : ∀ found, (∃ c rest, Container.decode hash data = .ok c ∧
        Chunks.get? name c.chunks = some (magic ++ (littleEndian 2 found ++ rest)) ∧
        2 ≤ rest.length ∧ found < 256 ^ 2 ∧ found ≠ currentVersion) ↔
      ∃ c bytes, Container.decode hash data = .ok c ∧ Chunks.get? name c.chunks = some bytes ∧
        decode bytes = .error (.unsupportedVersion found) := by
    intro found
    constructor
    · intro h
      obtain ⟨c, rest, hcontainer, hchunk, hnew⟩ := h
      exact ⟨c, _, hcontainer, hchunk, decode_eq_unsupported_iff.2 ⟨rest, rfl, hnew⟩⟩
    · intro h
      obtain ⟨c, bytes, hcontainer, hchunk, hdecode⟩ := h
      obtain ⟨rest, rfl, hnew⟩ := decode_eq_unsupported_iff.1 hdecode
      exact ⟨c, rest, hcontainer, hchunk, hnew⟩
  simp only [hversion]
  unfold ofContainerBytes ofContainer ofBytes
  cases hcontainer : Container.decode hash data with
  | error e =>
    have hrefusal := Container.decode_failsWith hash data e hcontainer
    simp [hrefusal]
  | ok c =>
    cases hchunk : Chunks.get? name c.chunks with
    | none => simp [hchunk]
    | some bytes =>
      cases hbytes : decode bytes with
      | ok chunk => simp [hchunk, hbytes]
      | error r =>
        cases r with
        | unsupportedVersion found => simp [hchunk, hbytes]
        | malformed e =>
          have hreported := decode_failsWith bytes _ hbytes e rfl
          simp [hchunk, hbytes, hreported]

end Chunk

end ModuleDocs
