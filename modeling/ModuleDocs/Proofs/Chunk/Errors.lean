import Mathlib
import ModuleDocs.Compile
import ModuleDocs.Proofs.Number.LittleEndian
import ModuleDocs.Proofs.Collector.Errors
import ModuleDocs.Proofs.Term.Errors

/-!
# Why a table is not written

A chunk fails as its parts do (`Chunk.encode_failsWith`).

A number that does not fit its field stops the writing of a chunk and is no diagnostic.
Of entries whose numbers are short and whose lines fit theirs this can only be a count of
items (`DocTable.encode_failsWith`).
-/

namespace ModuleDocs

open Result

namespace Term

/-- The error is not about the length of a number. -/
def FitsLength (e : EncodeError) : Prop := e ≠ .lengthOutOfRange

/-- A number of so many decimal digits fits its field. -/
theorem signedWidth_le_of_isShort {i : Int} (h : i.natAbs < Nat.pow 10 Decimal.maxDigits) :
    signedWidth i ≤ 0xFFFF := by
  have hpow : ∀ n : Nat, Nat.pow 10 n ≤ 2 ^ (4 * n) := by
    intro n
    rw [pow_mul]
    exact Nat.pow_le_pow_left (by norm_num) n
  have hwidth := signedWidth_le (h.trans_le (hpow Decimal.maxDigits))
  have hdigits : 4 * Decimal.maxDigits / 8 + 1 ≤ 0xFFFF := by norm_num [Decimal.maxDigits]
  exact hwidth.trans hdigits

theorem fitsLength_encodeText (t : Text) : FailsWith FitsLength (encodeText t) :=
  encodeText_failsWith fun run _ => by simp [FitsLength]

theorem fitsLength_encodeShortString (t : Text) : FailsWith FitsLength (encodeShortString t) :=
  encodeShortString_failsWith (fitsLength_encodeText t) (by simp [FitsLength])

/-- A term with short numbers is refused for another reason than their length. -/
theorem tolerates_fitsLength : Tolerates FitsLength fun _ t => t.Every IsShort where
  stringTooLong := by simp [FitsLength]
  blobTooLong := by simp [FitsLength]
  countOutOfRange := by simp [FitsLength]
  deep := by simp [FitsLength]
  int := fun _ i hshort hwidth => absurd (signedWidth_le_of_isShort hshort) (not_le.2 hwidth)
  text := fun _ t _ => fitsLength_encodeText t
  atom := fun _ t _ => fitsLength_encodeText t
  tagged := fun _ _ encoding _ => fitsLength_encodeText encoding
  funRef := by simp [FitsLength]
  foreign := by simp [FitsLength]
  list := fun _ _ hshort => everyItem_iff.1 hshort.2
  tuple := fun _ _ hshort => everyItem_iff.1 hshort.2
  map := fun _ _ hshort => everyPair_iff.1 hshort.2
  sort := fun _ _ encoded _ _ => EncodedItem.sort_failsWith (by simp [FitsLength]) encoded

end Term

/-! ## Chunks -/

namespace Chunk

variable {P : ChunkError → Prop} {entries : List Entry}

/-- An entry fails as its fields do. -/
theorem encodeEntry_failsWith {e : Entry}
    (hname : FailsWith P ((encodeShortString e.ref.name).mapError .term))
    (harity : P (.arityOutOfRange e.ref))
    (hline : 0xFFFFFFFF < e.line → P (.lineOutOfRange e.line))
    (hcontent : FailsWith P (encodeContent e.ref e.content))
    (hmetadata : FailsWith P ((Term.encode (.map e.metadata)).mapError .term)) :
    FailsWith P (encodeEntry e) := by
  unfold encodeEntry
  refine hname.bind fun name _ => ?_
  split
  · exact FailsWith.error harity
  · split
    · rename_i hlarge
      exact FailsWith.error (hline hlarge)
    · exact hcontent.bind fun content _ => hmetadata.bind fun metadata _ => FailsWith.ok _

theorem encodeEntries_failsWith (h : ∀ e ∈ entries, FailsWith P (encodeEntry e)) :
    FailsWith P (encodeEntries entries) := by
  induction entries with
  | nil => exact FailsWith.ok []
  | cons e rest ih =>
    obtain ⟨hfirst, hrest⟩ := List.forall_mem_cons.1 h
    exact hfirst.bind fun front _ => (ih hrest).bind fun back _ => FailsWith.ok _

/-- A chunk fails as its parts do. -/
theorem encode_failsWith {module : Entry} {formatId : Text}
    (hmodule : module.ref.kind ≠ .module → P (.moduleExpected module.ref))
    (hcheck : FailsWith P (checkEntries [] entries))
    (hformat : FailsWith P ((encodeShortString formatId).mapError .term))
    (hcount : ∀ n, FailsWith P ((encodeCount n).mapError .term))
    (hentries : ∀ e ∈ module :: entries, FailsWith P (encodeEntry e)) :
    FailsWith P (encode module entries formatId) := by
  obtain ⟨hfirst, hothers⟩ := List.forall_mem_cons.1 hentries
  have hkept : ∀ e ∈ keptEntries entries, FailsWith P (encodeEntry e) :=
    fun e he => hothers e (keptEntries_subset entries he)
  unfold encode
  split
  · rename_i hkind
    exact FailsWith.error (hmodule hkind)
  · refine hcheck.bind fun _ _ => hformat.bind fun format _ => hfirst.bind fun first _ => ?_
    exact (hcount _).bind fun count _ =>
      (encodeEntries_failsWith hkept).bind fun others _ => FailsWith.ok _

end Chunk

/-! ## Counts -/

/-- An error that is no diagnostic is one of a count. -/
def ChunkError.IsCount (e : ChunkError) : Prop :=
  Compile.isFieldOverflow e = true → e = .term .countOutOfRange

namespace Chunk

theorem isCount_term {α : Type} {x : Except EncodeError α} (h : FailsWith Term.FitsLength x) :
    FailsWith ChunkError.IsCount (x.mapError .term) := by
  refine FailsWith.mapError fun e he => ?_
  have hfits := h e he
  cases e <;> simp_all [ChunkError.IsCount, Compile.isFieldOverflow, Term.FitsLength]

theorem isCount_encodeContent (ref : EntityRef) (content : Content) :
    FailsWith ChunkError.IsCount (encodeContent ref content) := by
  unfold encodeContent
  split
  · exact FailsWith.ok _
  · exact (isCount_term (encodeBlob_failsWith Term.tolerates_fitsLength.blobTooLong _)).bind
      fun blob _ => FailsWith.ok _
  · exact FailsWith.error (by simp [ChunkError.IsCount, Compile.isFieldOverflow])
  · exact FailsWith.ok _
  · split
    · exact FailsWith.error (by simp [ChunkError.IsCount, Compile.isFieldOverflow])
    · exact FailsWith.error (by simp [ChunkError.IsCount, Compile.isFieldOverflow])

/-- An entry whose numbers fit their fields. -/
structure Fits (e : Entry) : Prop where
  line : e.line ≤ 0xFFFFFFFF
  metadata : (Term.map e.metadata).Every Term.IsShort

theorem isCount_encodeEntry {e : Entry} (h : Fits e) :
    FailsWith ChunkError.IsCount (encodeEntry e) := by
  refine encodeEntry_failsWith (isCount_term (Term.fitsLength_encodeShortString _)) ?_ ?_
    (isCount_encodeContent e.ref e.content)
    (isCount_term (Term.encodeAt_failsWith Term.tolerates_fitsLength _ 0 h.metadata))
  · simp [ChunkError.IsCount, Compile.isFieldOverflow]
  · intro hlarge
    exact absurd h.line (not_le.2 hlarge)

theorem isCount_checkEntries (seen : List EntityRef) (entries : List Entry) :
    FailsWith ChunkError.IsCount (checkEntries seen entries) := by
  induction entries generalizing seen with
  | nil => exact FailsWith.ok ()
  | cons e rest ih =>
    rw [checkEntries]
    split
    · exact FailsWith.error (by simp [ChunkError.IsCount, Compile.isFieldOverflow])
    · split
      · exact FailsWith.error (by simp [ChunkError.IsCount, Compile.isFieldOverflow])
      · exact ih _

end Chunk

/-- Of a table whose numbers fit their fields only a count can be too large for its own. -/
theorem DocTable.encode_failsWith {t : DocTable} (h : ∀ e ∈ t.module :: t.entries, Chunk.Fits e)
    (defaultFormat : Text) : FailsWith ChunkError.IsCount (t.encode defaultFormat) := by
  refine Chunk.encode_failsWith ?_ (Chunk.isCount_checkEntries [] _)
    (Chunk.isCount_term (Term.fitsLength_encodeShortString _))
    (fun n => Chunk.isCount_term
      (encodeCount_failsWith Term.tolerates_fitsLength.countOutOfRange n))
    fun e he => Chunk.isCount_encodeEntry (h e he)
  simp [ChunkError.IsCount, Compile.isFieldOverflow]

end ModuleDocs
