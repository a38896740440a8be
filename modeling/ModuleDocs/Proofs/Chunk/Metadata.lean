import Mathlib
import ModuleDocs.Proofs.Chunk.RoundTrip
import ModuleDocs.Proofs.Collector.Metadata

/-!
# Which metadata is read back

Metadata that comes from a source has texts as keys, and no maps but dictionaries without
NaN inside (`IsPlain`).  Of such metadata a chunk gives back just what can be stored:
`isMetadata_of_isKeyed` is the one direction, and `storable_of_decode`, which holds for any
bytes, the other.

The writer asks for less.  It counts the depth of a map key anew, so that it writes some
metadata that nests too deep to be read.
-/

namespace ModuleDocs

open Decoder

/-- The term is not NaN, and if it is a map, it is a dictionary. -/
def Term.IsPlain (t : Term) : Prop := t.OnMaps Items.IsDict ∧ ¬ t.IsNaN

namespace Items

variable {items : Items}

/-- Plain items with texts as keys are metadata, if they can be stored. -/
theorem isMetadata_of_isKeyed (h : items.IsKeyed Term.IsPlain)
    (hstorable : Term.isStorable (.map items) = true) : items.IsMetadata := by
  have hdict : items.IsDict := by
    refine ⟨fun item hitem => ?_, h.distinct⟩
    obtain ⟨t, ht⟩ := h.texts item hitem
    rw [ht]
    rfl
  have hevery : Term.Every Term.IsPlain (.map items) := by
    refine ⟨⟨hdict, fun hnan => hnan⟩, Term.everyPair_iff.2 fun item hitem => ⟨?_, h.values item hitem⟩⟩
    obtain ⟨t, ht⟩ := h.texts item hitem
    rw [ht]
    exact ⟨trivial, fun hnan => hnan⟩
  refine ⟨fun item hitem => ?_, ?_, ?_, hstorable⟩
  · obtain ⟨t, ht⟩ := h.texts item hitem
    rw [ht]
    rfl
  · exact Term.Every.imp (fun _ ht => ht.1) _ hevery
  · exact Term.hasNoNaNKey_of_every (Term.Every.imp (fun _ ht => ht.2) _ hevery)

/-- Keys that are texts are left as they are. -/
theorem withTextKeys_of_texts (h : ∀ item ∈ items, ∃ t, item.1 = .text t) :
    items.withTextKeys = items := by
  refine (List.map_congr_left fun item hitem => ?_).trans (List.map_id items)
  obtain ⟨t, ht⟩ := h item hitem
  obtain ⟨key, value⟩ := item
  subst ht
  rfl

/-- Reading texts for keys leaves what can be stored. -/
theorem storable_of_textKeyed? {named : Items} (h : Chunk.textKeyed? items = some named)
    (hstorable : Term.isStorable (.map items) = true) : Term.isStorable (.map named) = true := by
  have hitems := Term.itemsStorableAt_iff.1 (Term.storableAt_map hstorable)
  have hnamed : List.Forall₂ (fun item item' => (∃ t, item'.1 = .text t) ∧ item'.2 = item.2)
      items named := by
    refine (Lists.forall₂_of_mapM h).imp ?_
    rintro ⟨key, value⟩ item' hitem
    obtain ⟨t, _, rfl⟩ := Option.map_eq_some_iff.1 hitem
    exact ⟨⟨t, rfl⟩, rfl⟩
  refine Term.itemsStorableAt_iff.2 fun item' hitem' => ?_
  obtain ⟨item, hitem, ⟨t, ht⟩, hvalue⟩ := Lists.exists_left hnamed item' hitem'
  rw [ht, hvalue]
  exact ⟨rfl, (hitems item hitem).2⟩

end Items

namespace Entry

/-- Whether the metadata of an entry nests no deeper than can be read. -/
def IsStorable (e : Entry) : Prop := Term.isStorable (.map e.metadata) = true

instance (e : Entry) : Decidable e.IsStorable :=
  inferInstanceAs (Decidable (Term.isStorable (.map e.metadata) = true))

theorem Agrees.isStorable_iff {e other : Entry} (h : e.Agrees other) :
    e.IsStorable ↔ other.IsStorable := by
  rw [IsStorable, IsStorable, Term.isStorable, Term.isStorable,
    Term.Reordered.isStorableAt_eq _ _ 0 h.metadata]

/-- An entry that counts as exported and has texts as keys is stored as it is. -/
theorem stored_of_texts {e : Entry} (hexported : e.exported = true)
    (htexts : ∀ item ∈ e.metadata, ∃ t, item.1 = Term.text t) : e.stored = e := by
  obtain ⟨ref, content, metadata, exported, line⟩ := e
  simp only [stored, Entry.mk.injEq, true_and, and_true]
  exact ⟨Items.withTextKeys_of_texts htexts, hexported.symm⟩

end Entry

/-! ## Reading -/

namespace Chunk

theorem gives_decodeMetadata :
    Gives decodeMetadata fun items => Term.isStorable (.map items) = true := by
  refine Gives.bind (Term.gives_decodeWithin (Term.maxDepth + 1) 0 rfl) fun t ht => ?_
  split
  · split
    · rename_i hnamed
      exact Gives.pure (Items.storable_of_textKeyed? hnamed ht)
    · exact Gives.throw _
  · exact Gives.throw _

theorem gives_decodeEntry : Gives decodeEntry Entry.IsStorable := by
  refine Gives.bind (Gives.any _) fun code _ => ?_
  split
  · exact Gives.throw _
  refine Gives.bind (Gives.any _) fun name _ => Gives.bind (Gives.any _) fun fixed _ => ?_
  refine Gives.bind (Gives.any _) fun content _ => ?_
  exact Gives.bind gives_decodeMetadata fun metadata hmetadata => Gives.pure hmetadata

theorem gives_decodeEntries {P : Entry → Prop} (hentry : Gives decodeEntry P) (n : Nat)
    (previous? : Option EntityRef) {done : List Entry} (hdone : ∀ e ∈ done, P e) :
    Gives (decodeEntries previous? done n) fun entries => ∀ e ∈ entries, P e := by
  induction n generalizing previous? done with
  | zero => exact Gives.pure fun e he => hdone e (List.mem_reverse.1 he)
  | succ n ih =>
    refine Gives.bind hentry fun e he => ?_
    split
    · exact Gives.throw _
    split
    · exact Gives.throw _
    · exact ih (some e.ref) (List.forall_mem_cons.2 ⟨he, hdone⟩)

/-- What all chunks have that are read behind a header, those have that are read with one. -/
theorem of_decode {P : Chunk → Prop} (hbody : Gives (decodeBody currentVersion) P) {data : Bytes}
    {c : Chunk} (h : decode data = .ok c) : P c := by
  unfold decode at h
  obtain ⟨version, _, h⟩ := Result.bind_eq_ok_iff.1 h
  split at h
  · cases h
  rename_i hversion
  split at h
  · cases h
  rw [not_not.1 hversion] at h
  exact hbody _ _ c (Prod.ext (Result.mapError_eq_ok_iff.1 h) rfl)

/-- What all entries have that are read, those of a chunk have. -/
theorem forall_entries_of_decode {P : Entry → Prop} (hentry : Gives decodeEntry P) {data : Bytes}
    {c : Chunk} (h : decode data = .ok c) : ∀ e ∈ c.module :: c.entries, P e := by
  refine of_decode (P := fun c => ∀ e ∈ c.module :: c.entries, P e) ?_ h
  refine Gives.bind (Gives.any _) fun formatId _ => Gives.bind hentry fun module hm => ?_
  split
  · exact Gives.throw _
  refine Gives.bind (Gives.any _) fun count _ => ?_
  refine Gives.bind (gives_decodeEntries hentry count none (by simp)) fun entries hentries => ?_
  refine Gives.bind (Gives.any _) fun r _ => ?_
  dsimp only
  split
  · exact Gives.throw _
  · exact Gives.pure (List.forall_mem_cons.2 ⟨hm, hentries⟩)

/-- Whatever bytes are read as a chunk, the metadata of its entries can be stored. -/
theorem storable_of_decode {data : Bytes} {c : Chunk} (h : decode data = .ok c) :
    ∀ e ∈ c.module :: c.entries, e.IsStorable := forall_entries_of_decode gives_decodeEntry h

end Chunk

end ModuleDocs
