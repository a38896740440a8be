import Mathlib
import ModuleDocs.Proofs.Chunk.Metadata
import ModuleDocs.Proofs.Term.Decoded

/-!
# What a chunk that was read holds

Whatever bytes are read as a chunk, its entries are as `Entry.IsDecoded` says
(`isDecoded_of_decode`): their content is one of three, their numbers fit the fields that
they stood in, and their metadata has texts for keys and can be stored.  An authored text is
some bytes; that they are UTF-8 is not looked at.
-/

namespace ModuleDocs

open Decoder

/-! ## Entries -/

namespace Entry

/-- An entry as it comes out of a chunk. -/
structure IsDecoded (e : Entry) : Prop where
  content : e.content = .undocumented ∨ e.content = .hidden ∨
    ∃ data, e.content = .authored (.bytes data)
  texts : ∀ item ∈ e.metadata, ∃ t, item.1 = Term.text t
  storable : e.IsStorable
  exported : e.exported = true
  arity : 0 ≤ e.ref.arity ∧ e.ref.arity ≤ 0xFFFF
  line : 0 ≤ e.line ∧ e.line ≤ 0xFFFFFFFF

end Entry

namespace Chunk

theorem gives_decodeContent : Gives decodeContent fun content =>
    content = .undocumented ∨ content = .hidden ∨ ∃ data, content = .authored (.bytes data) := by
  refine Gives.bind (Gives.any _) fun tag _ => ?_
  split
  · exact Gives.pure (Or.inl rfl)
  · exact Gives.bind (Gives.any _) fun data _ => Gives.pure (Or.inr (Or.inr ⟨data, rfl⟩))
  · exact Gives.pure (Or.inr (Or.inl rfl))
  · exact Gives.throw _

/-- Texts are what keys are read as. -/
theorem texts_of_textKeyed? {items named : Items} (h : textKeyed? items = some named) :
    ∀ item ∈ named, ∃ t, item.1 = Term.text t := by
  intro item hitem
  obtain ⟨⟨key, value⟩, _, hnamed⟩ := Lists.exists_left (Lists.forall₂_of_mapM h) item hitem
  obtain ⟨t, _, rfl⟩ := Option.map_eq_some_iff.1 hnamed
  exact ⟨t, rfl⟩

theorem gives_textKeys :
    Gives decodeMetadata fun items => ∀ item ∈ items, ∃ t, item.1 = Term.text t := by
  refine Gives.bind (Gives.any _) fun t _ => ?_
  split
  · split
    · rename_i hnamed
      exact Gives.pure (texts_of_textKeyed? hnamed)
    · exact Gives.throw _
  · exact Gives.throw _

/-- A number on so many bytes, seen as an integer. -/
theorem ofLittleEndian_bounds {data : Bytes} {width limit : Nat} (hlength : data.length ≤ width)
    (hlimit : 256 ^ width = limit + 1) :
    0 ≤ (ofLittleEndian data : Int) ∧ (ofLittleEndian data : Int) ≤ limit := by
  have hsmall := ofLittleEndian_lt data
  have hpow := Nat.pow_le_pow_right (show 0 < 256 by norm_num) hlength
  omega

theorem gives_isDecoded : Gives decodeEntry Entry.IsDecoded := by
  refine Gives.bind (Gives.any _) fun code _ => ?_
  split
  · exact Gives.throw _
  refine Gives.bind (Gives.any _) fun name _ => Gives.bind (gives_take 6) fun fixed hfixed => ?_
  refine Gives.bind gives_decodeContent fun content hcontent => ?_
  refine Gives.bind (gives_decodeMetadata.and gives_textKeys) fun metadata hmetadata => ?_
  have harity : (fixed.take 2).length ≤ 2 := List.length_take_le 2 fixed
  have hline : (fixed.drop 2).length ≤ 4 := by
    rw [List.length_drop]
    omega
  exact Gives.pure ⟨hcontent, hmetadata.2, hmetadata.1, rfl,
    ofLittleEndian_bounds harity (by norm_num), ofLittleEndian_bounds hline (by norm_num)⟩

/-- The entries of a chunk are as they come out of one. -/
theorem isDecoded_of_decode {data : Bytes} {c : Chunk} (h : decode data = .ok c) :
    ∀ e ∈ c.module :: c.entries, e.IsDecoded := forall_entries_of_decode gives_isDecoded h

end Chunk

end ModuleDocs
