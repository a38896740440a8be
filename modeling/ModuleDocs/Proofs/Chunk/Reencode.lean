import Mathlib
import ModuleDocs.Proofs.Chunk.Decoded
import ModuleDocs.Proofs.Chunk.PrefixFree

/-!
# A chunk that was read is written again

The reader takes bytes in many forms: map items in any order and with equal keys, integers with
more bytes than they need, names that are atoms.  What comes out of it is always in the form that
the writer asks for.  The entries are in strict order and none of them is erased
(`Chunk.isArranged_of_decode`), and each field fits the prefix that it is written behind
(`Chunk.gives_isSized`).

So a chunk is written again and read back as it was (`Chunk.reencode_of_decode`), unless a term
stands in the way.  The only one that does is the integer `Term.leastInt`, which is read and not
written.
-/

namespace ModuleDocs

open Decoder Result

/-! ## Entries -/

namespace Entry

/-- What an entry that was read holds fits the prefixes that it is written behind. -/
structure IsSized (e : Entry) : Prop where
  name : Utf8.isEncodable e.ref.name = true ∧ (Utf8.encodeAll e.ref.name).length ≤ 0xFFFF
  text : ∀ data, e.content = .authored (.bytes data) → data.length ≤ 0xFFFFFFFF
  metadata : (Term.map e.metadata).IsDecoded

/-- The metadata does not hold the one integer that is read and not written. -/
def LacksLeastInt (e : Entry) : Prop := (Term.map e.metadata).Every (· ≠ .int Term.leastInt)

end Entry

namespace Chunk

/-- Names in place of the keys that they were read from leave a map as it is. -/
theorem isDecoded_of_textKeyed? {items named : Items} (h : textKeyed? items = some named)
    (hitems : (Term.map items).IsDecoded) : (Term.map named).IsDecoded := by
  have hnamed : List.Forall₂ (fun item item' => ∃ name, item.1.chars? = some name ∧
      item' = (Term.text name, item.2)) items named := by
    refine (Lists.forall₂_of_mapM h).imp ?_
    rintro ⟨key, value⟩ item' hitem
    obtain ⟨name, hname, rfl⟩ := Option.map_eq_some_iff.1 hitem
    exact ⟨name, hname, rfl⟩
  have hdict : named.IsDict := by
    refine ⟨fun item' hitem' => ?_, Lists.pairwise_right hnamed hitems.value.1.distinct ?_⟩
    · obtain ⟨_, _, name, _, rfl⟩ := Lists.exists_left hnamed item' hitem'
      rfl
    · rintro a a' _ _ ⟨name, hname, rfl⟩ ⟨name', hname', rfl⟩ hne
      rw [Term.keyEq, Term.keyForm?_of_chars? hname, Term.keyForm?_of_chars? hname'] at hne
      exact hne
  have hlength : named.length ≤ 0xFFFFFFFF := by
    rw [← hnamed.length_eq]
    exact hitems.fits.1.resolve_right (by simp)
  have hparts : ∀ item' ∈ named, (item'.1.IsDecoded) ∧ item'.2.IsDecoded := by
    intro item' hitem'
    obtain ⟨⟨key, value⟩, hitem, name, hname, rfl⟩ := Lists.exists_left hnamed item' hitem'
    obtain ⟨_, hvalue⟩ := Term.everyPair_iff.1 hitems.value.2 _ hitem
    obtain ⟨hkeyFits, hfits⟩ := Term.everyPair_iff.1 hitems.fits.2 _ hitem
    refine ⟨⟨trivial, Or.inl ?_⟩, hvalue, hfits⟩
    cases key with
    | text chars | atom chars =>
      cases hname
      exact hkeyFits.resolve_right (by simp)
    | _ => cases hname
  exact ⟨⟨hdict, Term.everyPair_iff.2 fun item hitem => (hparts item hitem).imp (·.value) (·.value)⟩,
    Or.inl hlength, Term.everyPair_iff.2 fun item hitem => (hparts item hitem).imp (·.fits) (·.fits)⟩

theorem gives_sizedMetadata : Gives decodeMetadata fun items => (Term.map items).IsDecoded := by
  refine Gives.bind (Term.gives_isDecoded _) fun t ht => ?_
  split
  · split
    · exact Gives.pure (isDecoded_of_textKeyed? ‹_› ht)
    · exact Gives.throw _
  · exact Gives.throw _

theorem gives_sizedContent : Gives decodeContent fun content =>
    ∀ data, content = .authored (.bytes data) → data.length ≤ 0xFFFFFFFF := by
  refine Gives.bind (Gives.any _) fun tag _ => ?_
  split
  · exact Gives.pure nofun
  · refine Gives.bind gives_blob fun data hdata => Gives.pure ?_
    rintro _ ⟨⟩
    exact hdata
  · exact Gives.pure nofun
  · exact Gives.throw _

theorem gives_isSized : Gives decodeEntry Entry.IsSized := by
  refine Gives.bind (Gives.any _) fun code _ => ?_
  split
  · exact Gives.throw _
  refine Gives.bind gives_shortString fun name hname => Gives.bind (Gives.any _) fun fixed _ => ?_
  refine Gives.bind gives_sizedContent fun content hcontent => ?_
  exact Gives.bind gives_sizedMetadata fun metadata hmetadata =>
    Gives.pure ⟨hname, hcontent, hmetadata⟩

/-- An entry that was read is written, unless its metadata is not. -/
theorem encodeEntry_of_isDecoded {e : Entry} (h : e.IsDecoded) (hsized : e.IsSized)
    (hnumbers : (Term.map e.metadata).HasNoNaNKey) :
    (e.LacksLeastInt ∧ ∃ data, encodeEntry e = .ok data) ∨
      ¬ e.LacksLeastInt ∧ encodeEntry e = .error (.term .lengthOutOfRange) := by
  have hname := encodeShortString_of_le hsized.name.1 hsized.name.2
  have hcontent : ∃ content, encodeContent e.ref e.content = .ok content := by
    rcases h.content with hnone | hhidden | ⟨data, hdata⟩
    · exact ⟨[0], by rw [hnone]; rfl⟩
    · exact ⟨[2], by rw [hhidden]; rfl⟩
    · refine ⟨1 :: (littleEndian 4 data.length ++ data), ?_⟩
      rw [hdata, encodeContent, encodeBlob_of_le (hsized.text data hdata)]
      rfl
  obtain ⟨content, hcontent⟩ := hcontent
  have harity : ¬ (e.ref.arity < 0 ∨ 0xFFFF < e.ref.arity) := by
    have := h.arity
    omega
  have hline : ¬ 0xFFFFFFFF < e.line := not_lt.2 h.line.2
  have hmetadata := Term.encode_of_isDecoded hsized.metadata h.storable hnumbers
  rw [encodeEntry, hname, hcontent]
  simp only [Except.mapError, bind, Except.bind, if_neg harity, if_neg hline]
  refine hmetadata.imp (And.imp_right ?_) (And.imp_right ?_)
  · rintro ⟨data, hdata⟩
    rw [hdata]
    exact ⟨_, rfl⟩
  · intro herror
    rw [herror]

theorem encodeEntries_of_isDecoded {entries : List Entry}
    (h : ∀ e ∈ entries, (e.LacksLeastInt ∧ ∃ data, encodeEntry e = .ok data) ∨
      ¬ e.LacksLeastInt ∧ encodeEntry e = .error (.term .lengthOutOfRange)) :
    ((∀ e ∈ entries, e.LacksLeastInt) ∧ ∃ data, encodeEntries entries = .ok data) ∨
      (∃ e ∈ entries, ¬ e.LacksLeastInt) ∧
        encodeEntries entries = .error (.term .lengthOutOfRange) := by
  induction entries with
  | nil => exact Or.inl ⟨by simp, [], rfl⟩
  | cons e rest ih =>
    obtain ⟨hfirst, hrest⟩ := List.forall_mem_cons.1 h
    rw [encodeEntries]
    rcases hfirst with ⟨hlacks, front, hfront⟩ | ⟨hholds, herror⟩
    · rw [hfront]
      rcases ih hrest with ⟨hall, back, hback⟩ | ⟨⟨e', he', hholds⟩, herror⟩
      · rw [hback]
        exact Or.inl ⟨List.forall_mem_cons.2 ⟨hlacks, hall⟩, _, rfl⟩
      · rw [herror]
        exact Or.inr ⟨⟨e', List.mem_cons_of_mem _ he', hholds⟩, rfl⟩
    · rw [herror]
      exact Or.inr ⟨⟨e, List.mem_cons_self, hholds⟩, rfl⟩

/-! ## Whole chunks -/

/-- The parts of a chunk that was read are arranged as they are written. -/
structure IsArranged (c : Chunk) : Prop where
  version : c.version = currentVersion
  format : Utf8.isEncodable c.formatId = true ∧ (Utf8.encodeAll c.formatId).length ≤ 0xFFFF
  module : c.module.ref.kind = .module
  kinds : ∀ e ∈ c.entries, e.ref.kind ≠ .module
  ordered : Entry.Ordered c.entries
  count : c.entries.length ≤ 0xFFFFFFFF

/-- Entries are read in strict order, each behind the one before it. -/
theorem gives_ordered (n : Nat) (previous? : Option EntityRef) (done : List Entry) :
    Gives (decodeEntries previous? done n) fun entries => ∃ read, entries = done.reverse ++ read ∧
      read.length = n ∧ (∀ e ∈ read, e.ref.kind ≠ .module) ∧ Entry.Ordered read ∧
      ∀ previous ∈ previous?, ∀ e ∈ read, previous.precedes e.ref = true := by
  induction n generalizing previous? done with
  | zero => exact Gives.pure ⟨[], by simp, rfl, by simp, List.Pairwise.nil, by simp⟩
  | succ n ih =>
    refine Gives.bind (Gives.any _) fun e _ => ?_
    split
    · exact Gives.throw _
    rename_i hkind
    split
    · exact Gives.throw _
    rename_i horder
    rintro r s entries hrun
    obtain ⟨read, rfl, hlength, hkinds, hordered, hbehind⟩ := ih (some e.ref) (e :: done) r s _ hrun
    have hafter : ∀ e' ∈ read, e.ref.precedes e'.ref = true := hbehind e.ref rfl
    refine ⟨e :: read, by simp, by rw [List.length_cons, hlength],
      List.forall_mem_cons.2 ⟨hkind, hkinds⟩, List.pairwise_cons.2 ⟨hafter, hordered⟩, ?_⟩
    intro previous hprevious
    have hfirst : previous.precedes e.ref = true := by
      rw [Option.mem_def.1 hprevious] at horder
      simpa using horder
    exact List.forall_mem_cons.2 ⟨hfirst, fun e' he' =>
      EntityRef.precedes_trans hfirst (hafter e' he')⟩

theorem isArranged_of_decode {data : Bytes} {c : Chunk} (h : decode data = .ok c) :
    c.IsArranged := by
  refine of_decode (P := IsArranged) ?_ h
  refine Gives.bind gives_shortString fun formatId hformat => ?_
  refine Gives.bind (Gives.any _) fun module _ => ?_
  split
  · exact Gives.throw _
  rename_i hkind
  have hcount : Gives (number 4) fun n => n ≤ 0xFFFFFFFF := gives_number (by norm_num)
  refine Gives.bind hcount fun count hlimit => ?_
  refine Gives.bind (gives_ordered count none []) fun entries hentries => ?_
  obtain ⟨read, rfl, rfl, hkinds, hordered, _⟩ := hentries
  refine Gives.bind (Gives.any _) fun r _ => ?_
  dsimp only
  split
  · exact Gives.throw _
  · exact Gives.pure ⟨rfl, hformat, not_not.1 hkind, hkinds, hordered, hlimit⟩

/-- Entries that were read are kept as they stand. -/
theorem IsArranged.keptEntries_eq {c : Chunk} (h : c.IsArranged)
    (hexported : ∀ e ∈ c.entries, e.exported = true) : keptEntries c.entries = c.entries := by
  rw [keptEntries_of_ordered h.ordered]
  exact List.filter_eq_self.2 fun e he => by simp [Entry.isErased, hexported e he]

/-- A chunk whose parts are arranged is written as its entries are. -/
theorem IsArranged.encode_eq {c : Chunk} (h : c.IsArranged)
    (hexported : ∀ e ∈ c.entries, e.exported = true) :
    ∃ format count : Bytes, encode c.module c.entries c.formatId = (do
      let first ← encodeEntry c.module
      let others ← encodeEntries c.entries
      return magic ++ (littleEndian 2 currentVersion ++ (littleEndian 2 0 ++ (format ++ (first
        ++ (count ++ others)))))) := by
  have hcheck := checkEntries_of_ordered h.ordered h.kinds
  have hformat := encodeShortString_of_le h.format.1 h.format.2
  refine ⟨littleEndian 2 (Utf8.encodeAll c.formatId).length ++ Utf8.encodeAll c.formatId,
    littleEndian 4 c.entries.length, ?_⟩
  rw [encode, if_neg (not_not.2 h.module), hcheck, h.keptEntries_eq hexported, hformat]
  dsimp only
  rw [encodeCount_of_le h.count]
  rfl

/-- A chunk that was read is written, unless it holds the one integer that is read and not
written. -/
theorem encode_of_entries {c : Chunk} (h : c.IsArranged)
    (hexported : ∀ e ∈ c.entries, e.exported = true)
    (hentries : ∀ e ∈ c.module :: c.entries, (e.LacksLeastInt ∧ ∃ data, encodeEntry e = .ok data) ∨
      ¬ e.LacksLeastInt ∧ encodeEntry e = .error (.term .lengthOutOfRange)) :
    ((∀ e ∈ c.module :: c.entries, e.LacksLeastInt) ∧
        ∃ out, encode c.module c.entries c.formatId = .ok out) ∨
      (∃ e ∈ c.module :: c.entries, ¬ e.LacksLeastInt) ∧
        encode c.module c.entries c.formatId = .error (.term .lengthOutOfRange) := by
  obtain ⟨format, count, hencode⟩ := h.encode_eq hexported
  rw [hencode]
  obtain ⟨hmodule, hothers⟩ := List.forall_mem_cons.1 hentries
  rcases hmodule with ⟨hlacks, first, hfirst⟩ | ⟨hholds, herror⟩
  · rw [hfirst]
    rcases encodeEntries_of_isDecoded hothers with ⟨hall, others, hwritten⟩ | ⟨⟨e, he, hholds⟩, herror⟩
    · rw [hwritten]
      exact Or.inl ⟨List.forall_mem_cons.2 ⟨hlacks, hall⟩, _, rfl⟩
    · rw [herror]
      exact Or.inr ⟨⟨e, List.mem_cons_of_mem _ he, hholds⟩, rfl⟩
  · rw [herror]
    exact Or.inr ⟨⟨_, List.mem_cons_self, hholds⟩, rfl⟩

/-- Metadata that was read can be read back. -/
theorem isMetadata_of_isDecoded {e : Entry} (h : e.IsDecoded) (hsized : e.IsSized)
    (hnumbers : (Term.map e.metadata).HasNoNaNKey) : e.metadata.IsMetadata := by
  refine ⟨fun item hitem => ?_, hsized.metadata.value, hnumbers, h.storable⟩
  obtain ⟨t, ht⟩ := h.texts item hitem
  rw [ht]
  rfl

/-- A chunk that was read, in which no map key holds NaN: it is written, and what is written is
read as the same chunk up to the order of map items, or it holds the integer that takes a byte too
many, and is not written for the length of this. -/
theorem reencode_of_decode {data : Bytes} {c : Chunk} (h : decode data = .ok c)
    (hnumbers : ∀ e ∈ c.module :: c.entries, (Term.map e.metadata).HasNoNaNKey) :
    ((∀ e ∈ c.module :: c.entries, e.LacksLeastInt) ∧
        ∃ out c', encode c.module c.entries c.formatId = .ok out ∧ decode out = .ok c' ∧
          c'.version = c.version ∧ c'.formatId = c.formatId ∧ c.module.Agrees c'.module ∧
          List.Forall₂ Entry.Agrees c.entries c'.entries) ∨
      (∃ e ∈ c.module :: c.entries, ¬ e.LacksLeastInt) ∧
        encode c.module c.entries c.formatId = .error (.term .lengthOutOfRange) := by
  have harranged := isArranged_of_decode h
  have hdecoded := isDecoded_of_decode h
  have hsized : ∀ e ∈ c.module :: c.entries, e.IsSized := forall_entries_of_decode gives_isSized h
  have hexported : ∀ e ∈ c.entries, e.exported = true := fun e he =>
    (hdecoded e (List.mem_cons_of_mem _ he)).exported
  have hkept := harranged.keptEntries_eq hexported
  refine (encode_of_entries harranged hexported fun e he =>
    encodeEntry_of_isDecoded (hdecoded e he) (hsized e he) (hnumbers e he)).imp_left ?_
  rintro ⟨hlacks, out, hout⟩
  refine ⟨hlacks, out, ?_⟩
  have hstored : ∀ e ∈ c.module :: c.entries, e.stored = e := fun e he =>
    Entry.stored_of_texts (hdecoded e he).exported (hdecoded e he).texts
  obtain ⟨c', hdecode, hversion, hformat, hmodule, _, hentries⟩ := exists_decode_of_encode
    (by
      rw [hkept]
      exact fun e he => isMetadata_of_isDecoded (hdecoded e he) (hsized e he) (hnumbers e he))
    (by
      rw [hkept]
      exact fun e he => (hdecoded e he).line.1) hout
  rw [hkept, List.map_congr_left fun e he => hstored e (List.mem_cons_of_mem _ he),
    List.map_id'] at hentries
  rw [hstored _ List.mem_cons_self] at hmodule
  exact ⟨c', hout, hdecode, hversion.trans harranged.version.symm, hformat, hmodule, hentries⟩

/-- The module that the loose chunk is about.  Of its two items with one key the last value and the
first place are left. -/
def looseModule : Entry :=
  ⟨.ofModule "m", .undocumented, [(.text "b", .bool true), (.text "a", .none)], true, 1⟩

/-- The loose chunk is written again, although not with the same bytes. -/
theorem reencode_of_decode_looseChunk :
    decode looseChunk = .ok ⟨1, [], looseModule, []⟩ ∧ ∃ out c', encode looseModule [] [] = .ok out ∧
      decode out = .ok c' ∧ looseModule.Agrees c'.module := by
  have hread : decode looseChunk = .ok ⟨1, [], looseModule, []⟩ := by cbv
  have hnumbers : ∀ e ∈ [looseModule], (Term.map e.metadata).HasNoNaNKey := by decide_cbv
  have hfits : (Term.map looseModule.metadata).Every Term.Fits := by decide_cbv
  refine ⟨hread, ?_⟩
  rcases reencode_of_decode hread hnumbers with
    ⟨_, out, c', hout, hdecode, _, _, hmodule, _⟩ | ⟨⟨e, he, hholds⟩, _⟩
  · exact ⟨out, c', hout, hdecode, hmodule⟩
  · cases List.mem_singleton.1 he
    exact absurd (hfits.imp fun _ => Term.Fits.ne_leastInt) hholds

end Chunk

end ModuleDocs
