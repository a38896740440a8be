import Mathlib
import ModuleDocs.Chunk.Decode
import ModuleDocs.Proofs.Entry.Order
import ModuleDocs.Proofs.Term.RoundTrip

/-!
# Chunks are read back

A chunk is read back field by field (`exists_reads_of_encodeEntry`), and its entries in
the order in which they were kept (`exists_reads_of_encodeEntries`); the strict order
that the reader asks for is the one in which they were written.  `decode_encode` puts
this together: what `Chunk.encode` writes is read as the same module, the same format
and the entries that were not erased.

Metadata comes back with texts for keys that were atoms and in another order, which
`Entry.stored` and `Entry.Agrees` say.
-/

namespace ModuleDocs

open Decoder

/-! ## Metadata -/

namespace Items

/-- Items with texts in place of atoms as keys. -/
def withTextKeys (items : Items) : Items :=
  items.map fun item => (Term.text (item.1.chars?.getD []), item.2)

/-- Items that an entry can hold: their keys are texts or atoms, and as a map they are a
value that can be stored and in which no key has a part that is not a number. -/
structure IsMetadata (items : Items) : Prop where
  named : ∀ item ∈ items, item.1.chars?.isSome = true
  value : Term.IsValue (.map items)
  numbers : Term.HasNoNaNKey (.map items)
  storable : Term.isStorable (.map items) = true

instance (items : Items) : Decidable items.IsMetadata :=
  decidable_of_iff ((∀ item ∈ items, item.1.chars?.isSome = true) ∧ Term.IsValue (.map items) ∧
    Term.HasNoNaNKey (.map items) ∧ Term.isStorable (.map items) = true)
    ⟨fun h => ⟨h.1, h.2.1, h.2.2.1, h.2.2.2⟩,
      fun h => ⟨h.named, h.value, h.numbers, h.storable⟩⟩

theorem textKeyed?_of_named {items : Items} (h : ∀ item ∈ items, item.1.chars?.isSome = true) :
    Chunk.textKeyed? items = some items.withTextKeys := by
  unfold Chunk.textKeyed? withTextKeys
  induction items with
  | nil => rfl
  | cons item rest ih =>
    obtain ⟨t, ht⟩ := Option.isSome_iff_exists.1 (h item List.mem_cons_self)
    have hrest := ih fun i hi => h i (List.mem_cons_of_mem _ hi)
    simp [List.mapM_cons, ht, hrest]

/-- Items in another order have texts as keys in that order. -/
theorem reordered_withTextKeys {as bs : Items} (h : Term.Reordered (.map as) (.map bs)) :
    Term.Reordered (.map as.withTextKeys) (.map bs.withTextKeys) := by
  obtain ⟨cs, hperm, hcs⟩ := Term.reordered_map_iff.1 h
  refine Term.reordered_map_iff.2 ⟨cs.withTextKeys, hperm.map _, ?_⟩
  refine List.forall₂_map_left_iff.2 (List.forall₂_map_right_iff.2 (hcs.imp ?_))
  rintro a b ⟨hkey, hvalue⟩
  exact ⟨by simp [hkey], hvalue⟩

end Items

/-- The metadata of an entry is read back. -/
theorem Chunk.exists_reads_of_metadata {items : Items} (h : items.IsMetadata) {data : Bytes}
    (hdata : Term.encode (.map items) = .ok data) :
    ∃ read : Items, Term.Reordered (.map items.withTextKeys) (.map read) ∧
      Reads Chunk.decodeMetadata data read := by
  obtain ⟨t, hsame, hreads⟩ := Term.exists_reads_of_encodeAt (.map items) (Term.maxDepth + 1) 0 0
    data rfl h.storable h.value h.numbers hdata
  cases t <;> simp only [Term.Reordered, reduceCtorEq] at hsame
  rename_i read
  have hnamed : ∀ item ∈ read, item.1.chars?.isSome = true := by
    obtain ⟨cs, hperm, hcs⟩ := Term.reordered_map_iff.1 hsame
    intro item hitem
    obtain ⟨item', hitem', hkey, _⟩ := Lists.exists_left hcs item (hperm.mem_iff.2 hitem)
    exact hkey ▸ h.named item' hitem'
  refine ⟨Items.withTextKeys read, Items.reordered_withTextKeys hsame, ?_⟩
  have hmetadata : Reads Chunk.decodeMetadata (data ++ []) (Items.withTextKeys read) := by
    refine Reads.bind hreads ?_
    simp only [Items.textKeyed?_of_named hnamed]
    exact Reads.pure _
  simpa using hmetadata

/-! ## Entries -/

namespace Entry

/-- An entry as it is read back: it counts as exported, and the keys of its metadata are
texts. -/
def stored (e : Entry) : Entry := { e with exported := true, metadata := e.metadata.withTextKeys }

/-- The same entry but for the order of the items in its metadata. -/
structure Agrees (e other : Entry) : Prop where
  ref : other.ref = e.ref
  content : other.content = e.content
  exported : other.exported = e.exported
  line : other.line = e.line
  metadata : Term.Reordered (.map e.metadata) (.map other.metadata)

end Entry

namespace Chunk

theorem ofCode?_code (kind : EntityKind) : EntityKind.ofCode? kind.code = some kind := by
  cases kind <;> rfl

theorem code_lt (kind : EntityKind) : kind.code < 256 := by
  cases kind <;> decide

/-- Content is read back. -/
theorem reads_decodeContent {ref : EntityRef} {content : Content} {data : Bytes}
    (h : encodeContent ref content = .ok data) : Reads decodeContent data content := by
  match content with
  | .undocumented =>
    cases h
    exact Reads.bind (y := []) (reads_tag (n := 0) (by decide)) (Reads.pure _)
  | .hidden =>
    cases h
    exact Reads.bind (y := []) (reads_tag (n := 2) (by decide)) (Reads.pure _)
  | .foreign value =>
    rw [encodeContent] at h
    split at h <;> cases h
  | .authored (.bytes text) =>
    obtain ⟨blob, hblob, rfl⟩ := Result.bind_pure_eq_ok_iff.1 h
    exact Reads.bind (x := [1]) (reads_tag (n := 1) (by decide))
      ((reads_blob (Result.mapError_eq_ok_iff.1 hblob)).bind_pure
        fun data => Content.authored (.bytes data))
  | .authored .none | .authored (.bool _) | .authored (.int _) | .authored (.float _)
  | .authored (.text _) | .authored (.atom _) | .authored (.tagged _ _) | .authored (.list _)
  | .authored (.tuple _) | .authored (.map _) | .authored (.funRef _ _)
  | .authored (.foreign _) => cases h

/-- What `encodeEntry` writes, field by field. -/
theorem encodeEntry_eq_ok {e : Entry} {data : Bytes} (h : encodeEntry e = .ok data) :
    ∃ name content metadata, encodeShortString e.ref.name = .ok name ∧
      0 ≤ e.ref.arity ∧ e.ref.arity ≤ 0xFFFF ∧ e.line ≤ 0xFFFFFFFF ∧
      encodeContent e.ref e.content = .ok content ∧
      Term.encode (.map e.metadata) = .ok metadata ∧
      data = UInt8.ofNat e.ref.kind.code :: (name ++ (littleEndian 2 e.ref.arity.toNat
        ++ (littleEndian 4 e.line.toNat ++ (content ++ metadata)))) := by
  unfold encodeEntry at h
  obtain ⟨name, hname, h⟩ := Result.bind_eq_ok_iff.1 h
  split at h
  · cases h
  split at h
  · cases h
  obtain ⟨content, hcontent, h⟩ := Result.bind_eq_ok_iff.1 h
  obtain ⟨metadata, hmetadata, rfl⟩ := Result.bind_pure_eq_ok_iff.1 h
  exact ⟨name, content, metadata, Result.mapError_eq_ok_iff.1 hname, by omega, by omega, by omega,
    hcontent, Result.mapError_eq_ok_iff.1 hmetadata, rfl⟩

/-- An entry is read back up to the order of its metadata. -/
theorem exists_reads_of_encodeEntry {e : Entry} (hmetadata : e.metadata.IsMetadata)
    (hline : 0 ≤ e.line) {data : Bytes} (h : encodeEntry e = .ok data) :
    ∃ read, e.stored.Agrees read ∧ Reads decodeEntry data read := by
  obtain ⟨name, content, metadata, hname, harity, harity', hline', hcontent, hitems, rfl⟩ :=
    encodeEntry_eq_ok h
  obtain ⟨items, hsame, hreads⟩ := exists_reads_of_metadata hmetadata hitems
  refine ⟨⟨e.ref, e.content, items, true, e.line⟩, ⟨rfl, rfl, rfl, rfl, hsame⟩, ?_⟩
  refine Reads.bind (x := [UInt8.ofNat e.ref.kind.code]) (reads_tag (code_lt _)) ?_
  simp only [ofCode?_code]
  refine Reads.bind (reads_shortString hname) ?_
  have hfixed := reads_take (littleEndian 2 e.ref.arity.toNat ++ littleEndian 4 e.line.toNat)
  rw [List.length_append, length_littleEndian, length_littleEndian] at hfixed
  rw [← List.append_assoc (littleEndian 2 _)]
  refine Reads.bind hfixed (Reads.bind (reads_decodeContent hcontent) ?_)
  have hpow : (256 : Nat) ^ 2 = 65536 ∧ (256 : Nat) ^ 4 = 4294967296 := by norm_num
  have hread := hreads.bind_pure fun items =>
    Entry.mk ⟨e.ref.kind, e.ref.name, e.ref.arity⟩ e.content items true e.line
  rw [List.take_left' (length_littleEndian 2 _), List.drop_left' (length_littleEndian 2 _),
    ofLittleEndian_littleEndian_of_lt (by omega), ofLittleEndian_littleEndian_of_lt (by omega),
    Int.toNat_of_nonneg harity, Int.toNat_of_nonneg hline]
  exact hread

/-- Entries in strictly ascending order are read back in this order. -/
theorem exists_reads_of_encodeEntries {kept : List Entry}
    (hmetadata : ∀ e ∈ kept, e.metadata.IsMetadata) (hlines : ∀ e ∈ kept, 0 ≤ e.line)
    (hkinds : ∀ e ∈ kept, e.ref.kind ≠ .module) (hordered : Entry.Ordered kept)
    {previous? : Option EntityRef}
    (hprevious : ∀ previous ∈ previous?, ∀ e ∈ kept, previous.precedes e.ref = true)
    (done : List Entry) {data : Bytes} (h : encodeEntries kept = .ok data) :
    ∃ read, List.Forall₂ Entry.Agrees (kept.map Entry.stored) read ∧
      Reads (decodeEntries previous? done kept.length) data (done.reverse ++ read) := by
  induction kept generalizing previous? done data with
  | nil =>
    cases h
    exact ⟨[], .nil, by simpa [decodeEntries] using Reads.pure done.reverse⟩
  | cons e rest ih =>
    rw [encodeEntries] at h
    obtain ⟨front, hfront, h⟩ := Result.bind_eq_ok_iff.1 h
    obtain ⟨back, hback, rfl⟩ := Result.bind_pure_eq_ok_iff.1 h
    obtain ⟨first, hfirst, hreads⟩ := exists_reads_of_encodeEntry
      (hmetadata e List.mem_cons_self) (hlines e List.mem_cons_self) hfront
    have href : first.ref = e.ref := hfirst.ref
    have hnext : ∀ previous ∈ some first.ref, ∀ d ∈ rest, previous.precedes d.ref = true := by
      intro previous hp d hd
      cases Option.mem_some_iff.1 hp
      rw [href]
      exact List.rel_of_pairwise_cons hordered hd
    obtain ⟨read, hrest, hreadsRest⟩ := ih (fun d hd => hmetadata d (List.mem_cons_of_mem _ hd))
      (fun d hd => hlines d (List.mem_cons_of_mem _ hd))
      (fun d hd => hkinds d (List.mem_cons_of_mem _ hd)) hordered.of_cons hnext
      (first :: done) hback
    refine ⟨first :: read, .cons hfirst hrest, Reads.bind hreads ?_⟩
    rw [if_neg (href ▸ hkinds e List.mem_cons_self), if_neg ?_]
    · simpa using hreadsRest
    · rw [Option.any_eq_true]
      rintro ⟨p, hp, hnot⟩
      rw [href, hprevious p hp e List.mem_cons_self] at hnot
      cases hnot

/-! ## Whole chunks -/

/-- Once all entries are read, nothing may be left. -/
theorem readsLast_end (c : Chunk) :
    ReadsLast (do
      let left := (← get).remaining
      if left ≠ 0 then throw (.trailingBytes left.toNat) else return c) [] c := by
  intro front
  rw [run_bind_of_ok (run_get _)]
  simp [Reader.remaining, Reader.ofBytes, run_pure]

/-- What `encode` writes, part by part. -/
theorem encode_eq_ok {module : Entry} {entries : List Entry} {formatId : Text} {data : Bytes}
    (h : encode module entries formatId = .ok data) :
    ∃ format first count others, module.ref.kind = .module ∧ checkEntries [] entries = .ok () ∧
      encodeShortString formatId = .ok format ∧ encodeEntry module = .ok first ∧
      encodeCount (keptEntries entries).length = .ok count ∧
      encodeEntries (keptEntries entries) = .ok others ∧
      data = magic ++ (littleEndian 2 currentVersion ++ (littleEndian 2 0 ++ (format ++ (first
        ++ (count ++ others))))) := by
  unfold encode at h
  split at h
  · cases h
  rename_i hkind
  obtain ⟨_, hcheck, h⟩ := Result.bind_eq_ok_iff.1 h
  obtain ⟨format, hformat, h⟩ := Result.bind_eq_ok_iff.1 h
  obtain ⟨first, hfirst, h⟩ := Result.bind_eq_ok_iff.1 h
  obtain ⟨count, hcount, h⟩ := Result.bind_eq_ok_iff.1 h
  obtain ⟨others, hothers, rfl⟩ := Result.bind_pure_eq_ok_iff.1 h
  exact ⟨format, first, count, others, by simpa using hkind, hcheck,
    Result.mapError_eq_ok_iff.1 hformat, hfirst, Result.mapError_eq_ok_iff.1 hcount, hothers, rfl⟩

/-- Magic, version and flags, byte by byte. -/
theorem header_eq (body : Bytes) :
    magic ++ (littleEndian 2 currentVersion ++ (littleEndian 2 0 ++ body))
      = [0x44, 0x4F, 0x43, 0x43, 1, 0, 0, 0] ++ body := by
  simp [magic, currentVersion, littleEndian_succ]

/-- Bytes with the header of a chunk are read as what follows it is. -/
theorem decode_header_append (body : Bytes) :
    decode (magic ++ (littleEndian 2 currentVersion ++ (littleEndian 2 0 ++ body)))
      = ((decodeBody currentVersion).run
          (Reader.ofBytes ([0x44, 0x4F, 0x43, 0x43, 1, 0, 0, 0] ++ body) headerSize)).1.mapError
            Refusal.malformed := by
  have hsize : ¬ ([0x44, 0x4F, 0x43, 0x43, 1, 0, 0, 0] ++ body).length < headerSize := by
    simp [headerSize]
  have hversion : ofLittleEndian [1, 0] = currentVersion := by decide
  have hflags : ofLittleEndian [0, 0] = 0 := by decide
  have hmagic : ¬ List.take 4 ([0x44, 0x4F, 0x43, 0x43, 1, 0, 0, 0] ++ body) ≠ magic :=
    not_not.2 rfl
  have hpeek : peekVersion ([0x44, 0x4F, 0x43, 0x43, 1, 0, 0, 0] ++ body) = .ok currentVersion := by
    rw [peekVersion, if_neg hsize, if_neg hmagic]
    exact congrArg Except.ok hversion
  have hflagged : ¬ ofLittleEndian
      (List.take 2 (List.drop 6 ([0x44, 0x4F, 0x43, 0x43, 1, 0, 0, 0] ++ body))) ≠ 0 :=
    not_not.2 hflags
  rw [header_eq, decode, hpeek]
  simp only [Except.mapError, bind, Except.bind, if_neg (not_not.2 (rfl : currentVersion = _)),
    if_neg hflagged]

theorem decode_of_readsLast {body : Bytes} {c : Chunk}
    (h : ReadsLast (decodeBody currentVersion) body c) :
    decode (magic ++ (littleEndian 2 currentVersion ++ (littleEndian 2 0 ++ body))) = .ok c := by
  rw [decode_header_append]
  exact congrArg (fun result => result.1.mapError Refusal.malformed)
    (h [0x44, 0x4F, 0x43, 0x43, 1, 0, 0, 0])

/-- What `encode` writes is read back, the kept entries in the order in which they stand. -/
theorem exists_decode_of_encode {module : Entry} {entries : List Entry} {formatId : Text}
    {data : Bytes} (hmetadata : ∀ e ∈ module :: keptEntries entries, e.metadata.IsMetadata)
    (hlines : ∀ e ∈ module :: keptEntries entries, 0 ≤ e.line)
    (h : encode module entries formatId = .ok data) :
    ∃ c, decode data = .ok c ∧ c.version = currentVersion ∧ c.formatId = formatId ∧
      module.stored.Agrees c.module ∧ Entry.Ordered (keptEntries entries) ∧
      List.Forall₂ Entry.Agrees ((keptEntries entries).map Entry.stored) c.entries := by
  obtain ⟨format, first, count, others, hkind, hcheck, hformat, hfirst, hcount, hothers, rfl⟩ :=
    encode_eq_ok h
  obtain ⟨hkinds, hnodup, -⟩ := checkEntries_eq_ok_iff.1 hcheck
  have hordered := ordered_keptEntries hnodup
  obtain ⟨readModule, hmodule, hreadsModule⟩ := exists_reads_of_encodeEntry
    (hmetadata module List.mem_cons_self) (hlines module List.mem_cons_self) hfirst
  have hnone : ∀ previous ∈ (none : Option EntityRef), ∀ e ∈ keptEntries entries,
      previous.precedes e.ref = true := by simp
  obtain ⟨read, hread, hreads⟩ := exists_reads_of_encodeEntries
    (fun e he => hmetadata e (List.mem_cons_of_mem _ he))
    (fun e he => hlines e (List.mem_cons_of_mem _ he))
    (fun e he => hkinds e (keptEntries_subset entries he)) hordered hnone [] hothers
  refine ⟨⟨currentVersion, formatId, readModule, read⟩, ?_, rfl, rfl, hmodule, hordered, hread⟩
  refine decode_of_readsLast (Reads.bind_last (reads_shortString hformat) ?_)
  refine Reads.bind_last hreadsModule ?_
  have hmoduleKind : readModule.ref.kind = .module := by rw [hmodule.ref, Entry.stored, hkind]
  rw [if_neg (not_not.2 hmoduleKind)]
  refine Reads.bind_last (reads_count hcount) ?_
  rw [← List.append_nil others]
  exact Reads.bind_last hreads (readsLast_end ⟨currentVersion, formatId, readModule, read⟩)

/-- What `encode` writes is read as the same module, the same format and the entries that
were not erased, each of them once and in strictly ascending order. -/
theorem decode_encode {module : Entry} {entries : List Entry} {formatId : Text} {data : Bytes}
    (hmetadata : ∀ e ∈ module :: entries, e.metadata.IsMetadata)
    (hlines : ∀ e ∈ module :: entries, 0 ≤ e.line)
    (h : encode module entries formatId = .ok data) :
    ∃ c kept, decode data = .ok c ∧ c.version = 1 ∧ c.formatId = formatId ∧
      module.stored.Agrees c.module ∧ kept.Perm (entries.filter (! ·.isErased)) ∧
      Entry.Ordered kept ∧ List.Forall₂ Entry.Agrees (kept.map Entry.stored) c.entries := by
  have hkept : module :: keptEntries entries ⊆ module :: entries :=
    List.cons_subset_cons module (keptEntries_subset entries)
  obtain ⟨c, hdecode, hversion, hformat, hmodule, hordered, hread⟩ := exists_decode_of_encode
    (fun e he => hmetadata e (hkept he)) (fun e he => hlines e (hkept he)) h
  exact ⟨c, keptEntries entries, hdecode, hversion, hformat, hmodule, keptEntries_perm entries,
    hordered, hread⟩

/-- A module with a text and a map of numbers as its metadata. -/
def sampleModule : Entry :=
  ⟨.ofModule "m", .authored (.bytes [0x6D]),
    [(.atom "since", .bytes [0x31]),
      (.text "limits", .map [(.int 2, .float 0x7FF8000000000000), (.text "a", .list [.none])])],
    true, 1⟩

/-- A type, a function that is not exported and a callback. -/
def sampleEntries : List Entry :=
  [⟨⟨.type, "t", 0⟩, .hidden, [], true, 5⟩, ⟨⟨.function, "f", 1⟩, .undocumented, [], false, 4⟩,
    ⟨⟨.callback, "c", 2⟩, .undocumented, [], true, 3⟩]

/-- Entries that are out of order, one of them erased, are read back. -/
theorem decode_encode_sampleEntries :
    ∃ data c kept, encode sampleModule sampleEntries "text/markdown" = .ok data ∧
      decode data = .ok c ∧ sampleModule.stored.Agrees c.module ∧
      kept.Perm (sampleEntries.filter (! ·.isErased)) ∧ Entry.Ordered kept ∧
      List.Forall₂ Entry.Agrees (kept.map Entry.stored) c.entries := by
  obtain ⟨data, hdata⟩ : ∃ data, encode sampleModule sampleEntries "text/markdown" = .ok data :=
    Result.exists_of_isOk (by cbv)
  have hmetadata : ∀ e ∈ sampleModule :: sampleEntries, e.metadata.IsMetadata := by decide_cbv
  have hlines : ∀ e ∈ sampleModule :: sampleEntries, 0 ≤ e.line := by decide
  obtain ⟨c, kept, hc, -, -, hmodule, hkept, hordered, hentries⟩ :=
    decode_encode hmetadata hlines hdata
  exact ⟨data, c, kept, hdata, hc, hmodule, hkept, hordered, hentries⟩

end Chunk

end ModuleDocs
