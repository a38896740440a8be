import Mathlib
import ModuleDocs.Proofs.Chunk.Errors
import ModuleDocs.Proofs.Collector.History
import ModuleDocs.Proofs.Collector.Metadata

/-!
# What a table says of its events

`DocTable.Documents t module events exports` reads a table against the events of its unit:
which entities it has entries for, in which order, what their contents are, and which of them
are private.  Whatever table a unit has is one of its events (`DocTable.documents_of_ofEvents`).

Contents are followed from the event that brings a text to the entry.  The contributions of
other events do not touch them (`Contribution.mergeContent_eq`), and a text that was taken in
any form is UTF-8 in the end (`Event.GiveContent.isFinished`).

The writer of a chunk looks for tables that are none of this kind.  Its errors about them
(`ChunkError.IsStructural`) cannot come up behind a collector
(`DocTable.Documents.encode_failsWith`).
-/

namespace ModuleDocs

open Result

/-! ## Contents -/

/-- A content as finished entries have it: a text is UTF-8. -/
inductive Content.IsFinished : Content → Prop
  | undocumented : IsFinished .undocumented
  | hidden : IsFinished .hidden
  | authored {data : Bytes} {chars : Text} (h : Utf8.decode data = .ok chars) :
      IsFinished (.authored (.bytes data))

namespace Content

variable {content normal : Content} {span : Span}

/-- What is no content stays what it is, and everything else is finished. -/
theorem isFinished_of_normalize (h : content.normalize span = .ok normal)
    (hcontent : ∀ value, content ≠ .foreign value) : normal.IsFinished := by
  cases content with
  | undocumented =>
    cases h
    exact .undocumented
  | hidden =>
    cases h
    exact .hidden
  | authored t =>
    rw [normalize] at h
    split at h
    · rename_i data hdata
      cases h
      obtain ⟨chars, _, hchars⟩ := Term.normalizeText_eq_ok_iff.1 hdata
      exact .authored hchars
    · cases h
  | foreign value => exact absurd rfl (hcontent value)

end Content

namespace Event

/-- What an event with a text carries. -/
def payload? : Event → Option Payload
  | .moduleDoc payload _ | .entityDoc _ payload _ => some payload
  | _ => none

/-- The content of an entity of which these events bring a text: none, or that of the only
event, in normal form. -/
inductive GiveContent : List Event → Content → Prop
  | none : GiveContent [] .undocumented
  | one {event : Event} {payload : Payload} {draft content : Content} {place span : Span}
      (hpayload : event.payload? = some payload)
      (hdraft : Collector.contentOf payload place = .ok draft)
      (hcontent : draft.normalize span = .ok content) : GiveContent [event] content

end Event

theorem Collector.ne_foreign_of_contentOf {payload : Payload} {span : Span} {content : Content}
    (h : contentOf payload span = .ok content) (value : Term) : content ≠ .foreign value := by
  rcases contentOf_cases payload span with h' | ⟨t, h'⟩ | ⟨name, h'⟩
  · rw [h'] at h
    cases h
    simp
  · rw [h'] at h
    cases h
    simp
  · rw [h'] at h
    cases h

/-- An entity is undocumented, hidden, or has a text of UTF-8 bytes. -/
theorem Event.GiveContent.isFinished {events : List Event} {content : Content}
    (h : GiveContent events content) : content.IsFinished := by
  cases h with
  | none => exact .undocumented
  | one _ hdraft hcontent =>
    exact Content.isFinished_of_normalize hcontent (Collector.ne_foreign_of_contentOf hdraft)

/-- The content of contributions is that of the texts among them. -/
theorem Contribution.mergeContent_eq (contributions : List Contribution) :
    mergeContent contributions
      = (contributions.filter isDoc).foldl (fun content x => x.content?.getD content)
          .undocumented := by
  rw [mergeContent, List.foldl_filter]
  congr 1
  funext content x
  by_cases hdoc : x.kind = .doc <;> simp [isDoc, hdoc]

/-- An event with a text contributes its content. -/
theorem Event.exists_content_of_isText {event : Event} {x : Contribution}
    (htext : event.isText = true) (h : event.contribution = .ok x) :
    ∃ payload draft, event.payload? = some payload ∧
      Collector.contentOf payload event.span = .ok draft ∧ x.content? = some draft := by
  cases contributes_of_contribution h with
  | moduleText hdraft | entityText hdraft => exact ⟨_, _, rfl, hdraft, rfl⟩
  | moduleItems _ | entityItems _ | declaration => cases htext

namespace Collector

variable {c : Collector} {events : List Event} {schema : Schema} {exports : List (Text × Int)}
  {t : DocTable}

/-- The content of an entity is that of the event with a text of it. -/
theorem Remembers.giveContent (h : c.Remembers events) {ref : EntityRef} {span : Span}
    {content : Content}
    (hcontent : (Contribution.mergeContent (c.contributions ref)).normalize span = .ok content) :
    Event.GiveContent (Event.textsOf c.moduleRef ref events) content := by
  have hpairs := Result.forall₂_of_mapM (h.mapM_textsOf ref)
  have hlength := h.length_textsOf_le ref
  have htexts : ∀ event ∈ Event.textsOf c.moduleRef ref events, event.isText = true :=
    fun event hevent => (Event.mem_textsOf.1 hevent).2.2
  rw [Contribution.mergeContent_eq] at hcontent
  revert hcontent
  generalize (c.contributions ref).filter Contribution.isDoc = docs at hpairs
  generalize Event.textsOf c.moduleRef ref events = texts at hpairs hlength htexts
  intro hcontent
  cases hpairs with
  | nil =>
    cases hcontent
    exact .none
  | @cons event x rest others hfirst hrest =>
    have hnone : rest = [] := List.length_eq_zero_iff.1 (by simpa using hlength)
    subst hnone
    cases hrest
    obtain ⟨payload, draft, hpayload, hdraft, hx⟩ :=
      Event.exists_content_of_isText (htexts event List.mem_cons_self) hfirst
    rw [List.foldl_cons, List.foldl_nil, hx] at hcontent
    exact .one hpayload hdraft hcontent

end Collector

/-! ## Tables -/

namespace DocTable

/-- The table documents the events of a unit. -/
structure Documents (t : DocTable) (module : Text) (events : List Event)
    (exports : List (Text × Int)) : Prop where
  own : t.module.ref = .ofModule module
  /-- The other entries stand in strictly ascending order by kind, name and arity. -/
  ascending : t.entries.Pairwise fun a b => a.ref.kind.name < b.ref.kind.name ∨
    a.ref.kind = b.ref.kind ∧
      (a.ref.name < b.ref.name ∨ a.ref.name = b.ref.name ∧ a.ref.arity < b.ref.arity)
  /-- They are about the entities that an event is about, but no module. -/
  entities : ∀ ref, ref ∈ t.entries.map (·.ref) ↔
    ref.kind ≠ .module ∧ ∃ event ∈ events, event.about (.ofModule module) = ref
  contents : ∀ e ∈ t.module :: t.entries,
    Event.GiveContent (Event.textsOf (.ofModule module) e.ref events) e.content
  exported : ∀ e ∈ t.module :: t.entries,
    e.exported = false ↔ e.ref.kind = .function ∧ (e.ref.name, e.ref.arity) ∉ exports
  finished : ∀ e ∈ t.module :: t.entries, e.content.IsFinished

end DocTable

namespace Collector

variable {c : Collector} {events : List Event} {schema : Schema} {exports : List (Text × Int)}
  {t : DocTable}

/-- The table of a collector documents the events that it has taken. -/
theorem Remembers.documents (h : c.Remembers events) (htable : c.table schema exports = .ok t) :
    t.Documents c.module events exports := by
  have hfinish := finish_of_mem_table h.isLog htable
  have hcontents : ∀ e ∈ t.module :: t.entries,
      Event.GiveContent (Event.textsOf c.moduleRef e.ref events) e.content := by
    intro e he
    obtain ⟨_, _, _, ⟨span, hcontent⟩, _⟩ := finish_eq_ok (hfinish e he)
    exact h.giveContent hcontent
  refine ⟨?_, ?_, ?_, hcontents, ?_, fun e he => (hcontents e he).isFinished⟩
  · exact (finish_eq_ok (table_eq_ok_iff.1 htable).1).1
  · refine (ordered_entries h.isLog htable).1.imp fun hab => ?_
    rw [EntityRef.precedes_iff, EntityKind.rank_lt_rank_iff] at hab
    exact hab
  · intro ref
    rw [(map_ref_perm_of_table htable).mem_iff, List.mem_filter, h.refs, List.mem_eraseDups,
      List.mem_cons, List.mem_map]
    have hmodule : ref.kind ≠ .module → ref ≠ c.moduleRef := by
      rintro hkind rfl
      exact hkind rfl
    constructor
    · rintro ⟨hmem, hother⟩
      have hne : ref ≠ c.moduleRef := by simpa using hother
      obtain ⟨event, hevent, habout⟩ := hmem.resolve_left hne
      refine ⟨?_, event, hevent, habout⟩
      intro hkind
      rw [← habout] at hkind hne
      exact hne ((h.acceptable event hevent).own hkind)
    · rintro ⟨hkind, event, hevent, habout⟩
      exact ⟨Or.inr ⟨event, hevent, habout⟩, by simpa using hmodule hkind⟩
  · intro e he
    rw [(finish_eq_ok (hfinish e he)).2.1]
    simp [EntityRef.isPrivate]

end Collector

/-! ## Writing -/

/-- An error about a table that no events have. -/
def ChunkError.IsStructural : ChunkError → Prop
  | .moduleExpected _ | .unexpectedModule _ | .duplicateEntry _ | .notNormalized _
  | .unsupportedContent _ _ | .tooLong _ => True
  | .arityOutOfRange _ | .lineOutOfRange _ | .term _ => False

namespace Chunk

theorem notStructural_term {α : Type} (x : Except EncodeError α) :
    FailsWith (¬ ChunkError.IsStructural ·) (x.mapError .term) :=
  FailsWith.mapError fun _ _ => id

/-- The writer takes contents of finished entries. -/
theorem notStructural_encodeContent {content : Content} (h : content.IsFinished) (ref : EntityRef) :
    FailsWith (¬ ChunkError.IsStructural ·) (encodeContent ref content) := by
  cases h with
  | undocumented => exact FailsWith.ok _
  | hidden => exact FailsWith.ok _
  | authored _ => exact (notStructural_term _).bind fun blob _ => FailsWith.ok _

theorem notStructural_encodeEntry {e : Entry} (h : e.content.IsFinished) :
    FailsWith (¬ ChunkError.IsStructural ·) (encodeEntry e) :=
  encodeEntry_failsWith (notStructural_term _) id (fun _ => id)
    (notStructural_encodeContent h e.ref) (notStructural_term _)

end Chunk

namespace DocTable

variable {module : Text} {events : List Event} {exports : List (Text × Int)} {schema : Schema}
  {source? : Option Text} {t : DocTable}

/-- The writer finds nothing wrong with the structure of a table that documents events. -/
theorem Documents.encode_failsWith (h : t.Documents module events exports) (defaultFormat : Text) :
    FailsWith (¬ ChunkError.IsStructural ·) (t.encode defaultFormat) := by
  have hordered : Entry.Ordered t.entries := by
    refine h.ascending.imp fun hab => ?_
    rwa [EntityRef.precedes_iff, EntityKind.rank_lt_rank_iff]
  have hkinds : ∀ e ∈ t.entries, e.ref.kind ≠ .module :=
    fun e he => ((h.entities e.ref).1 (List.mem_map_of_mem he)).1
  have hcheck := Chunk.checkEntries_of_ordered hordered hkinds
  refine Chunk.encode_failsWith ?_ ?_ (Chunk.notStructural_term _)
    (fun n => Chunk.notStructural_term _)
    fun e he => Chunk.notStructural_encodeEntry (h.finished e he)
  · intro hkind
    rw [h.own] at hkind
    exact absurd rfl hkind
  · rw [hcheck]
    exact FailsWith.ok ()

/-- Whatever table the events of a unit have documents them, and the writer finds nothing wrong
with its structure. -/
theorem documents_of_ofEvents (h : ofEvents module events exports schema source? = .ok t) :
    t.Documents module events exports ∧
      ∀ defaultFormat, FailsWith (¬ ChunkError.IsStructural ·) (t.encode defaultFormat) := by
  obtain ⟨c, hrun, htable⟩ := exists_collector_of_ofEvents h
  have hremembers := (Collector.remembers_new module source?).observeAll hrun
  have hdocuments := hremembers.documents htable
  rw [(Collector.module_of_observeAll hrun).1] at hdocuments
  exact ⟨hdocuments, hdocuments.encode_failsWith⟩

/-- A text in Latin-1, a function that is hidden and one that is private, and a type of which
only metadata is known. -/
def sampleContents : List Event :=
  [.moduleDoc (.value (.tagged [0xE9] "latin1")) .unknown,
    .entityMeta ⟨.type, "t", 0⟩ (.map [(.text "since", .text "1")]) .unknown,
    .entityDoc ⟨.function, "g", 1⟩ (.content .hidden) .unknown,
    .declaration ⟨.function, "f", 2⟩ .unknown,
    .entityDoc ⟨.function, "f", 2⟩ (.value (.atom "doc")) .unknown]

theorem documents_of_ofEvents_sampleContents :
    ∃ t, ofEvents "m" sampleContents [("g", 1)] Schema.default none = .ok t ∧
      t.entries.length = 3 ∧ t.Documents "m" sampleContents [("g", 1)] ∧
      FailsWith (¬ ChunkError.IsStructural ·) (t.encode "text/plain") := by
  have hlength : (ofEvents "m" sampleContents [("g", 1)] Schema.default none).map
      (·.entries.length) = .ok 3 := by cbv
  obtain ⟨t, ht, hentries⟩ := map_eq_ok_iff.1 hlength
  obtain ⟨hdocuments, hencode⟩ := documents_of_ofEvents ht
  exact ⟨t, ht, hentries, hdocuments, hencode _⟩

end DocTable

end ModuleDocs
