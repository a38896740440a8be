import Mathlib
import ModuleDocs.Proofs.Collector.History
import ModuleDocs.Proofs.Collector.Table

/-!
# Events about different entities

Two sequences of events agree by entity (`Event.AgreeByEntity`) when every entity has the same
events in both, in the same order.  They may differ in how events about different entities
stand among each other, as they do when a declaration is moved or a fragment is included at
another place.

Such sequences are taken or refused together, and two collectors that have taken them differ
only in the order of the lines of their logs (`Remembers.otherLines_perm`).  A table sorts its
entries, so that it is the same in the end (`DocTable.ofEvents_eq_ok_iff_of_agree`).
-/

namespace ModuleDocs

namespace Event

/-- Every entity has the same events in both sequences, in the same order. -/
def AgreeByEntity (module : EntityRef) (events events' : List Event) : Prop :=
  ∀ ref, events.filter (isAbout module ref) = events'.filter (isAbout module ref)

namespace AgreeByEntity

variable {module : EntityRef} {events events' : List Event}

theorem symm (h : AgreeByEntity module events events') : AgreeByEntity module events' events :=
  fun ref => (h ref).symm

/-- An event is among those about the entity that it is about. -/
theorem mem_iff (h : AgreeByEntity module events events') (event : Event) :
    event ∈ events ↔ event ∈ events' := by
  have hself : event.isAbout module (event.about module) = true := by simp [isAbout]
  have hmem : ∀ l : List Event,
      event ∈ l.filter (isAbout module (event.about module)) ↔ event ∈ l := by
    intro l
    rw [List.mem_filter]
    exact and_iff_left hself
  rw [← hmem events, h, hmem events']

theorem textsOf_eq (h : AgreeByEntity module events events') (ref : EntityRef) :
    textsOf module ref events = textsOf module ref events' := by
  rw [textsOf, h, textsOf]

end AgreeByEntity

end Event

namespace Collector

variable {c c' : Collector} {events events' : List Event} {schema : Schema}
  {exports : List (Text × Int)} {t : DocTable}

/-- What two collectors that agree by entity know of it is the same. -/
theorem Remembers.contributions_eq (h : c.Remembers events) (h' : c'.Remembers events')
    (hmodule : c'.moduleRef = c.moduleRef)
    (hagree : Event.AgreeByEntity c.moduleRef events events') :
    c'.contributions = c.contributions := by
  funext ref
  have hcontributions := h'.contributions ref
  rw [hmodule, ← hagree, h.contributions ref] at hcontributions
  exact (Except.ok.inj hcontributions).symm

/-- They know of the same entities, but may have come to know them in another order. -/
theorem Remembers.refs_perm (h : c.Remembers events) (h' : c'.Remembers events')
    (hmodule : c'.moduleRef = c.moduleRef)
    (hagree : Event.AgreeByEntity c.moduleRef events events') :
    c.refs.Perm c'.refs := by
  refine (List.perm_ext_iff_of_nodup h.isLog.distinct h'.isLog.distinct).2 ?_
  intro ref
  rw [h.refs, h'.refs, hmodule, List.mem_eraseDups, List.mem_eraseDups]
  simp only [List.mem_cons, List.mem_map, hagree.mem_iff]

theorem Remembers.otherLines_perm (h : c.Remembers events) (h' : c'.Remembers events')
    (hmodule : c'.moduleRef = c.moduleRef)
    (hagree : Event.AgreeByEntity c.moduleRef events events') :
    c.otherLines.Perm c'.otherLines := by
  rw [otherLines, otherLines, history_eq_map h.isLog.distinct, history_eq_map h'.isLog.distinct,
    hmodule, h.contributions_eq h' hmodule hagree]
  exact ((h.refs_perm h' hmodule hagree).map _).filter _

/-- A table does not show in which order its collector came to know the entities. -/
theorem table_of_perm (hlog : c.IsLog) (hmodule : c'.moduleRef = c.moduleRef)
    (hsource : c'.source? = c.source?) (hcontributions : c'.contributions = c.contributions)
    (hlines : c.otherLines.Perm c'.otherLines) (h : c.table schema exports = .ok t) :
    c'.table schema exports = .ok t := by
  have hfinish : c'.finish schema exports = c.finish schema exports := by
    unfold finish
    rw [hsource]
  have hfinishes : c'.Finishes schema exports = c.Finishes schema exports := by
    unfold Finishes
    rw [hfinish]
  obtain ⟨hfirst, hformat, entries, hentries, hsorted⟩ := table_eq_ok_iff.1 h
  obtain ⟨entries', hentries', hperm⟩ := List.perm_comp_forall₂ hlines.symm hentries
  refine table_eq_ok_iff.2 ⟨?_, hformat, entries', ?_, ?_⟩
  · rw [hmodule, hcontributions, hfinish]
    exact hfirst
  · rw [hfinishes]
    exact hentries'
  · rw [hsorted]
    have hnodup := (nodup_of_finishes hlog hentries).1
    have hnodup' : (entries'.map (·.ref)).Nodup := (hperm.map _).nodup_iff.2 hnodup
    refine Entry.eq_of_perm_of_ordered ?_ (Entry.ordered_mergeSort hnodup)
      (Entry.ordered_mergeSort hnodup')
    exact (List.mergeSort_perm _ _).trans (hperm.symm.trans (List.mergeSort_perm _ _).symm)

end Collector

namespace DocTable

variable {module : Text} {events events' : List Event} {exports : List (Text × Int)}
  {schema : Schema} {source? : Option Text} {t : DocTable}

theorem ofEvents_of_agree (h : Event.AgreeByEntity (.ofModule module) events events')
    (ht : ofEvents module events exports schema source? = .ok t) :
    ofEvents module events' exports schema source? = .ok t := by
  obtain ⟨c, hrun, htable⟩ := exists_collector_of_ofEvents ht
  -- The other sequence is taken as a whole too.
  obtain ⟨hacceptable, htexts⟩ := Collector.exists_observeAll_new_iff.1 ⟨c, hrun⟩
  obtain ⟨c', hrun'⟩ : ∃ c', (Collector.new module source?).observeAll events' = (.ok (), c') := by
    refine Collector.exists_observeAll_new_iff.2 ⟨?_, ?_⟩
    · intro event hevent
      exact hacceptable event ((h.mem_iff event).2 hevent)
    · intro ref
      rw [← h.textsOf_eq]
      exact htexts ref
  have hremembers := (Collector.remembers_new module source?).observeAll hrun
  have hremembers' := (Collector.remembers_new module source?).observeAll hrun'
  obtain ⟨hmodule, hsource, _⟩ := Collector.module_of_observeAll hrun
  obtain ⟨hmodule', hsource', hopen'⟩ := Collector.module_of_observeAll hrun'
  have hsame : c'.moduleRef = c.moduleRef := by
    rw [Collector.moduleRef, Collector.moduleRef, hmodule, hmodule']
  have hagree : Event.AgreeByEntity c.moduleRef events events' := by
    rw [Collector.moduleRef, hmodule]
    exact h
  have htable' : c'.table schema exports = .ok t :=
    Collector.table_of_perm hremembers.isLog hsame (hsource'.trans hsource.symm)
      (hremembers.contributions_eq hremembers' hsame hagree)
      (hremembers.otherLines_perm hremembers' hsame hagree) htable
  rw [ofEvents, hrun']
  have hnew : c'.isFinalized = false := hopen'
  simp only [Collector.finalize, hnew]
  exact htable'

/-- Only the order of the events about one entity counts: sequences that agree by entity have
the same table, or neither has one. -/
theorem ofEvents_eq_ok_iff_of_agree (h : Event.AgreeByEntity (.ofModule module) events events')
    (t : DocTable) :
    ofEvents module events exports schema source? = .ok t ↔
      ofEvents module events' exports schema source? = .ok t :=
  ⟨ofEvents_of_agree h, ofEvents_of_agree h.symm⟩

/-- Events about a module, a function and a type, entity by entity. -/
def sampleByEntity : List Event :=
  [.moduleMeta (.map [(.atom "format", .text "text/plain"), (.text "since", .text "1")]) .unknown,
    .moduleMeta (.map [(.text "since", .bytes [0x32])]) .unknown,
    .entityDoc ⟨.function, "f", 1⟩ (.value (.text "doc")) .unknown,
    .declaration ⟨.function, "f", 1⟩ .unknown,
    .entityMeta ⟨.type, "t", 0⟩ (.map [(.text "k", .int 1)]) .unknown]

/-- The same events, of which that about the type comes first and those about the function
stand among those about the module. -/
def sampleInterleaved : List Event :=
  [.entityMeta ⟨.type, "t", 0⟩ (.map [(.text "k", .int 1)]) .unknown,
    .entityDoc ⟨.function, "f", 1⟩ (.value (.text "doc")) .unknown,
    .moduleMeta (.map [(.atom "format", .text "text/plain"), (.text "since", .text "1")]) .unknown,
    .declaration ⟨.function, "f", 1⟩ .unknown,
    .moduleMeta (.map [(.text "since", .bytes [0x32])]) .unknown]

theorem agree_sampleInterleaved :
    Event.AgreeByEntity (.ofModule "m") sampleByEntity sampleInterleaved := by
  intro ref
  by_cases hmodule : EntityRef.ofModule "m" = ref
  · subst hmodule
    decide
  by_cases hfunction : (⟨.function, "f", 1⟩ : EntityRef) = ref
  · subst hfunction
    decide
  by_cases htype : (⟨.type, "t", 0⟩ : EntityRef) = ref
  · subst htype
    decide
  simp [sampleByEntity, sampleInterleaved, Event.isAbout, Event.about, hmodule, hfunction, htype]

/-- Both have one table, of which the format and the metadata come from the module's events. -/
theorem ofEvents_eq_ok_iff_of_agree_sampleInterleaved :
    Event.AgreeByEntity (.ofModule "m") sampleByEntity sampleInterleaved ∧
      sampleByEntity ≠ sampleInterleaved ∧
      ∃ t, ofEvents "m" sampleByEntity [("f", 1)] Schema.default none = .ok t ∧
        t.entries.length = 2 ∧ t.formatId? = some (Text.ofString "text/plain") ∧
        ofEvents "m" sampleInterleaved [("f", 1)] Schema.default none = .ok t := by
  refine ⟨agree_sampleInterleaved, by decide, ?_⟩
  have hparts : (ofEvents "m" sampleByEntity [("f", 1)] Schema.default none).map
      (fun t => (t.entries.length, t.formatId?)) = .ok (2, some (Text.ofString "text/plain")) := by
    cbv
  obtain ⟨t, ht, hentries⟩ := Result.map_eq_ok_iff.1 hparts
  obtain ⟨hlength, hformat⟩ := Prod.mk.inj hentries
  exact ⟨t, ht, hlength, hformat, (ofEvents_eq_ok_iff_of_agree agree_sampleInterleaved t).1 ht⟩

end DocTable

end ModuleDocs
