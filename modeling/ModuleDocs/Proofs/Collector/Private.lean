import Mathlib
import ModuleDocs.Proofs.Collector.Table

/-!
# Private functions leave no trace

A function that is not exported is private.  `Collector.publicPart` is what a collector
knows about everything else.  An event about a private function does not change it
(`publicPart_of_private`), any other event changes it as it changes the collector
(`observe_publicPart`), and so a run changes it as the run without the private events
does (`observeAll_publicPart`).

The chunk of a table depends on the public part only (`table_publicPart`,
`encode_eq_of_visible_eq`).  `encode_eq_of_public_eq` puts this together for two runs.
-/

namespace ModuleDocs

/-- Whether an event is about a private function. -/
def Event.isPrivate (exports : List (Text × Int)) : Event → Bool
  | .declaration ref _ | .entityDoc ref _ _ | .entityMeta ref _ _ => ref.isPrivate exports
  | .moduleDoc .. | .moduleMeta .. | .foreign _ => false

namespace Collector

variable {c c' : Collector} {exports : List (Text × Int)} {event : Event} {events : List Event}
  {schema : Schema} {t : DocTable}

/-- What is known about entities that are not private. -/
def publicPart (exports : List (Text × Int)) (c : Collector) : Collector :=
  { c with
    log := c.log.filter (! ·.1.isPrivate exports)
    docSpans := c.docSpans.filter (! ·.1.isPrivate exports) }

@[simp] theorem moduleRef_publicPart : (c.publicPart exports).moduleRef = c.moduleRef := rfl

theorem isPrivate_moduleRef (c : Collector) (exports : List (Text × Int)) :
    c.moduleRef.isPrivate exports = false := rfl

theorem isPrivate_about (c : Collector) (exports : List (Text × Int)) (event : Event) :
    (event.about c.moduleRef).isPrivate exports = event.isPrivate exports := by
  cases event <;> rfl

/-! ## One event -/

theorem filter_addTo_of_private {ref : EntityRef} (h : ref.isPrivate exports = true)
    (contribution : Contribution) (log : List (EntityRef × List Contribution)) :
    (addTo ref contribution log).filter (! ·.1.isPrivate exports)
      = log.filter (! ·.1.isPrivate exports) := by
  induction log with
  | nil => simp [addTo, h]
  | cons line rest ih =>
    rw [addTo]
    split
    · rename_i hsame
      simp [hsame, h]
    · simp only [List.filter_cons, ih]

theorem filter_addTo_of_public {ref : EntityRef} (h : ref.isPrivate exports = false)
    (contribution : Contribution) (log : List (EntityRef × List Contribution)) :
    (addTo ref contribution log).filter (! ·.1.isPrivate exports)
      = addTo ref contribution (log.filter (! ·.1.isPrivate exports)) := by
  induction log with
  | nil => simp [addTo, h]
  | cons line rest ih =>
    rw [addTo]
    by_cases hsame : line.1 = ref
    · simp [hsame, h, addTo]
    · rw [if_neg hsame, List.filter_cons, List.filter_cons, ih]
      cases hline : line.1.isPrivate exports <;> simp [addTo, hsame]

/-- Where the text of a public entity is does not depend on the private ones. -/
theorem docSpan?_publicPart {ref : EntityRef} (h : ref.isPrivate exports = false) :
    (c.publicPart exports).docSpan? ref = c.docSpan? ref := by
  unfold docSpan? publicPart
  rw [List.find?_filter]
  congr 2
  funext line
  by_cases hsame : line.1 = ref <;> simp [hsame, h]

/-- An event about a private function leaves what is public as it is. -/
theorem publicPart_of_private (h : event.isPrivate exports = true)
    (hobserve : c.observe event = .ok c') : c'.publicPart exports = c.publicPart exports := by
  obtain ⟨_, _, _, contribution, _, rfl⟩ := observe_eq_ok_iff.1 hobserve
  have hprivate : (event.about c.moduleRef).isPrivate exports = true := by
    rwa [isPrivate_about]
  unfold publicPart take add
  simp only [filter_addTo_of_private hprivate, List.filter_append]
  cases event.textSpan? <;> simp [hprivate]

/-- Any other event changes what is public as it changes the collector. -/
theorem observe_publicPart (h : event.isPrivate exports = false)
    (hobserve : c.observe event = .ok c') :
    (c.publicPart exports).observe event = .ok (c'.publicPart exports) := by
  obtain ⟨hopen, hmodule, hspan, contribution, hcontribution, rfl⟩ := observe_eq_ok_iff.1 hobserve
  have hpublic : (event.about c.moduleRef).isPrivate exports = false := by
    rwa [isPrivate_about]
  refine observe_eq_ok_iff.2 ⟨hopen, hmodule, fun htext => ?_, contribution, hcontribution, ?_⟩
  · exact (docSpan?_publicPart hpublic).trans (hspan htext)
  · rw [moduleRef_publicPart]
    unfold publicPart take add
    simp only [filter_addTo_of_public hpublic, List.filter_append]
    cases event.textSpan? <;> simp [hpublic]

/-! ## Runs -/

/-- A run changes what is public as the run without the private events does. -/
theorem observeAll_publicPart (exports : List (Text × Int))
    (h : c.observeAll events = (.ok (), c')) :
    (c.publicPart exports).observeAll (events.filter (! ·.isPrivate exports))
      = (.ok (), c'.publicPart exports) := by
  induction events generalizing c with
  | nil =>
    cases h
    rfl
  | cons event rest ih =>
    rw [observeAll] at h
    cases hfirst : c.observe event with
    | error e => simp [hfirst] at h
    | ok next =>
      rw [hfirst] at h
      cases hevent : event.isPrivate exports with
      | true =>
        rw [List.filter_cons_of_neg (by simp [hevent]), ← publicPart_of_private hevent hfirst]
        exact ih h
      | false =>
        rw [List.filter_cons_of_pos (by simp [hevent]), observeAll, observe_publicPart hevent hfirst]
        exact ih h

theorem publicPart_new (module : Text) (source? : Option Text) (exports : List (Text × Int)) :
    (new module source?).publicPart exports = new module source? := by
  simp [publicPart, new, EntityRef.isPrivate, EntityRef.ofModule]

/-! ## Tables -/

theorem history_publicPart (c : Collector) (exports : List (Text × Int)) :
    (c.publicPart exports).history = c.history.filter (! ·.1.isPrivate exports) := by
  simp [history, publicPart, List.filter_map, Function.comp_def]

theorem otherLines_publicPart (c : Collector) (exports : List (Text × Int)) :
    (c.publicPart exports).otherLines = c.otherLines.filter (! ·.1.isPrivate exports) := by
  rw [otherLines, otherLines, history_publicPart, List.filter_filter, List.filter_filter]
  exact List.filter_congr fun _ _ => Bool.and_comm _ _

theorem contributions_publicPart (c : Collector) (exports : List (Text × Int)) :
    (c.publicPart exports).contributions c.moduleRef = c.contributions c.moduleRef := by
  unfold contributions
  rw [history_publicPart, List.find?_filter]
  congr 3
  funext line
  by_cases hsame : line.1 = c.moduleRef <;> simp [hsame, isPrivate_moduleRef]

/-- Without the private functions there are the entries that are not erased. -/
theorem finishes_filter {lines : List (EntityRef × List Contribution)} {entries : List Entry}
    (h : List.Forall₂ (c.Finishes schema exports) lines entries) :
    List.Forall₂ (c.Finishes schema exports) (lines.filter (! ·.1.isPrivate exports))
      (entries.filter (! ·.isErased)) := by
  induction h with
  | nil => exact .nil
  | @cons line e lines entries hfirst _ ih =>
    have herased : e.isErased = line.1.isPrivate exports := isErased_of_finish hfirst
    cases hprivate : line.1.isPrivate exports with
    | true => simpa [hprivate, herased] using ih
    | false => simpa [hprivate, herased] using List.Forall₂.cons hfirst ih

/-- The table of the public part has the same module and the entries that are not erased. -/
theorem table_publicPart (hlog : c.IsLog) (h : c.table schema exports = .ok t) :
    (c.publicPart exports).table schema exports = .ok { t with entries := t.visible } := by
  obtain ⟨hmodule, hformat, entries, hentries, hsorted⟩ := table_eq_ok_iff.1 h
  refine table_eq_ok_iff.2 ⟨?_, hformat, entries.filter (! ·.isErased), ?_, ?_⟩
  · rw [moduleRef_publicPart, contributions_publicPart]
    exact hmodule
  · rw [otherLines_publicPart]
    exact finishes_filter hentries
  · have hnodup := (nodup_of_finishes hlog hentries).1
    have hvisible : Entry.Ordered t.visible :=
      (ordered_entries hlog h).1.sublist List.filter_sublist
    refine Entry.eq_of_perm_of_ordered ?_ hvisible
      (Entry.ordered_mergeSort (hnodup.sublist (List.filter_sublist.map _)))
    rw [DocTable.visible, hsorted]
    exact ((List.mergeSort_perm _ _).filter _).trans (List.mergeSort_perm _ _).symm

/-! ## Chunks -/

/-- What is written depends on the module, the format and the entries that are not erased. -/
theorem encode_eq_of_visible_eq {t t' : DocTable} {defaultFormat : Text}
    (hmodule : t.module = t'.module) (hformat : t.formatId? = t'.formatId?)
    (hvisible : t.visible = t'.visible) (hcheck : Chunk.checkEntries [] t.entries = .ok ())
    (hcheck' : Chunk.checkEntries [] t'.entries = .ok ()) :
    t.encode defaultFormat = t'.encode defaultFormat := by
  have hkept : Chunk.keptEntries t.entries = Chunk.keptEntries t'.entries :=
    congrArg (fun entries => entries.mergeSort fun a b => ! b.ref.precedes a.ref) hvisible
  unfold DocTable.encode Chunk.encode
  rw [hmodule, hformat, hcheck, hcheck', hkept]

theorem checkEntries_of_table (hlog : c.IsLog) (h : c.table schema exports = .ok t) :
    Chunk.checkEntries [] t.entries = .ok () := by
  obtain ⟨hordered, hkinds⟩ := ordered_entries hlog h
  exact Chunk.checkEntries_of_ordered hordered hkinds

end Collector

namespace DocTable

/-- Private functions do not show in what is written: two sequences of events that are
equal without the events about private functions have the same bytes, or are refused for
the same reason. -/
theorem encode_eq_of_public_eq {module : Text} {events events' : List Event}
    {exports : List (Text × Int)} {schema : Schema} {source? : Option Text} {t t' : DocTable}
    (hevents : events.filter (! ·.isPrivate exports) = events'.filter (! ·.isPrivate exports))
    (h : ofEvents module events exports schema source? = .ok t)
    (h' : ofEvents module events' exports schema source? = .ok t') (defaultFormat : Text) :
    t.encode defaultFormat = t'.encode defaultFormat := by
  obtain ⟨c, hrun, htable⟩ := exists_collector_of_ofEvents h
  obtain ⟨c', hrun', htable'⟩ := exists_collector_of_ofEvents h'
  have hpublic := Collector.observeAll_publicPart exports hrun
  have hpublic' := Collector.observeAll_publicPart exports hrun'
  rw [Collector.publicPart_new] at hpublic hpublic'
  have hsame : c.publicPart exports = c'.publicPart exports := by
    rw [hevents, hpublic'] at hpublic
    exact ((Prod.mk.inj hpublic).2).symm
  have hlog := Collector.isLog_of_observeAll (Collector.isLog_new module source?) hrun
  have hlog' := Collector.isLog_of_observeAll (Collector.isLog_new module source?) hrun'
  have hvisible := Collector.table_publicPart hlog htable
  rw [hsame, Collector.table_publicPart hlog' htable'] at hvisible
  obtain ⟨hmodule, hentries, hformat⟩ := DocTable.mk.inj (Except.ok.inj hvisible)
  exact Collector.encode_eq_of_visible_eq hmodule.symm hformat.symm hentries.symm
    (Collector.checkEntries_of_table hlog htable) (Collector.checkEntries_of_table hlog' htable')

/-- Events about two functions, of which `h/1` is the second. -/
def sampleEvents : List Event :=
  [.entityDoc ⟨.function, "h", 1⟩ (.value (.text "inside")) .unknown,
    .entityDoc ⟨.function, "g", 1⟩ (.value (.text "doc")) .unknown,
    .declaration ⟨.function, "h", 1⟩ .unknown, .declaration ⟨.function, "g", 1⟩ .unknown]

/-- Where only `g/1` is exported, `h/1` might as well not be there. -/
theorem encode_eq_of_public_eq_sampleEvents :
    ∃ t t', ofEvents "m" sampleEvents [("g", 1)] Schema.default none = .ok t ∧
      ofEvents "m" (sampleEvents.filter (! ·.isPrivate [("g", 1)])) [("g", 1)] Schema.default none
        = .ok t' ∧ t.entries ≠ t'.entries ∧ t.encode "text/plain" = t'.encode "text/plain" := by
  obtain ⟨t, ht⟩ : ∃ t, ofEvents "m" sampleEvents [("g", 1)] Schema.default none = .ok t :=
    Result.exists_of_isOk (by cbv)
  obtain ⟨t', ht'⟩ : ∃ t', ofEvents "m" (sampleEvents.filter (! ·.isPrivate [("g", 1)]))
      [("g", 1)] Schema.default none = .ok t' := Result.exists_of_isOk (by cbv)
  have hlength : (ofEvents "m" sampleEvents [("g", 1)] Schema.default none).map (·.entries.length)
      = .ok 2 := by cbv
  have hlength' : (ofEvents "m" (sampleEvents.filter (! ·.isPrivate [("g", 1)])) [("g", 1)]
      Schema.default none).map (·.entries.length) = .ok 1 := by cbv
  rw [ht] at hlength
  rw [ht'] at hlength'
  refine ⟨t, t', ht, ht', ?_, encode_eq_of_public_eq (by simp) ht ht' _⟩
  intro hsame
  simp [Except.map, hsame] at hlength hlength'
  omega

end DocTable

end ModuleDocs
