import Mathlib
import ModuleDocs.Proofs.Collector.Observe
import ModuleDocs.Proofs.Entry.Order
import ModuleDocs.Proofs.Lists

/-!
# The table of a collector

A table has one entry for each entity of the log but the module, in strictly ascending
order (`ordered_entries`), and each of them comes from the contributions to its entity
(`finish_of_mem_table`).  Erased are just the functions that are not exported
(`isErased_of_finish`).
-/

namespace ModuleDocs

/-- Whether an entity is a function that is not among the exports. -/
def EntityRef.isPrivate (exports : List (Text × Int)) (ref : EntityRef) : Bool :=
  ref.kind = .function && ! exports.contains (ref.name, ref.arity)

namespace Collector

variable {c : Collector} {schema : Schema} {exports : List (Text × Int)} {t : DocTable}

/-- What a finished entry is. -/
theorem finish_eq_ok {ref : EntityRef} {contributions : List Contribution} {e : Entry}
    (h : c.finish schema exports ref contributions = .ok e) :
    e.ref = ref ∧ e.exported = (! ref.isPrivate exports) ∧
      e.line = Contribution.mergeLine contributions ∧
      (∃ span, (Contribution.mergeContent contributions).normalize span = .ok e.content) ∧
      ∃ span, Items.normalize schema span
        (Contribution.mergeMetadata (Contribution.metadataMaps contributions)) = .ok e.metadata := by
  have h := Result.mapError_eq_ok_iff.1 h
  obtain ⟨content, hcontent, h⟩ := Result.bind_eq_ok_iff.1 h
  obtain ⟨metadata, hmetadata, rfl⟩ := Result.bind_pure_eq_ok_iff.1 h
  refine ⟨rfl, ?_, rfl, ⟨_, hcontent⟩, ⟨_, hmetadata⟩⟩
  simp [Contribution.merge, EntityRef.isPrivate]

theorem isErased_of_finish {ref : EntityRef} {contributions : List Contribution} {e : Entry}
    (h : c.finish schema exports ref contributions = .ok e) :
    e.isErased = ref.isPrivate exports := by
  obtain ⟨href, hexported, -⟩ := finish_eq_ok h
  rw [Entry.isErased, href, hexported, EntityRef.isPrivate]
  by_cases hkind : ref.kind = .function <;> simp [hkind]

/-- A line of the log and the entry that it makes. -/
def Finishes (c : Collector) (schema : Schema) (exports : List (Text × Int))
    (line : EntityRef × List Contribution) (e : Entry) : Prop :=
  c.finish schema exports line.1 line.2 = .ok e

theorem finishAll_eq_ok_iff {lines : List (EntityRef × List Contribution)} {entries : List Entry} :
    c.finishAll schema exports lines = .ok entries ↔
      List.Forall₂ (c.Finishes schema exports) lines entries := by
  induction lines generalizing entries with
  | nil =>
    rw [finishAll, List.forall₂_nil_left_iff, Except.ok.injEq, eq_comm]
  | cons line rest ih =>
    rw [finishAll, List.forall₂_cons_left_iff]
    simp only [Result.bind_eq_ok_iff, Result.pure_eq_ok_iff, ih]
    constructor
    · rintro ⟨e, he, others, hothers, rfl⟩
      exact ⟨e, others, he, hothers, rfl⟩
    · rintro ⟨e, others, he, hothers, rfl⟩
      exact ⟨e, he, others, hothers, rfl⟩

/-- The lines of the log that are not about the module. -/
def otherLines (c : Collector) : List (EntityRef × List Contribution) :=
  c.history.filter fun line => line.1 ≠ c.moduleRef

/-- When a collector has a table, and which. -/
theorem table_eq_ok_iff :
    c.table schema exports = .ok t ↔
      c.finish schema exports c.moduleRef (c.contributions c.moduleRef) = .ok t.module ∧
      formatOf t.module = .ok t.formatId? ∧
      ∃ entries, List.Forall₂ (c.Finishes schema exports) c.otherLines entries ∧
        t.entries = entries.mergeSort fun a b => ! b.ref.precedes a.ref := by
  obtain ⟨module, entries, formatId?⟩ := t
  simp only [table, Result.bind_eq_ok_iff, Result.pure_eq_ok_iff, finishAll_eq_ok_iff,
    DocTable.mk.injEq]
  constructor
  · rintro ⟨m, hm, es, hes, f, hf, rfl, rfl, rfl⟩
    exact ⟨hm, hf, es, hes, rfl⟩
  · rintro ⟨hm, hf, es, hes, rfl⟩
    exact ⟨module, hm, es, hes, formatId?, hf, rfl, rfl, rfl⟩

theorem map_ref_of_finishes {lines : List (EntityRef × List Contribution)} {entries : List Entry}
    (h : List.Forall₂ (c.Finishes schema exports) lines entries) :
    entries.map (·.ref) = lines.map (·.1) := by
  induction h with
  | nil => rfl
  | cons hfirst _ ih => rw [List.map_cons, List.map_cons, ih, (finish_eq_ok hfirst).1]

theorem map_fst_history (c : Collector) : c.history.map (·.1) = c.refs := by
  simp [history, refs, Function.comp_def]

/-- The history tells of each entity of the log what is known of it. -/
theorem history_eq_map (h : c.refs.Nodup) :
    c.history = c.refs.map fun ref => (ref, c.contributions ref) := by
  rw [← map_fst_history, List.map_map]
  refine (List.map_id' c.history).symm.trans (List.map_congr_left fun line hline => ?_)
  -- No other line is about this entity, so that a search finds this one.
  have hfind : c.history.find? (fun other => other.1 = line.1) = some line := by
    have hsome : (c.history.find? fun other => other.1 = line.1).isSome := by
      rw [List.find?_isSome]
      exact ⟨line, hline, by simp⟩
    obtain ⟨found, hfound⟩ := Option.isSome_iff_exists.1 hsome
    have hsame : found.1 = line.1 := by simpa using List.find?_some hfound
    have hnodup : (c.history.map (·.1)).Nodup := by rwa [map_fst_history]
    rw [hfound, List.inj_on_of_nodup_map hnodup (List.mem_of_find?_eq_some hfound) hline hsame]
  simp [contributions, hfind]

theorem map_fst_otherLines (c : Collector) :
    c.otherLines.map (·.1) = c.refs.filter fun ref => ref ≠ c.moduleRef := by
  rw [otherLines, ← map_fst_history, List.filter_map]
  rfl

/-- The entries of a table are about different entities, none of them a module. -/
theorem nodup_of_finishes (hlog : c.IsLog) {entries : List Entry}
    (h : List.Forall₂ (c.Finishes schema exports) c.otherLines entries) :
    (entries.map (·.ref)).Nodup ∧ ∀ e ∈ entries, e.ref.kind ≠ .module := by
  have hrefs := (map_ref_of_finishes h).trans (map_fst_otherLines c)
  refine ⟨hrefs ▸ hlog.distinct.filter _, ?_⟩
  intro e he hkind
  have hmem : e.ref ∈ c.refs.filter fun ref => ref ≠ c.moduleRef :=
    hrefs ▸ List.mem_map_of_mem he
  obtain ⟨hin, hother⟩ := List.mem_filter.1 hmem
  rw [hlog.module e.ref hin hkind] at hother
  simp at hother

/-- The entries of a table are in strictly ascending order. -/
theorem ordered_entries (hlog : c.IsLog) (h : c.table schema exports = .ok t) :
    Entry.Ordered t.entries ∧ ∀ e ∈ t.entries, e.ref.kind ≠ .module := by
  obtain ⟨_, _, entries, hentries, hsorted⟩ := table_eq_ok_iff.1 h
  obtain ⟨hnodup, hkinds⟩ := nodup_of_finishes hlog hentries
  rw [hsorted]
  refine ⟨Entry.ordered_mergeSort hnodup, fun e he => hkinds e (List.mem_mergeSort.1 he)⟩

/-- What is true of all that is finished from lines of the log is true of all entries. -/
theorem forall_entries_of_finish {Q : Entry → Prop} (h : c.table schema exports = .ok t)
    (hmodule : ∀ e, c.finish schema exports c.moduleRef (c.contributions c.moduleRef) = .ok e → Q e)
    (hothers : ∀ line ∈ c.otherLines, ∀ e, c.Finishes schema exports line e → Q e) :
    ∀ e ∈ t.module :: t.entries, Q e := by
  obtain ⟨hfirst, _, entries, hentries, hsorted⟩ := table_eq_ok_iff.1 h
  refine List.forall_mem_cons.2 ⟨hmodule t.module hfirst, fun e he => ?_⟩
  rw [hsorted] at he
  obtain ⟨line, hline, hfinish⟩ := Lists.exists_left hentries e (List.mem_mergeSort.1 he)
  exact hothers line hline e hfinish

/-- An entry of a table is what is finished from the contributions to its entity. -/
theorem finish_of_mem_table (hlog : c.IsLog) (h : c.table schema exports = .ok t) :
    ∀ e ∈ t.module :: t.entries, c.finish schema exports e.ref (c.contributions e.ref) = .ok e := by
  have hself : ∀ ref e, c.finish schema exports ref (c.contributions ref) = .ok e →
      c.finish schema exports e.ref (c.contributions e.ref) = .ok e := by
    intro ref e he
    rw [(finish_eq_ok he).1]
    exact he
  refine forall_entries_of_finish h (hself c.moduleRef) fun line hline e he => ?_
  have hhistory : line ∈ c.history := (List.mem_filter.1 hline).1
  rw [history_eq_map hlog.distinct] at hhistory
  obtain ⟨ref, _, rfl⟩ := List.mem_map.1 hhistory
  exact hself ref e he

/-- The entries of a table are about the entities of the log but the module. -/
theorem map_ref_perm_of_table (h : c.table schema exports = .ok t) :
    (t.entries.map (·.ref)).Perm (c.refs.filter fun ref => ref ≠ c.moduleRef) := by
  obtain ⟨_, _, entries, hentries, hsorted⟩ := table_eq_ok_iff.1 h
  rw [hsorted, ← map_fst_otherLines, ← map_ref_of_finishes hentries]
  exact (List.mergeSort_perm _ _).map _

/-- Just the entries that are written count as exported. -/
theorem exported_of_table (h : c.table schema exports = .ok t) :
    ∀ e ∈ t.module :: t.entries, e.exported = ! e.isErased := by
  have hfinish : ∀ ref contributions e, c.finish schema exports ref contributions = .ok e →
      e.exported = ! e.isErased := by
    intro ref contributions e he
    rw [isErased_of_finish he, (finish_eq_ok he).2.1]
  exact forall_entries_of_finish h (hfinish _ _) fun line _ => hfinish line.1 line.2

end Collector

/-- The table of the events of a unit is that of a collector which has taken them all. -/
theorem DocTable.exists_collector_of_ofEvents {module : Text} {events : List Event}
    {exports : List (Text × Int)} {schema : Schema} {source? : Option Text} {t : DocTable}
    (h : ofEvents module events exports schema source? = .ok t) :
    ∃ c, (Collector.new module source?).observeAll events = (.ok (), c) ∧
      c.table schema exports = .ok t := by
  unfold ofEvents at h
  split at h
  · cases h
  · rename_i c hrun
    refine ⟨c, hrun, ?_⟩
    have hopen : c.isFinalized = false := (Collector.module_of_observeAll hrun).2.2
    rwa [Collector.finalize, if_neg (by simp [hopen])] at h

/-- A table as events make it. -/
structure DocTable.IsWellFormed (t : DocTable) : Prop where
  module : t.module.ref.kind = .module
  kinds : ∀ e ∈ t.entries, e.ref.kind ≠ .module
  ordered : Entry.Ordered t.entries
  exported : ∀ e ∈ t.module :: t.entries, e.exported = ! e.isErased

theorem DocTable.isWellFormed_of_ofEvents {module : Text} {events : List Event}
    {exports : List (Text × Int)} {schema : Schema} {source? : Option Text} {t : DocTable}
    (h : ofEvents module events exports schema source? = .ok t) : t.IsWellFormed := by
  obtain ⟨c, hrun, htable⟩ := exists_collector_of_ofEvents h
  have hlog := Collector.isLog_of_observeAll (Collector.isLog_new module source?) hrun
  obtain ⟨hordered, hkinds⟩ := Collector.ordered_entries hlog htable
  refine ⟨?_, hkinds, hordered, Collector.exported_of_table htable⟩
  rw [(Collector.finish_eq_ok (Collector.table_eq_ok_iff.1 htable).1).1]
  rfl

end ModuleDocs
