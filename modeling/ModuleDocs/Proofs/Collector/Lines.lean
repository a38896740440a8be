import Mathlib
import ModuleDocs.Proofs.Collector.Errors
import ModuleDocs.Proofs.Collector.Merging
import ModuleDocs.Proofs.Collector.Table

/-!
# The lines of entries and of errors

The events of a unit are on known lines, and there is a declaration of whatever they are about
(`Event.AreDeclared`).  So the line of an entry is that of a declaration of its entity
(`DocTable.exists_declaration_of_ofEvents`).  What is wrong with an event is reported in its place,
and what is wrong with an entry on its line (`DocTable.ofEvents_failsIn`).
-/

namespace ModuleDocs

open Result

/-! ## Events -/

namespace Event

variable {event : Event} {x : Contribution}

/-- A contribution has the place of its event. -/
theorem span_of_contribution (h : event.contribution = .ok x) : x.span = event.span := by
  cases contributes_of_contribution h with
  | moduleText _ | entityText _ | moduleItems _ | entityItems _ | declaration => rfl

/-- Declarations are contributed by events that are declarations. -/
theorem eq_declaration_of_contribution (h : event.contribution = .ok x)
    (hkind : x.kind = .declaration) (module : EntityRef) :
    event = .declaration (event.about module) x.span := by
  cases contributes_of_contribution h with
  | moduleText _ | entityText _ | moduleItems _ | entityItems _ => cases hkind
  | declaration => rfl

/-- All events are on known lines, counted from one, and whatever they are about is declared, the
module included. -/
structure AreDeclared (module : EntityRef) (events : List Event) : Prop where
  lines : ∀ event ∈ events, ∃ line, event.span.line? = some line ∧ 0 < line
  own : ∃ span, .declaration module span ∈ events
  declared : ∀ event ∈ events, ∃ span, .declaration (event.about module) span ∈ events

/-- The place of one of the events, or the line of a declaration among them. -/
def IsPlace (events : List Event) (source? : Option Text) (span : Span) : Prop :=
  (∃ event ∈ events, span = event.span) ∨ ∃ ref place line, .declaration ref place ∈ events ∧
    place.line? = some line ∧ span = .ofLine source? line

end Event

/-! ## Lines of declarations -/

namespace Contribution

variable {cs : List Contribution} {x : Contribution}

/-- Where a declaration has a line, the line that is known is that of a declaration. -/
theorem exists_declaredLine? (hx : x ∈ cs) (hline : (declaredLine? x).isSome = true) :
    ∃ y ∈ cs, y.kind = .declaration ∧ ∃ line, y.span.line? = some line ∧
      knownLine? cs = some line := by
  have hfound : (cs.reverse.findSome? declaredLine?).isSome = true :=
    List.findSome?_isSome_iff.2 ⟨x, List.mem_reverse.2 hx, hline⟩
  obtain ⟨line, hline⟩ := Option.isSome_iff_exists.1 hfound
  obtain ⟨y, hy, hown⟩ := List.exists_of_findSome?_eq_some hline
  have hknown : knownLine? cs = some line := by
    rw [knownLine?, hline]
    rfl
  unfold declaredLine? at hown
  split at hown
  · rename_i hkind
    exact ⟨y, List.mem_reverse.1 hy, hkind, line, hown, hknown⟩
  · cases hown

end Contribution

namespace Collector

variable {c : Collector} {events : List Event} {ref : EntityRef}

/-- What is known of an entity has the line of one of its declarations. -/
theorem Remembers.exists_declaration (h : c.Remembers events)
    (hevents : Event.AreDeclared c.moduleRef events) (href : ref ∈ c.refs) :
    ∃ span, .declaration ref span ∈ events ∧
      span.line? = some (Contribution.mergeLine (c.contributions ref)) := by
  have hpairs := forall₂_of_mapM (h.contributions ref)
  have hfilter : ∀ event ∈ events.filter (Event.isAbout c.moduleRef ref),
      event ∈ events ∧ event.about c.moduleRef = ref := by
    intro event hevent
    obtain ⟨hin, habout⟩ := List.mem_filter.1 hevent
    exact ⟨hin, of_decide_eq_true habout⟩
  have hpositive : Contribution.HasPositiveLines (c.contributions ref) := by
    intro x hx line hline
    obtain ⟨event, hevent, hcontribution⟩ := Lists.exists_left hpairs x hx
    obtain ⟨own, hown, hpos⟩ := hevents.lines event (hfilter event hevent).1
    rw [Event.span_of_contribution hcontribution, hown] at hline
    cases hline
    exact hpos
  -- The entity is declared, and so a declaration is among what is known of it.
  obtain ⟨place, hplace⟩ : ∃ place, .declaration ref place ∈ events := by
    rw [h.refs, List.mem_eraseDups, List.mem_cons] at href
    rcases href with hmodule | hother
    · rw [hmodule]
      exact hevents.own
    · obtain ⟨event, hevent, habout⟩ := List.mem_map.1 hother
      rw [← habout]
      exact hevents.declared event hevent
  obtain ⟨line, hline, _⟩ := hevents.lines _ hplace
  obtain ⟨x, hx, hcontribution⟩ := Lists.exists_right hpairs (.declaration ref place)
    (List.mem_filter.2 ⟨hplace, decide_eq_true rfl⟩)
  cases hcontribution
  have hdeclared : (Contribution.declaredLine? (.ofDeclaration place)).isSome = true := by
    exact Option.isSome_iff_exists.2 ⟨line, hline⟩
  obtain ⟨y, hy, hkind, own, hown, hknown⟩ := Contribution.exists_declaredLine? hx hdeclared
  obtain ⟨event, hevent, hyevent⟩ := Lists.exists_left hpairs y hy
  obtain ⟨hin, habout⟩ := hfilter event hevent
  refine ⟨y.span, ?_, ?_⟩
  · have heq := Event.eq_declaration_of_contribution hyevent hkind c.moduleRef
    rw [habout] at heq
    exact heq ▸ hin
  · rw [Contribution.mergeLine_eq hpositive, hknown]
    exact hown

end Collector

namespace DocTable

variable {module : Text} {events : List Event} {exports : List (Text × Int)} {schema : Schema}
  {source? : Option Text} {t : DocTable}

/-- The line of an entry is that of a declaration of its entity. -/
theorem exists_declaration_of_ofEvents (hevents : Event.AreDeclared (.ofModule module) events)
    (h : ofEvents module events exports schema source? = .ok t) :
    ∀ e ∈ t.module :: t.entries,
      ∃ span, .declaration e.ref span ∈ events ∧ span.line? = some e.line := by
  obtain ⟨c, hrun, htable⟩ := exists_collector_of_ofEvents h
  have hremembers := (Collector.remembers_new module source?).observeAll hrun
  rw [List.nil_append] at hremembers
  intro e he
  have hfinish := Collector.finish_of_mem_table hremembers.isLog htable e he
  rw [(Collector.finish_eq_ok hfinish).2.2.1]
  have hmodule : c.moduleRef = .ofModule module := Collector.moduleRef_of_observeAll hrun
  refine hremembers.exists_declaration (hmodule ▸ hevents) ?_
  rcases List.mem_cons.1 he with hfirst | hother
  · rw [hfirst, (Collector.finish_eq_ok (Collector.table_eq_ok_iff.1 htable).1).1]
    exact hremembers.moduleRef_mem
  · have hmem := (Collector.map_ref_perm_of_table htable).subset (List.mem_map_of_mem hother)
    exact (List.mem_filter.1 hmem).1

/-- What is wrong with events is reported in the place of one of them, or on the line of a
declaration. -/
theorem ofEvents_failsIn (hevents : Event.AreDeclared (.ofModule module) events) :
    FailsWith (UnitError.IsIn (Event.IsPlace events source?))
      (ofEvents module events exports schema source?) := by
  have hblames : FailsWith (UnitError.Blames (Event.IsPlace events source?) True)
      (ofEvents module events exports schema source?) := by
    refine ofEvents_blames (.inl trivial) (.inl trivial) (.inl trivial)
      (fun event hevent => .inl ⟨event, hevent, rfl⟩) fun c hrun ref href => .inr ?_
    have hremembers := (Collector.remembers_new module source?).observeAll hrun
    rw [List.nil_append] at hremembers
    have hmodule : c.moduleRef = .ofModule module := Collector.moduleRef_of_observeAll hrun
    obtain ⟨place, hplace, hline⟩ := hremembers.exists_declaration (hmodule ▸ hevents) href
    exact ⟨ref, place, _, hplace, hline, rfl⟩
  exact hblames.imp fun e he => he.isIn

end DocTable

end ModuleDocs
