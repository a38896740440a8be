import Mathlib
import ModuleDocs.Proofs.Collector.Observe
import ModuleDocs.Proofs.Lists

/-!
# What a collector remembers

The state of a collector says which events it has taken, as far as the answers to later
calls depend on them.  `Collector.Remembers c events` is that state, read through what can be
asked of a collector:

* the entities stand in the order in which they first came, the module before all;
* what is known of an entity are the contributions of the events about it, in order;
* an entity has one text at most, and the place that is kept for it is the place of that
  text.

An event that is taken is remembered (`Remembers.observe`), and so are all events of a run
(`Remembers.observeAll`).  An event is refused because of another one only where both bring a
text of one entity, so that whether a run succeeds does not depend on how events about
different entities stand among each other (`exists_observeAll_new_iff`).
-/

namespace ModuleDocs

/-! ## Texts among events -/

namespace Event

variable {event : Event} {x : Contribution}

/-- Whether an event in the unit of a module is about an entity. -/
def isAbout (module ref : EntityRef) (event : Event) : Bool := event.about module = ref

/-- Whether an event brings a text. -/
def isText (event : Event) : Bool := event.textSpan?.isSome

/-- The events that bring a text of an entity. -/
def textsOf (module ref : EntityRef) (events : List Event) : List Event :=
  (events.filter (isAbout module ref)).filter isText

/-- Whether a unit takes the event if no other event stands in its way: it is about no other
module, and what it carries is of the right kind. -/
structure IsAcceptable (module : EntityRef) (event : Event) : Prop where
  own : (event.about module).kind = .module → event.about module = module
  carries : ∃ contribution, event.contribution = .ok contribution

theorem mem_textsOf {module ref : EntityRef} {events : List Event} :
    event ∈ textsOf module ref events
      ↔ event ∈ events ∧ event.about module = ref ∧ event.isText = true := by
  rw [textsOf, List.mem_filter, List.mem_filter, and_assoc, isAbout, decide_eq_true_iff]

theorem textsOf_append (module ref : EntityRef) (events more : List Event) :
    textsOf module ref (events ++ more) = textsOf module ref events ++ textsOf module ref more := by
  simp [textsOf]

end Event

/-- Whether a contribution is a text. -/
def Contribution.isDoc (x : Contribution) : Bool := x.kind = .doc

namespace Event

variable {event : Event} {x : Contribution}

/-- A text is contributed by an event that brings one, with its place. -/
theorem textSpan?_of_contribution (h : event.contribution = .ok x) :
    event.textSpan? = if x.isDoc then some x.span else none := by
  cases contributes_of_contribution h with
  | moduleText _ | entityText _ | moduleItems _ | entityItems _ | declaration => rfl

theorem isText_of_contribution (h : event.contribution = .ok x) : event.isText = x.isDoc := by
  rw [isText, textSpan?_of_contribution h]
  cases x.isDoc <;> rfl

/-- The texts among events make the texts among the contributions. -/
theorem mapM_filter_isText {events : List Event} {contributions : List Contribution}
    (h : events.mapM contribution = .ok contributions) :
    (events.filter isText).mapM contribution
      = .ok (contributions.filter Contribution.isDoc) := by
  induction events generalizing contributions with
  | nil =>
    cases h
    rfl
  | cons event rest ih =>
    rw [List.mapM_cons] at h
    obtain ⟨x, hx, h⟩ := Result.bind_eq_ok_iff.1 h
    obtain ⟨others, hothers, rfl⟩ := Result.bind_pure_eq_ok_iff.1 h
    have hrest := ih hothers
    have hkind : event.isText = x.isDoc := isText_of_contribution hx
    by_cases htext : event.isText = true
    · have hdoc : x.isDoc = true := hkind ▸ htext
      rw [List.filter_cons_of_pos htext, List.filter_cons_of_pos hdoc, List.mapM_cons, hx, hrest]
      rfl
    · have hdoc : ¬ x.isDoc = true := hkind ▸ htext
      rw [List.filter_cons_of_neg htext, List.filter_cons_of_neg hdoc]
      exact hrest

end Event

namespace Collector

variable {c c' : Collector} {event : Event} {events more : List Event} {ref : EntityRef}

/-! ## What is found after an event -/

/-- What the log holds of an entity when a contribution was added to one. -/
theorem find?_addTo (ref r : EntityRef) (x : Contribution)
    (log : List (EntityRef × List Contribution)) :
    ((addTo ref x log).find? fun line => line.1 = r).map (·.2)
      = if r = ref then some (x :: ((log.find? fun line => line.1 = ref).map (·.2)).getD [])
        else (log.find? fun line => line.1 = r).map (·.2) := by
  induction log with
  | nil =>
    rw [addTo]
    by_cases hr : r = ref
    · simp [hr]
    · have hother : ¬ ref = r := fun h => hr h.symm
      simp [hr, hother]
  | cons line rest ih =>
    rw [addTo]
    by_cases hline : line.1 = ref
    · by_cases hr : r = ref
      · simp [hline, hr]
      · have hother : ¬ ref = r := fun h => hr h.symm
        simp [hline, hr, hother]
    · rw [if_neg hline]
      by_cases hsame : line.1 = r
      · have hr : ¬ r = ref := fun h => hline (hsame.trans h)
        simp [hsame, hr]
      · rw [List.find?_cons_of_neg (by simpa using hsame), ih,
          List.find?_cons_of_neg (by simpa using hline),
          List.find?_cons_of_neg (by simpa using hsame)]

/-- What is known of an entity, from the log itself. -/
theorem contributions_eq (c : Collector) (ref : EntityRef) :
    c.contributions ref
      = (((c.log.find? fun line => line.1 = ref).map (·.2)).getD []).reverse := by
  rw [contributions, history, List.find?_map]
  change (Option.map (·.2) (Option.map (fun line : EntityRef × List Contribution =>
    (line.1, line.2.reverse)) (c.log.find? fun line => line.1 = ref))).getD [] = _
  cases c.log.find? fun line => line.1 = ref <;> rfl

/-- A contribution comes last among those of its entity, and no others change. -/
theorem contributions_take (c : Collector) (ref r : EntityRef) (x : Contribution)
    (span? : Option Span) :
    (c.take ref x span?).contributions r
      = c.contributions r ++ if r = ref then [x] else [] := by
  have hlog : (c.take ref x span?).log = addTo ref x c.log := rfl
  rw [contributions_eq, contributions_eq, hlog, find?_addTo]
  by_cases hr : r = ref
  · simp [hr]
  · simp [hr]

/-- A place is kept for its entity, unless there is one already. -/
theorem docSpan?_take (c : Collector) (ref r : EntityRef) (x : Contribution)
    (span? : Option Span) :
    (c.take ref x span?).docSpan? r
      = (c.docSpan? r).or (if r = ref then span? else none) := by
  have hspans : (c.take ref x span?).docSpans
      = c.docSpans ++ (span?.map fun span => (ref, span)).toList := rfl
  rw [docSpan?, docSpan?, hspans, List.find?_append]
  cases c.docSpans.find? fun line => line.1 = r with
  | some line => rfl
  | none =>
    cases span? with
    | none => simp
    | some span =>
      by_cases hr : r = ref
      · simp [hr]
      · have hother : ¬ ref = r := fun h => hr h.symm
        simp [hr, hother]

/-- An entity that is new comes last. -/
theorem refs_take (c : Collector) (ref : EntityRef) (x : Contribution) (span? : Option Span) :
    (c.take ref x span?).refs = if ref ∈ c.refs then c.refs else c.refs ++ [ref] :=
  map_fst_addTo _ _ _

/-! ## Events that were taken -/

/-- The collector has taken these events, in this order, and no others. -/
structure Remembers (c : Collector) (events : List Event) : Prop where
  acceptable : ∀ event ∈ events, event.IsAcceptable c.moduleRef
  isLog : c.IsLog
  /-- The entities stand in the order in which they first came, the module before all. -/
  refs : c.refs = (c.moduleRef :: events.map (Event.about c.moduleRef)).eraseDups
  /-- What is known of an entity are the contributions of the events about it. -/
  contributions : ∀ ref, (events.filter (Event.isAbout c.moduleRef ref)).mapM Event.contribution
    = .ok (c.contributions ref)
  /-- An entity has one text at most. -/
  texts : ∀ ref, ((c.contributions ref).filter Contribution.isDoc).length ≤ 1
  /-- The place that is kept for an entity is that of its text. -/
  docSpan? : ∀ ref, c.docSpan? ref
    = ((c.contributions ref).filter Contribution.isDoc).head?.map (·.span)

theorem contributions_new (module : Text) (source? : Option Text) (ref : EntityRef) :
    (new module source?).contributions ref = [] := by
  rw [contributions_eq]
  by_cases hr : EntityRef.ofModule module = ref <;> simp [new, hr]

theorem remembers_new (module : Text) (source? : Option Text) :
    (new module source?).Remembers [] where
  acceptable := by simp
  isLog := isLog_new module source?
  refs := rfl
  contributions := by
    intro ref
    rw [contributions_new]
    rfl
  texts := by
    intro ref
    simp [contributions_new]
  docSpan? := by
    intro ref
    rw [contributions_new]
    rfl

namespace Remembers

/-- The texts among the events about an entity make the texts that are known of it. -/
theorem mapM_textsOf (h : c.Remembers events) (ref : EntityRef) :
    (Event.textsOf c.moduleRef ref events).mapM Event.contribution
      = .ok ((c.contributions ref).filter Contribution.isDoc) :=
  Event.mapM_filter_isText (h.contributions ref)

theorem length_textsOf_le (h : c.Remembers events) (ref : EntityRef) :
    (Event.textsOf c.moduleRef ref events).length ≤ 1 := by
  have hlength := (Result.forall₂_of_mapM (h.mapM_textsOf ref)).length_eq
  have htexts := h.texts ref
  omega

/-- A place is kept for an entity when an event brought a text of it there. -/
theorem docSpan?_eq_some_iff (h : c.Remembers events) {span : Span} :
    c.docSpan? ref = some span
      ↔ ∃ event ∈ events, event.about c.moduleRef = ref ∧ event.textSpan? = some span := by
  have hpairs := Result.forall₂_of_mapM (h.mapM_textsOf ref)
  have htexts := h.texts ref
  rw [h.docSpan?]
  constructor
  · intro hspan
    obtain ⟨x, hx, rfl⟩ := Option.map_eq_some_iff.1 hspan
    have hmem : x ∈ (c.contributions ref).filter Contribution.isDoc := List.mem_of_mem_head? hx
    obtain ⟨event, hevent, hcontribution⟩ := Lists.exists_left hpairs x hmem
    obtain ⟨hin, habout, _⟩ := Event.mem_textsOf.1 hevent
    refine ⟨event, hin, habout, ?_⟩
    rw [Event.textSpan?_of_contribution hcontribution, if_pos (List.mem_filter.1 hmem).2]
  · rintro ⟨event, hin, habout, hspan⟩
    have htext : event.isText = true := by rw [Event.isText, hspan]; rfl
    obtain ⟨x, hx, hcontribution⟩ :=
      Lists.exists_right hpairs event (Event.mem_textsOf.2 ⟨hin, habout, htext⟩)
    -- There is one text at most, so that this one is the first.
    obtain ⟨y, hy⟩ := List.length_eq_one_iff.1 (le_antisymm htexts (List.length_pos_of_mem hx))
    rw [hy] at hx ⊢
    rw [Event.textSpan?_of_contribution hcontribution] at hspan
    split at hspan
    · rw [List.mem_singleton.1 hx] at hspan
      exact hspan
    · cases hspan

theorem docSpan?_eq_none_iff (h : c.Remembers events) :
    c.docSpan? ref = none ↔ Event.textsOf c.moduleRef ref events = [] := by
  have hlength := (Result.forall₂_of_mapM (h.mapM_textsOf ref)).length_eq
  rw [h.docSpan?, Option.map_eq_none_iff, List.head?_eq_none_iff, ← List.length_eq_zero_iff,
    ← hlength, List.length_eq_zero_iff]

/-- An event that is taken is remembered behind the others. -/
theorem observe (h : c.Remembers events) (hobserve : c.observe event = .ok c') :
    c'.Remembers (events ++ [event]) := by
  obtain ⟨_, hown, hfree, x, hx, rfl⟩ := observe_eq_ok_iff.1 hobserve
  set ref := event.about c.moduleRef with href
  have hkind : event.textSpan? = if x.isDoc then some x.span else none :=
    Event.textSpan?_of_contribution hx
  -- Where a text is taken there was none before.
  have hnew : x.isDoc = true → (c.contributions ref).filter Contribution.isDoc = [] := by
    intro hdoc
    have hnone := hfree (by rw [hkind, if_pos hdoc]; rfl)
    rw [h.docSpan?, Option.map_eq_none_iff, List.head?_eq_none_iff] at hnone
    exact hnone
  have hmodule : (c.take ref x event.textSpan?).moduleRef = c.moduleRef := rfl
  refine ⟨?_, h.isLog.observe hobserve, ?_, ?_, ?_, ?_⟩
  · intro other hother
    rcases List.mem_append.1 hother with hother | hother
    · exact h.acceptable other hother
    · rw [List.mem_singleton.1 hother]
      exact ⟨hown, x, hx⟩
  · rw [hmodule, refs_take, h.refs, List.map_append, ← List.cons_append]
    simp only [List.mem_eraseDups]
    exact (Lists.eraseDups_concat _ _).symm
  · intro r
    rw [hmodule, contributions_take, List.filter_append, List.mapM_append, h.contributions]
    by_cases hr : r = ref
    · have habout : event.isAbout c.moduleRef r = true := by simp [Event.isAbout, hr, href]
      rw [if_pos hr, List.filter_cons_of_pos habout, List.filter_nil, List.mapM_cons, hx]
      rfl
    · have hother : ¬ event.isAbout c.moduleRef r = true := by
        simpa [Event.isAbout] using fun hsame => hr hsame.symm
      rw [if_neg hr, List.filter_cons_of_neg hother]
      rfl
  · intro r
    rw [contributions_take, List.filter_append]
    by_cases hr : r = ref
    · rw [if_pos hr, hr]
      cases hdoc : x.isDoc with
      | false => simpa [hdoc] using h.texts ref
      | true => simp [hnew hdoc, hdoc]
    · simpa [hr] using h.texts r
  · intro r
    rw [docSpan?_take, h.docSpan?, contributions_take, List.filter_append, hkind]
    by_cases hr : r = ref
    · rw [if_pos hr, if_pos hr, hr]
      cases hdoc : x.isDoc with
      | false => simp [hdoc]
      | true => simp [hnew hdoc, hdoc]
    · simp [hr]

/-- Events that are all taken are remembered behind the others. -/
theorem observeAll (h : c.Remembers events) (hrun : c.observeAll more = (.ok (), c')) :
    c'.Remembers (events ++ more) := by
  induction more generalizing c events with
  | nil =>
    cases hrun
    rwa [List.append_nil]
  | cons event rest ih =>
    rw [Collector.observeAll] at hrun
    cases hfirst : c.observe event with
    | error e => simp [hfirst] at hrun
    | ok next =>
      rw [hfirst] at hrun
      have hall := ih (h.observe hfirst) hrun
      rwa [List.append_assoc] at hall

/-! ## Whether events are taken -/

/-- An open collector takes an event if it has no text of the entity that this one is a
text of. -/
theorem exists_observe (h : c.Remembers events) (hopen : c.isFinalized = false)
    (hacceptable : event.IsAcceptable c.moduleRef)
    (htexts : (Event.textsOf c.moduleRef (event.about c.moduleRef) (events ++ [event])).length ≤ 1) :
    ∃ c', c.observe event = .ok c' := by
  obtain ⟨hown, x, hx⟩ := hacceptable
  refine ⟨_, observe_eq_ok_iff.2 ⟨hopen, hown, ?_, x, hx, rfl⟩⟩
  intro htext
  have hself : event ∈ Event.textsOf c.moduleRef (event.about c.moduleRef) [event] :=
    Event.mem_textsOf.2 ⟨List.mem_cons_self, rfl, htext⟩
  have hpos := List.length_pos_of_mem hself
  rw [Event.textsOf_append, List.length_append] at htexts
  rw [h.docSpan?_eq_none_iff, ← List.length_eq_zero_iff]
  omega

theorem exists_observeAll (h : c.Remembers events) (hopen : c.isFinalized = false)
    (hacceptable : ∀ event ∈ more, event.IsAcceptable c.moduleRef)
    (htexts : ∀ ref, (Event.textsOf c.moduleRef ref (events ++ more)).length ≤ 1) :
    ∃ c', c.observeAll more = (.ok (), c') := by
  induction more generalizing c events with
  | nil => exact ⟨c, rfl⟩
  | cons event rest ih =>
    have hfirst : ∀ ref, (Event.textsOf c.moduleRef ref (events ++ [event])).length ≤ 1 := by
      intro ref
      have hall := htexts ref
      rw [List.append_cons, Event.textsOf_append, List.length_append] at hall
      omega
    obtain ⟨next, hobserve⟩ :=
      h.exists_observe hopen (hacceptable event List.mem_cons_self) (hfirst _)
    obtain ⟨_, _, _, x, _, hnext⟩ := observe_eq_ok_iff.1 hobserve
    have hmodule : next.moduleRef = c.moduleRef := by rw [hnext]; rfl
    have hnextOpen : next.isFinalized = false := by rw [hnext]; exact hopen
    rw [Collector.observeAll, hobserve]
    refine ih (h.observe hobserve) hnextOpen ?_ ?_
    · intro other hother
      rw [hmodule]
      exact hacceptable other (List.mem_cons_of_mem _ hother)
    · intro ref
      rw [hmodule, List.append_assoc]
      exact htexts ref

end Remembers

/-- The events of a unit are all taken when each of them is acceptable and no entity has two
texts. -/
theorem exists_observeAll_new_iff {module : Text} {source? : Option Text} :
    (∃ c, (new module source?).observeAll events = (.ok (), c)) ↔
      (∀ event ∈ events, event.IsAcceptable (.ofModule module)) ∧
        ∀ ref, (Event.textsOf (.ofModule module) ref events).length ≤ 1 := by
  constructor
  · rintro ⟨c, hrun⟩
    have hall := (remembers_new module source?).observeAll hrun
    have hmodule : c.moduleRef = .ofModule module := by
      rw [moduleRef, (module_of_observeAll hrun).1]
      rfl
    have hacceptable := hall.acceptable
    have htexts := hall.length_textsOf_le
    rw [hmodule] at hacceptable htexts
    exact ⟨hacceptable, htexts⟩
  · rintro ⟨hacceptable, htexts⟩
    exact (remembers_new module source?).exists_observeAll rfl hacceptable htexts

end Collector

end ModuleDocs
