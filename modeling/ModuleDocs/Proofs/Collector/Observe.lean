import Mathlib
import ModuleDocs.Collector
import ModuleDocs.Proofs.Result

/-!
# What an event does to a collector

An event that is taken adds one contribution to one entity, and for a text the place of
it (`observe_eq`, `observe_eq_ok_iff`).  The contribution depends on the event only, so that
it is the same in any collector, and so does the reason why there is none (`Event.Contributes`,
`Event.Refused`).

`Collector.IsLog` is what every run keeps: no entity stands twice in the log, and the
only module there is the unit's own (`isLog_of_observeAll`).  What all contributions of
the events have in common holds of the whole log (`forall_holds_of_observeAll`).
-/

namespace ModuleDocs

open Result

namespace Event

/-- The entity that an event in the unit of a module is about. -/
def about (module : EntityRef) : Event → EntityRef
  | .moduleDoc .. | .moduleMeta .. | .foreign _ => module
  | .declaration ref _ | .entityDoc ref _ _ | .entityMeta ref _ _ => ref

/-- The place that an event is about. -/
def span : Event → Span
  | .moduleDoc _ span | .moduleMeta _ span | .declaration _ span | .entityDoc _ _ span
  | .entityMeta _ _ span => span
  | .foreign _ => .unknown

/-- The metadata that an event carries, if it carries any. -/
def metadata? : Event → Option Term
  | .moduleMeta metadata _ | .entityMeta _ metadata _ => some metadata
  | _ => none

/-- The place of the text that an event carries, if it carries one. -/
def textSpan? : Event → Option Span
  | .moduleDoc _ span | .entityDoc _ _ span => some span
  | _ => none

/-- What an event adds to its entity. -/
def contribution : Event → Except UnitError Contribution
  | .moduleDoc payload span | .entityDoc _ payload span =>
    ((Collector.contentOf payload span).mapError .doc).map (Contribution.ofContent · span)
  | .moduleMeta metadata span | .entityMeta _ metadata span =>
    (Collector.metadataOf metadata span).map (Contribution.ofMetadata · span)
  | .declaration _ span => .ok (.ofDeclaration span)
  | .foreign value => .error (.unsupportedEvent value.typeName)

/-- What an event adds: the content of its text, the items of its map, or that it is declared. -/
inductive Contributes : Event → Contribution → Prop
  | moduleText {payload : Payload} {span : Span} {content : Content}
      (h : Collector.contentOf payload span = .ok content) :
      Contributes (.moduleDoc payload span) (.ofContent content span)
  | entityText {ref : EntityRef} {payload : Payload} {span : Span} {content : Content}
      (h : Collector.contentOf payload span = .ok content) :
      Contributes (.entityDoc ref payload span) (.ofContent content span)
  | moduleItems {items out : Items} {span : Span} (h : Collector.keyed span items = .ok out) :
      Contributes (.moduleMeta (.map items) span) (.ofMetadata out span)
  | entityItems {ref : EntityRef} {items out : Items} {span : Span}
      (h : Collector.keyed span items = .ok out) :
      Contributes (.entityMeta ref (.map items) span) (.ofMetadata out span)
  | declaration {ref : EntityRef} {span : Span} :
      Contributes (.declaration ref span) (.ofDeclaration span)

/-- Why an event adds nothing: it carries no text, no map or a key that is no string, or it is no
event.  Such a key is named, unless a number in it is too long for that. -/
inductive Refused (event : Event) : UnitError → Prop
  | payload (name : Text) : Refused event (.doc (.encoding (.badPayload name) event.span))
  | metadata (name expected : Text) (value : Term) :
      Refused event (.doc (.metadataType name expected value event.span))
  | tooLong {items : Items} {item : Term × Term} {e : Decimal.TooLong}
      (hmetadata : event.metadata? = some (.map items)) (hitem : item ∈ items)
      (h : item.1.display = .error e) : Refused event (.tooLong e)
  | foreign {value : Term} (h : event = .foreign value) :
      Refused event (.unsupportedEvent value.typeName)

end Event

/-- Metadata is taken from a map. -/
theorem Collector.exists_keyed_of_metadataOf {metadata : Term} {span : Span} {out : Items}
    (h : metadataOf metadata span = .ok out) :
    ∃ items, metadata = .map items ∧ keyed span items = .ok out := by
  cases metadata with
  | map items => exact ⟨items, rfl, h⟩
  | _ => cases h

theorem Event.contributes_of_contribution {event : Event} {x : Contribution}
    (h : event.contribution = .ok x) : event.Contributes x := by
  cases event with
  | moduleDoc payload span =>
    obtain ⟨content, hcontent, rfl⟩ := map_eq_ok_iff.1 h
    exact .moduleText (mapError_eq_ok_iff.1 hcontent)
  | entityDoc ref payload span =>
    obtain ⟨content, hcontent, rfl⟩ := map_eq_ok_iff.1 h
    exact .entityText (mapError_eq_ok_iff.1 hcontent)
  | moduleMeta metadata span =>
    obtain ⟨out, hout, rfl⟩ := map_eq_ok_iff.1 h
    obtain ⟨items, rfl, hkeyed⟩ := Collector.exists_keyed_of_metadataOf hout
    exact .moduleItems hkeyed
  | entityMeta ref metadata span =>
    obtain ⟨out, hout, rfl⟩ := map_eq_ok_iff.1 h
    obtain ⟨items, rfl, hkeyed⟩ := Collector.exists_keyed_of_metadataOf hout
    exact .entityItems hkeyed
  | declaration ref span =>
    cases h
    exact .declaration
  | foreign value => cases h

namespace Collector

variable {c c' : Collector} {event : Event} {events : List Event}

/-- The collector with a contribution more, and with the place of the text if it is one. -/
def take (c : Collector) (ref : EntityRef) (contribution : Contribution) (span? : Option Span) :
    Collector :=
  { c.add ref contribution with
    docSpans := c.docSpans ++ (span?.map fun span => (ref, span)).toList }

/-- What a payload is: a text, the wish to be hidden, or neither. -/
theorem contentOf_cases (payload : Payload) (span : Span) :
    contentOf payload span = .ok .hidden ∨ (∃ t, contentOf payload span = .ok (.authored t)) ∨
      ∃ name, contentOf payload span = .error (.encoding (.badPayload name) span) := by
  have hchecked : ∀ t : Term,
      (∃ t', (if t.isText || t.chars?.isSome then .ok (.authored t)
          else .error (.encoding (.badPayload t.typeName) span) : Except DocError Content)
            = .ok (.authored t')) ∨
        ∃ name, (if t.isText || t.chars?.isSome then .ok (.authored t)
          else .error (.encoding (.badPayload t.typeName) span) : Except DocError Content)
            = .error (.encoding (.badPayload name) span) := by
    intro t
    split
    · exact Or.inl ⟨t, rfl⟩
    · exact Or.inr ⟨t.typeName, rfl⟩
  cases payload with
  | value t => exact Or.inr (hchecked t)
  | content content =>
    cases content with
    | authored t => exact Or.inr (Or.inl ⟨t, rfl⟩)
    | hidden => exact Or.inl rfl
    | undocumented => exact Or.inr (hchecked (.foreign "NoDoc"))
    | foreign t => exact Or.inr (hchecked t)

theorem refused_of_contentOf (payload : Payload) :
    FailsWith (fun d => event.Refused (.doc d)) (contentOf payload event.span) := by
  rcases contentOf_cases payload event.span with h | ⟨t, h⟩ | ⟨name, h⟩
  · rw [h]
    exact FailsWith.ok _
  · rw [h]
    exact FailsWith.ok _
  · rw [h]
    exact FailsWith.error (.payload name)

theorem refused_of_keyed {items part : Items} (hmetadata : event.metadata? = some (.map items))
    (hpart : ∀ item ∈ part, item ∈ items) : FailsWith event.Refused (keyed event.span part) := by
  induction part with
  | nil => exact FailsWith.ok []
  | cons item rest ih =>
    obtain ⟨hfirst, hrest⟩ := List.forall_mem_cons.1 hpart
    rw [keyed]
    split
    · exact (ih hrest).bind fun others _ => FailsWith.pure _
    · split
      · exact FailsWith.error (.metadata _ _ _)
      · rename_i hdisplay
        exact FailsWith.error (.tooLong hmetadata hfirst hdisplay)

theorem refused_of_metadataOf {metadata : Term} (hmetadata : event.metadata? = some metadata) :
    FailsWith event.Refused (metadataOf metadata event.span) := by
  cases metadata with
  | map items => exact refused_of_keyed hmetadata fun _ hitem => hitem
  | _ => exact FailsWith.error (.metadata _ _ _)

/-- What an event is refused for does not depend on other events. -/
theorem refused_of_contribution (event : Event) : FailsWith event.Refused event.contribution := by
  cases event with
  | moduleDoc payload span | entityDoc ref payload span =>
    exact FailsWith.map (FailsWith.mapError (refused_of_contentOf payload))
  | moduleMeta metadata span | entityMeta ref metadata span =>
    exact FailsWith.map (refused_of_metadataOf rfl)
  | declaration ref span => exact FailsWith.ok _
  | foreign value => exact FailsWith.error (.foreign rfl)

theorem ownRef_eq_ok_iff {ref ref' : EntityRef} :
    c.ownRef ref = .ok ref' ↔ (ref.kind = .module → ref = c.moduleRef) ∧ ref' = ref := by
  unfold ownRef
  split
  · rename_i h
    simp [h.1, h.2]
  · rename_i h
    simp only [Except.ok.injEq, eq_comm (a := ref)]
    tauto

theorem ownRef_moduleRef (c : Collector) : c.ownRef c.moduleRef = .ok c.moduleRef := by
  simp [ownRef]

theorem observeDoc_eq (c : Collector) (ref : EntityRef) (payload : Payload) (span : Span) :
    c.observeDoc ref payload span =
      match c.docSpan? ref with
      | some previous => .error (.doc (.duplicate ref previous span))
      | none => (((contentOf payload span).mapError .doc).map (Contribution.ofContent · span)).map
          (c.take ref · (some span)) := by
  unfold observeDoc
  cases c.docSpan? ref with
  | some previous => rfl
  | none => cases contentOf payload span <;> rfl

theorem observeMetadata_eq (c : Collector) (ref : EntityRef) (metadata : Term) (span : Span) :
    c.observeMetadata ref metadata span
      = ((metadataOf metadata span).map (Contribution.ofMetadata · span)).map
          (c.take ref · none) := by
  unfold observeMetadata
  cases metadataOf metadata span with
  | error e => rfl
  | ok items => simp [bind, Except.bind, pure, Except.pure, Except.map, take, add]

/-- What a collector answers to an event, in the order in which it looks at it. -/
theorem observe_eq (c : Collector) (event : Event) :
    c.observe event =
      if c.isFinalized then .error (.finalized c.module)
      else c.ownRef (event.about c.moduleRef) >>= fun ref =>
        match event.textSpan?, c.docSpan? ref with
        | some span, some previous => .error (.doc (.duplicate ref previous span))
        | span?, _ => event.contribution.map fun x => c.take ref x span? := by
  unfold observe
  cases c.isFinalized with
  | true => rfl
  | false =>
    rw [if_neg (by decide), if_neg (by decide)]
    cases event with
    | moduleDoc payload span =>
      simp only [Event.about, ownRef_moduleRef, observeDoc_eq]
      dsimp only [bind, Except.bind, Event.textSpan?, Event.contribution]
      cases c.docSpan? c.moduleRef <;> rfl
    | moduleMeta metadata span =>
      simp only [Event.about, ownRef_moduleRef, observeMetadata_eq]
      rfl
    | declaration ref span =>
      dsimp only [Event.about]
      cases c.ownRef ref with
      | error e => rfl
      | ok ref =>
        simp [bind, Except.bind, pure, Except.pure, Except.map, take, add, Event.textSpan?,
          Event.contribution]
    | entityDoc ref payload span =>
      simp only [Event.about, observeDoc_eq]
      cases c.ownRef ref with
      | error e => rfl
      | ok ref =>
        dsimp only [bind, Except.bind, Event.textSpan?, Event.contribution]
        cases c.docSpan? ref <;> rfl
    | entityMeta ref metadata span =>
      simp only [observeMetadata_eq]
      rfl
    | foreign value =>
      simp only [Event.about, ownRef_moduleRef]
      rfl

/-- What an event does that is taken, and when it is. -/
theorem observe_eq_ok_iff :
    c.observe event = .ok c' ↔ c.isFinalized = false ∧
      ((event.about c.moduleRef).kind = .module → event.about c.moduleRef = c.moduleRef) ∧
      (event.textSpan?.isSome → c.docSpan? (event.about c.moduleRef) = none) ∧
      ∃ contribution, event.contribution = .ok contribution ∧
        c' = c.take (event.about c.moduleRef) contribution event.textSpan? := by
  rw [observe_eq]
  cases c.isFinalized with
  | true => simp
  | false =>
    rw [if_neg (by decide), bind_eq_ok_iff]
    simp only [ownRef_eq_ok_iff, true_and, and_assoc, exists_eq_left, exists_and_left]
    refine and_congr_right fun _ => ?_
    cases event.textSpan? with
    | none => simp [map_eq_ok_iff, @eq_comm _ c']
    | some span =>
      cases c.docSpan? (event.about c.moduleRef) with
      | none => simp [map_eq_ok_iff, @eq_comm _ c']
      | some previous => simp

/-! ## Runs -/

/-- What each event keeps holds at the end of a run. -/
theorem observeAll_induction {motive : Collector → Prop}
    (hstep : ∀ c event c', event ∈ events → c.observe event = .ok c' → motive c → motive c')
    (h : c.observeAll events = (.ok (), c')) (hstart : motive c) : motive c' := by
  induction events generalizing c with
  | nil =>
    cases h
    exact hstart
  | cons event rest ih =>
    rw [observeAll] at h
    cases hfirst : c.observe event with
    | error e => simp [hfirst] at h
    | ok next =>
      rw [hfirst] at h
      refine ih (fun c event c' hevent => hstep c event c' (List.mem_cons_of_mem _ hevent)) h ?_
      exact hstep c event next List.mem_cons_self hfirst hstart

/-- A run leaves the module as it is, and the collector open. -/
theorem module_of_observeAll (h : c.observeAll events = (.ok (), c')) :
    c'.module = c.module ∧ c'.source? = c.source? ∧ c'.isFinalized = c.isFinalized := by
  refine observeAll_induction (motive := fun d => d.module = c.module ∧ d.source? = c.source? ∧
    d.isFinalized = c.isFinalized) ?_ h ⟨rfl, rfl, rfl⟩
  intro d event d' _ hobserve hd
  obtain ⟨_, _, _, contribution, _, rfl⟩ := observe_eq_ok_iff.1 hobserve
  exact hd

/-! ## The log -/

theorem map_fst_addTo (ref : EntityRef) (contribution : Contribution)
    (log : List (EntityRef × List Contribution)) :
    (addTo ref contribution log).map (·.1)
      = if ref ∈ log.map (·.1) then log.map (·.1) else log.map (·.1) ++ [ref] := by
  induction log with
  | nil => rfl
  | cons line rest ih =>
    rw [addTo]
    by_cases hline : line.1 = ref
    · simp [hline]
    · have hother : ¬ ref = line.1 := fun h => hline h.symm
      rw [if_neg hline, List.map_cons, List.map_cons, ih]
      by_cases hrest : ref ∈ rest.map (·.1)
      · rw [if_pos hrest, if_pos (List.mem_cons_of_mem _ hrest)]
      · rw [if_neg hrest, if_neg fun h => (List.mem_cons.1 h).elim hother hrest]
        rfl

/-- The log holds each entity once, and no module but that of the unit. -/
structure IsLog (c : Collector) : Prop where
  distinct : c.refs.Nodup
  module : ∀ ref ∈ c.refs, ref.kind = .module → ref = c.moduleRef

theorem isLog_new (module : Text) (source? : Option Text) : IsLog (new module source?) where
  distinct := by simp [refs, new]
  module := by simp [refs, new, moduleRef]

theorem IsLog.observe (hlog : c.IsLog) (h : c.observe event = .ok c') : c'.IsLog := by
  obtain ⟨_, hmodule, _, contribution, _, rfl⟩ := observe_eq_ok_iff.1 h
  have hrefs : (c.take (event.about c.moduleRef) contribution event.textSpan?).refs
      = if event.about c.moduleRef ∈ c.refs then c.refs else c.refs ++ [event.about c.moduleRef] :=
    map_fst_addTo _ _ _
  by_cases hmem : event.about c.moduleRef ∈ c.refs
  · rw [if_pos hmem] at hrefs
    exact ⟨hrefs ▸ hlog.distinct, hrefs ▸ hlog.module⟩
  · rw [if_neg hmem] at hrefs
    refine ⟨?_, ?_⟩
    · rw [hrefs]
      exact List.nodup_append.2 ⟨hlog.distinct, List.nodup_singleton _, by
        rintro a ha b hb rfl
        exact hmem (List.mem_singleton.1 hb ▸ ha)⟩
    · rw [hrefs]
      intro ref href hkind
      rcases List.mem_append.1 href with href | href
      · exact hlog.module ref href hkind
      · rw [List.mem_singleton.1 href] at hkind ⊢
        exact hmodule hkind

/-- Every run keeps the log in order. -/
theorem isLog_of_observeAll (hlog : c.IsLog) (h : c.observeAll events = (.ok (), c')) : c'.IsLog :=
  observeAll_induction (fun _ _ _ _ hobserve hd => hd.observe hobserve) h hlog

/-- A contribution of an entity that is in the log. -/
def Holds (c : Collector) (ref : EntityRef) (contribution : Contribution) : Prop :=
  ∃ known, (ref, known) ∈ c.log ∧ contribution ∈ known

theorem mem_addTo {ref : EntityRef} {contribution : Contribution}
    {log : List (EntityRef × List Contribution)} {line : EntityRef × List Contribution}
    (h : line ∈ addTo ref contribution log) :
    line ∈ log ∨ line = (ref, [contribution]) ∨
      ∃ known, (ref, known) ∈ log ∧ line = (ref, contribution :: known) := by
  induction log with
  | nil => exact Or.inr (Or.inl (List.mem_singleton.1 h))
  | cons first rest ih =>
    obtain ⟨r, known⟩ := first
    rw [addTo] at h
    by_cases hsame : r = ref
    · rw [if_pos hsame] at h
      rcases List.mem_cons.1 h with rfl | h
      · exact Or.inr (Or.inr ⟨known, hsame ▸ List.mem_cons_self, by rw [hsame]⟩)
      · exact Or.inl (List.mem_cons_of_mem _ h)
    · rw [if_neg hsame] at h
      rcases List.mem_cons.1 h with rfl | h
      · exact Or.inl List.mem_cons_self
      · rcases ih h with hold | hnew | ⟨known', hmem, hline⟩
        · exact Or.inl (List.mem_cons_of_mem _ hold)
        · exact Or.inr (Or.inl hnew)
        · exact Or.inr (Or.inr ⟨known', List.mem_cons_of_mem _ hmem, hline⟩)

/-- A contribution that is there after one was added was there before, or is that one. -/
theorem holds_add {ref r : EntityRef} {contribution x : Contribution}
    (h : (c.add ref contribution).Holds r x) : c.Holds r x ∨ r = ref ∧ x = contribution := by
  obtain ⟨known, hline, hx⟩ := h
  rcases mem_addTo hline with hold | hnew | ⟨known', hmem, hline⟩
  · exact Or.inl ⟨known, hold, hx⟩
  · obtain ⟨rfl, rfl⟩ := Prod.mk.inj hnew
    exact Or.inr ⟨rfl, List.mem_singleton.1 hx⟩
  · obtain ⟨rfl, rfl⟩ := Prod.mk.inj hline
    rcases List.mem_cons.1 hx with rfl | hx
    · exact Or.inr ⟨rfl, rfl⟩
    · exact Or.inl ⟨known', hmem, hx⟩

/-- What all contributions of the events have in common holds of all in the log. -/
theorem forall_holds_of_observeAll {P : EntityRef → Contribution → Prop}
    (hevents : ∀ event ∈ events, ∀ contribution, event.contribution = .ok contribution →
      P (event.about c.moduleRef) contribution)
    (hstart : ∀ ref x, c.Holds ref x → P ref x) (h : c.observeAll events = (.ok (), c')) :
    ∀ ref x, c'.Holds ref x → P ref x := by
  refine (observeAll_induction (motive := fun d => d.module = c.module ∧
    ∀ ref x, d.Holds ref x → P ref x) ?_ h ⟨rfl, hstart⟩).2
  rintro d event d' hevent hobserve ⟨hmodule, hd⟩
  obtain ⟨_, _, _, contribution, hcontribution, rfl⟩ := observe_eq_ok_iff.1 hobserve
  refine ⟨hmodule, fun ref x hx => ?_⟩
  rcases holds_add hx with hx | ⟨rfl, rfl⟩
  · exact hd ref x hx
  · have := hevents event hevent x hcontribution
    rwa [moduleRef, hmodule]

end Collector

end ModuleDocs
