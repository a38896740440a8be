import Mathlib
import ModuleDocs.Collector.Session
import ModuleDocs.Proofs.Collector.History

/-!
# What calls leave of a collector

`run_observe` and `run_finalize` compare the calls that change a collector in place with
`Collector.observe` and `Collector.finalize`: an event that is refused has changed nothing,
and `finalize` closes the collector and changes nothing else, whatever it answers.

Each call of a session keeps what the collector remembers (`Remembers.run`), and so does the
session (`Remembers.session`).  `isAfter_session` says what a session leaves of a new
collector.
-/

namespace ModuleDocs.Collector

open Result

variable {c c' : Collector} {event : Event} {events : List Event} {ref : EntityRef}

/-! ## Calls that change the collector in place -/

namespace Update

variable {α β : Type}

theorem run_bind_get (f : Collector → Update β) (c : Collector) :
    (get >>= f).run c = (f c).run c := rfl

theorem run_bind_ofResult (x : Except UnitError α) (f : α → Update β) (c : Collector) :
    (ofResult x >>= f).run c =
      match x with
      | .ok a => (f a).run c
      | .error e => (.error e, c) := by
  cases x <;> rfl

/-- A call that gives the next collector, or changes nothing. -/
def whole (c : Collector) : Except UnitError Collector → Except UnitError Unit × Collector
  | .ok c' => (.ok (), c')
  | .error e => (.error e, c)

theorem run_recordDoc (ref : EntityRef) (payload : Payload) (span : Span) (c : Collector) :
    (recordDoc ref payload span).run c = whole c (c.observeDoc ref payload span) := by
  rw [recordDoc, run_bind_get, observeDoc]
  cases c.docSpan? ref with
  | some previous => rfl
  | none =>
    -- The content is looked at before the first change.
    cases contentOf payload span <;> rfl

theorem run_recordMetadata (ref : EntityRef) (metadata : Term) (span : Span) (c : Collector) :
    (recordMetadata ref metadata span).run c = whole c (c.observeMetadata ref metadata span) := by
  rw [recordMetadata, observeMetadata, run_bind_ofResult]
  cases metadataOf metadata span <;> rfl

/-- An event is taken as a whole, or nothing is changed. -/
theorem run_observe (event : Event) (c : Collector) :
    (observe event).run c = whole c (c.observe event) := by
  rw [observe, run_bind_get]
  unfold Collector.observe
  cases c.isFinalized with
  | true => rfl
  | false =>
    rw [if_neg (by decide), if_neg (by decide)]
    cases event with
    | moduleDoc payload span => exact run_recordDoc _ payload span c
    | moduleMeta metadata span => exact run_recordMetadata _ metadata span c
    | declaration ref span =>
      dsimp only
      rw [run_bind_ofResult]
      cases c.ownRef ref <;> rfl
    | entityDoc ref payload span =>
      dsimp only
      rw [run_bind_ofResult]
      cases c.ownRef ref with
      | error e => rfl
      | ok ref => exact run_recordDoc ref payload span c
    | entityMeta ref metadata span =>
      dsimp only
      rw [run_bind_ofResult]
      cases c.ownRef ref with
      | error e => rfl
      | ok ref => exact run_recordMetadata ref metadata span c
    | foreign value => rfl

/-- Whether a collector is closed does not show in what it makes. -/
theorem finishAll_close (c : Collector) (schema : Schema) (exports : List (Text × Int))
    (lines : List (EntityRef × List Contribution)) :
    { c with isFinalized := true }.finishAll schema exports lines
      = c.finishAll schema exports lines := by
  induction lines with
  | nil => rfl
  | cons line rest ih =>
    rw [finishAll, finishAll, ih]
    rfl

theorem table_close (c : Collector) (schema : Schema) (exports : List (Text × Int)) :
    { c with isFinalized := true }.table schema exports = c.table schema exports := by
  unfold table
  rw [finishAll_close]
  rfl

theorem run_finalize (schema : Schema) (exports : List (Text × Int)) (c : Collector) :
    (finalize schema exports).run c = c.finalize schema exports := by
  rw [finalize, run_bind_get, Collector.finalize]
  cases c.isFinalized with
  | true => rfl
  | false =>
    rw [if_neg (by decide), if_neg (by decide), ← table_close]
    rfl

end Update

/-! ## Sessions -/

namespace Call

theorem run_observe_of_ok (h : c.observe event = .ok c') :
    run c (.observe event) = (.ok none, c') := by
  rw [run, Update.run_observe, h]
  rfl

theorem run_observe_of_error {e : UnitError} (h : c.observe event = .error e) :
    run c (.observe event) = (.error e, c) := by
  rw [run, Update.run_observe, h]
  rfl

theorem run_finalize_of_open (h : c.isFinalized = false) (schema : Schema)
    (exports : List (Text × Int)) :
    run c (.finalize schema exports)
      = ((c.table schema exports).map some, { c with isFinalized := true }) := by
  rw [run, Update.run_finalize, Collector.finalize, h]
  rfl

/-- A closed collector refuses every call, and is not changed by it. -/
theorem run_of_closed (h : c.isFinalized = true) (call : Call) :
    run c call = (.error (.finalized c.module), c) := by
  cases call with
  | observe event =>
    apply run_observe_of_error
    rw [observe_eq, if_pos h]
  | finalize schema exports =>
    rw [run, Update.run_finalize, Collector.finalize, if_pos h]
    rfl

/-- A call leaves the module as it is, and closes the collector if it asks for a table. -/
theorem module_run (c : Collector) (call : Call) :
    (run c call).2.module = c.module ∧
      (run c call).2.isFinalized = (c.isFinalized || call.isFinalize) := by
  by_cases hclosed : c.isFinalized = true
  · rw [run_of_closed hclosed, hclosed]
    exact ⟨rfl, rfl⟩
  have hopen : c.isFinalized = false := by simpa using hclosed
  cases call with
  | observe event =>
    cases hobserve : c.observe event with
    | error e =>
      rw [run_observe_of_error hobserve]
      simp [isFinalize]
    | ok c' =>
      obtain ⟨_, _, _, x, _, rfl⟩ := observe_eq_ok_iff.1 hobserve
      rw [run_observe_of_ok hobserve]
      simp [isFinalize, take, add]
  | finalize schema exports =>
    rw [run_finalize_of_open hopen]
    simp [isFinalize]

end Call

theorem Remembers.close (h : c.Remembers events) :
    { c with isFinalized := true }.Remembers events :=
  ⟨h.acceptable, ⟨h.isLog.distinct, h.isLog.module⟩, h.refs, h.contributions, h.texts, h.docSpan?⟩

/-- The event of a call is remembered if it is taken, and nothing is forgotten. -/
theorem Remembers.run (h : c.Remembers events) (call : Call) :
    (call.run c).2.Remembers (events ++ call.taken (call.run c).1) := by
  cases call with
  | observe event =>
    cases hobserve : c.observe event with
    | error e =>
      rw [Call.run_observe_of_error hobserve, Call.taken, List.append_nil]
      · exact h
      · simp
    | ok c' =>
      rw [Call.run_observe_of_ok hobserve]
      exact h.observe hobserve
  | finalize schema exports =>
    have hnone : ∀ answer, (Call.finalize schema exports).taken answer = [] := fun _ => rfl
    rw [hnone, List.append_nil]
    by_cases hclosed : c.isFinalized = true
    · rw [Call.run_of_closed hclosed]
      exact h
    · rw [Call.run_finalize_of_open (by simpa using hclosed)]
      exact h.close

theorem Remembers.session (h : c.Remembers events) (calls : List Call) :
    (c.session calls).2.Remembers (events ++ takenIn (c.session calls).1) := by
  induction calls generalizing c events with
  | nil => simpa [Collector.session, takenIn] using h
  | cons call rest ih =>
    have hrest := ih (h.run call)
    rw [List.append_assoc] at hrest
    exact hrest

/-- A session leaves the module as it is, and closes the collector if it asks for a table. -/
theorem module_session (c : Collector) (calls : List Call) :
    (c.session calls).2.module = c.module ∧
      (c.session calls).2.isFinalized = (c.isFinalized || calls.any (·.isFinalize)) := by
  induction calls generalizing c with
  | nil => simp [session]
  | cons call rest ih =>
    obtain ⟨hmodule, hclosed⟩ := ih (call.run c).2
    obtain ⟨hfirst, hfinalize⟩ := Call.module_run c call
    rw [hfirst] at hmodule
    rw [hfinalize, Bool.or_assoc] at hclosed
    exact ⟨hmodule, hclosed⟩

/-! ## Second texts -/

/-- The error is not about a second text. -/
def IsNoDuplicate (e : UnitError) : Prop :=
  ∀ ref previous span, e ≠ .doc (.duplicate ref previous span)

/-- What an event brings does not depend on other events. -/
theorem isNoDuplicate_contribution (event : Event) :
    FailsWith IsNoDuplicate event.contribution := by
  refine (refused_of_contribution event).imp fun e he => ?_
  cases he <;> simp [IsNoDuplicate]

/-- A text is refused as the second of its entity where the place of a first one is kept. -/
theorem observe_eq_duplicate_iff {previous span : Span} :
    c.observe event = .error (.doc (.duplicate ref previous span)) ↔
      c.isFinalized = false ∧ (ref.kind = .module → ref = c.moduleRef) ∧
        event.about c.moduleRef = ref ∧ event.textSpan? = some span ∧
        c.docSpan? ref = some previous := by
  have hcontribution : event.contribution ≠ .error (.doc (.duplicate ref previous span)) :=
    fun h => isNoDuplicate_contribution event _ h ref previous span rfl
  have hown : ∀ r, c.ownRef r ≠ .error (.doc (.duplicate ref previous span)) := by
    intro r
    unfold ownRef
    split <;> simp
  rw [observe_eq]
  cases c.isFinalized with
  | true => simp
  | false =>
    rw [if_neg (by decide), bind_eq_error_iff]
    simp only [hown, false_or, ownRef_eq_ok_iff, true_and, and_assoc, exists_eq_left,
      exists_and_left]
    cases event.textSpan? with
    | none => simp [map_eq_error_iff, hcontribution]
    | some place =>
      cases hspan : c.docSpan? (event.about c.moduleRef) with
      | none =>
        simp only [map_eq_error_iff, hcontribution, and_false, false_iff]
        rintro ⟨_, rfl, _, hsome⟩
        rw [hspan] at hsome
        cases hsome
      | some first =>
        simp only [Except.error.injEq, UnitError.doc.injEq, DocError.duplicate.injEq,
          Option.some.injEq]
        constructor
        · rintro ⟨hkind, rfl, rfl, rfl⟩
          exact ⟨hkind, rfl, rfl, hspan⟩
        · rintro ⟨hkind, rfl, rfl, hsome⟩
          rw [hspan] at hsome
          exact ⟨hkind, rfl, Option.some.inj hsome, rfl⟩

/-- A collector tells that a text is the second of its entity when it has taken another one,
and tells where that one is. -/
theorem Remembers.observe_eq_duplicate_iff (h : c.Remembers events) {previous span : Span} :
    c.observe event = .error (.doc (.duplicate ref previous span)) ↔
      c.isFinalized = false ∧ event.about c.moduleRef = ref ∧ event.textSpan? = some span ∧
        ∃ earlier ∈ events, earlier.about c.moduleRef = ref ∧
          earlier.textSpan? = some previous := by
  rw [Collector.observe_eq_duplicate_iff, h.docSpan?_eq_some_iff]
  refine and_congr_right fun _ => and_iff_right_of_imp ?_
  -- An entity of which a text was taken is the unit's own module, or none.
  rintro ⟨_, _, earlier, hearlier, rfl, _⟩
  exact (h.acceptable earlier hearlier).own

/-! ## What a session leaves -/

/-- What is true of the collector of a module after calls by which these events were taken. -/
structure IsAfter (c : Collector) (module : Text) (calls : List Call) (events : List Event) :
    Prop where
  own : c.module = module
  /-- The module stands before all other entities. -/
  first : c.refs.head? = some (.ofModule module)
  remembers : c.Remembers events
  /-- A text is refused as the second of its entity when one was taken before, which is told. -/
  duplicate : ∀ event ref previous span,
    (Call.run c (.observe event)).1 = .error (.doc (.duplicate ref previous span)) ↔
      (∀ call ∈ calls, call.isFinalize = false) ∧ event.about (.ofModule module) = ref ∧
        event.textSpan? = some span ∧ ∃ earlier ∈ events,
          earlier.about (.ofModule module) = ref ∧ earlier.textSpan? = some previous
  /-- An event that is refused changes nothing. -/
  refused : ∀ event e, (Call.run c (.observe event)).1 = .error e →
    (Call.run c (.observe event)).2 = c
  /-- Behind a call for the table all calls are refused, and none changes anything. -/
  closed : (∃ call ∈ calls, call.isFinalize = true) →
    ∀ call, Call.run c call = (.error (.finalized module), c)

/-- What a session leaves of a new collector. -/
theorem isAfter_session (module : Text) (source? : Option Text) (calls : List Call) :
    ((new module source?).session calls).2.IsAfter module calls
      (takenIn ((new module source?).session calls).1) := by
  have hremembers : ((new module source?).session calls).2.Remembers
      (takenIn ((new module source?).session calls).1) :=
    (remembers_new module source?).session calls
  obtain ⟨hmodule, hclosed⟩ := module_session (new module source?) calls
  generalize ((new module source?).session calls).2 = c at *
  generalize takenIn ((new module source?).session calls).1 = events at *
  have hnew : c.isFinalized = calls.any (·.isFinalize) := hclosed
  have href : c.moduleRef = .ofModule module := congrArg EntityRef.ofModule hmodule
  refine ⟨hmodule, ?_, hremembers, ?_, ?_, ?_⟩
  · rw [hremembers.refs, href, List.eraseDups_cons]
    rfl
  · intro event ref previous span
    have hopen : c.isFinalized = false ↔ ∀ call ∈ calls, call.isFinalize = false := by
      simp [hnew]
    rw [← hopen, ← href, ← hremembers.observe_eq_duplicate_iff]
    cases hobserve : c.observe event with
    | error e => simp [Call.run_observe_of_error hobserve]
    | ok c' => simp [Call.run_observe_of_ok hobserve]
  · intro event e he
    cases hobserve : c.observe event with
    | error e' => rw [Call.run_observe_of_error hobserve]
    | ok c' =>
      rw [Call.run_observe_of_ok hobserve] at he
      cases he
  · intro hfinalize call
    have hany : c.isFinalized = true := by simpa [hnew] using hfinalize
    rw [Call.run_of_closed hany, hmodule]
    rfl

/-- Two texts of a function, the first behind a value that is none, an event about another
module, and a table. -/
def sampleCalls : List Call :=
  [.observe (.entityDoc ⟨.function, "f", 1⟩ (.value .none) .unknown),
    .observe (.entityDoc ⟨.function, "f", 1⟩ (.value (.text "doc")) .unknown),
    .observe (.entityDoc ⟨.function, "f", 1⟩ (.value (.text "other")) .unknown),
    .observe (.declaration (.ofModule "other") .unknown), .finalize Schema.default [],
    .observe (.declaration ⟨.function, "f", 1⟩ .unknown)]

example : ((new "m" none).session sampleCalls).1.map (·.2.isOk)
    = [false, true, false, false, true, false] := by cbv

end ModuleDocs.Collector
