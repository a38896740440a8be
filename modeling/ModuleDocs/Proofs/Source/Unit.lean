import Mathlib
import ModuleDocs.Proofs.Collector.Observe
import ModuleDocs.Proofs.Source.Include
import ModuleDocs.Proofs.Source.Waiting
import ModuleDocs.Proofs.Text.Utf8

/-!
# Where the events of a unit come from

`MakesUnit` are the cases that there are for forms that are to make a unit, and `ReadsUnit` those
for a file.

Each event of a unit comes from one of its forms (`exists_form_of_read`): it is about the
place of the form, its metadata is the map that the form holds, and the only module it
may be about is the unit's own.
-/

namespace ModuleDocs

namespace Source

variable {fs : FileSystem} {module : Text} {form : Form} {forms waiting : List Form}
  {found : Findings} {event : Event}

/-- The event comes from the form, in the unit of the module. -/
structure IsFrom (module : Text) (form : Form) (event : Event) : Prop where
  span : event.span = form.span
  metadata : ∀ m ∈ event.metadata?, ∃ items, form.value = .map items ∧ m = metadataOf items
  ownModule : (event.about (.ofModule module)).kind = .module →
    event.about (.ofModule module) = .ofModule module
  isEvent : ∀ value, event ≠ .foreign value

/-- Each of the events comes from one of the forms. -/
def AllFrom (module : Text) (forms : List Form) (events : List Event) : Prop :=
  ∀ event ∈ events, ∃ form ∈ forms, IsFrom module form event

/-! ## Names -/

/-- A name has no problem if UTF-8 can hold it, in at least one byte and not too many. -/
theorem nameProblem?_eq_none_iff {name : Text} : nameProblem? name = none ↔
    Utf8.isEncodable name = true ∧ Utf8.encodeAll name ≠ [] ∧
      (Utf8.encodeAll name).length ≤ maxName := by
  unfold nameProblem?
  cases hencode : Utf8.encode name with
  | error e =>
    refine iff_of_false (by simp) fun h => ?_
    rw [Utf8.encode_of_isEncodable h.1] at hencode
    cases hencode
  | ok data =>
    obtain ⟨hencodable, hdata⟩ := Utf8.encode_eq_ok_iff.1 hencode
    subst hdata
    by_cases hempty : Utf8.encodeAll name = []
    · simp [hempty]
    · simp [hencodable, hempty]

/-- A form that names no module is reported in its place. -/
theorem exists_error_of_moduleName {d : Diagnostic} (h : moduleName form = .error d) :
    ∃ message, d = .error "parser" "E-DOC-MODULE" message form.span := by
  unfold moduleName at h
  dsimp only at h
  split at h
  · split at h
    · cases h
      exact ⟨_, rfl⟩
    · split at h
      · cases h
        exact ⟨_, rfl⟩
      · cases h
  · cases h
    exact ⟨_, rfl⟩

/-- The form that names a module, and the name. -/
theorem moduleName_eq_ok_iff : moduleName form = .ok module ↔
    form.value = .atom module ∧ form.name = Text.ofString "module" ∧
      nameProblem? module = none := by
  unfold moduleName
  split
  · rename_i name hvalue
    rw [hvalue]
    by_cases hform : form.name = Text.ofString "module"
    · cases hproblem : nameProblem? name with
      | none =>
        simp only [hform, ne_eq, not_true, if_false]
        constructor
        · intro h
          cases h
          exact ⟨rfl, trivial, hproblem⟩
        · intro h
          cases h.1
          rfl
      | some problem =>
        simp only [hform, ne_eq, not_true, if_false]
        refine iff_of_false (by simp) fun h => ?_
        cases h.1
        cases hproblem.symm.trans h.2.2
    · simp [hform]
  · rename_i hvalue
    exact iff_of_false (by simp) fun h => hvalue module h.1

/-! ## Forms -/

/-- The kinds that forms declare are no modules. -/
theorem entityKind?_ne_module {name : Text} {kind : EntityKind} (h : entityKind? name = some kind) :
    kind ≠ .module := by
  unfold entityKind? at h
  split at h
  · cases h
    decide
  split at h
  · cases h
    decide
  split at h
  · cases h
    decide
  · cases h

theorem kind_of_entityOf {kind : EntityKind} {ref : EntityRef} (h : entityOf kind form = .ok ref) :
    ref.kind = kind := by
  unfold entityOf at h
  split at h
  · split at h
    · cases h
    split at h
    · cases h
    · cases h
      rfl
  · cases h

theorem kind_of_declared? {ref : EntityRef} (h : declared? form = some (.ok ref)) :
    ref.kind ≠ .module := by
  obtain ⟨kind, hkind, hentity⟩ := Option.map_eq_some_iff.1 h
  exact kind_of_entityOf hentity ▸ entityKind?_ne_module hkind

theorem IsDocEvent.isFrom {ref : EntityRef} (href : ref.kind ≠ .module)
    (h : IsDocEvent fs ref form event) : IsFrom module form event := by
  cases h with
  | metadata hvalue =>
    refine ⟨rfl, fun m hm => ⟨_, hvalue, ?_⟩, fun hkind => (href hkind).elim, by simp⟩
    cases Option.mem_some_iff.1 hm
    rfl
  | text _ => exact ⟨rfl, by simp [Event.metadata?], fun hkind => (href hkind).elim, by simp⟩

theorem FormFindings.isFrom (h : FormFindings fs form found) :
    ∀ event ∈ found.events, IsFrom module form event := by
  cases h with
  | metadata _ hvalue =>
    refine List.forall_mem_singleton.2 ⟨rfl, fun m hm => ⟨_, hvalue, ?_⟩, fun _ => rfl, by simp⟩
    cases Option.mem_some_iff.1 hm
    rfl
  | text _ _ =>
    exact List.forall_mem_singleton.2 ⟨rfl, by simp [Event.metadata?], fun _ => rfl, by simp⟩
  | exports _ _ => exact List.forall_mem_nil _
  | invalid _ => exact List.forall_mem_nil _
  | ignored => exact List.forall_mem_nil _

/-- Each event that a form comes to is from it, or from a form that waits in front of it. -/
theorem allFrom_of_readOne (h : readOne fs waiting form = .ok found) :
    AllFrom module (waiting ++ [form]) found.events := by
  have hform : form ∈ waiting ++ [form] := by simp
  intro event hevent
  cases stepFindings_of_readOne h with
  | waits _ => cases hevent
  | refused _ => cases hevent
  | other _ hfound => exact ⟨form, hform, hfound.isFrom event hevent⟩
  | declares hdeclared hdocs =>
    have href := kind_of_declared? hdeclared
    rcases List.mem_append.1 hevent with hevent | hevent
    · rw [events_of_readDocs hdocs] at hevent
      obtain ⟨doc, hdoc, hdocEvent⟩ := List.mem_filterMap.1 hevent
      exact ⟨doc, List.mem_append_left _ (List.mem_reverse.1 hdoc),
        (isDocEvent_of_docEvent? hdocEvent).isFrom href⟩
    · rw [List.mem_singleton.1 hevent]
      exact ⟨form, hform, rfl, by simp [Event.metadata?], fun hk => (href hk).elim, by simp⟩

theorem allFrom_of_readAll (h : readAll fs waiting forms = .ok found) :
    AllFrom module (waiting ++ forms) found.events := by
  obtain ⟨read, hread, rfl⟩ := readAll_eq_ok_iff.1 h
  intro event hevent
  obtain ⟨front, form, behind, first, rfl, hfirst, hevent⟩ :=
    hread.exists_form (by simpa [Findings.append] using hevent)
  obtain ⟨f, hf, hfrom⟩ := allFrom_of_readOne hfirst event hevent
  refine ⟨f, ?_, hfrom⟩
  have hsubset := stillWaiting_subset waiting front
  simp only [List.mem_append, List.mem_cons, List.not_mem_nil, or_false] at hf ⊢
  rcases hf with hf | rfl
  · exact or_assoc.1 (.inl (List.mem_append.1 (hsubset hf)))
  · exact .inr (.inr (.inl rfl))

/-! ## Units -/

/-- What forms make.  There are none, the first of them names no module, or it does and the others
are read. -/
inductive MakesUnit (fs : FileSystem) (path : Path) (includes : List Path) :
    List Form → Option SourceUnit → List Diagnostic → Prop
  | empty : MakesUnit fs path includes [] none
      [.error "parser" "E-DOC-MODULE" "missing -module attribute" (.ofFile path.toText)]
  | unnamed {first : Form} {rest : List Form} {d : Diagnostic}
    (hmodule : moduleName first = .error d) : MakesUnit fs path includes (first :: rest) none [d]
  | named {first : Form} {rest : List Form} {module : Text} {found : Findings}
    (hmodule : moduleName first = .ok module) (hfound : readAll fs [] rest = .ok found) :
    MakesUnit fs path includes (first :: rest)
      (some ⟨module, path, .declaration (.ofModule module) first.span :: found.events,
        distinct found.exports, includes⟩) found.diagnostics

theorem ofForms_eq_ok_iff {path : Path} {includes : List Path} {unit? : Option SourceUnit}
    {diagnostics : List Diagnostic} :
    SourceUnit.ofForms fs path includes forms = .ok (unit?, diagnostics) ↔
      MakesUnit fs path includes forms unit? diagnostics := by
  constructor
  · intro h
    cases forms with
    | nil =>
      cases h
      exact .empty
    | cons first rest =>
      rw [SourceUnit.ofForms] at h
      cases hmodule : moduleName first with
      | error d =>
        rw [hmodule] at h
        cases h
        exact .unnamed hmodule
      | ok module =>
        rw [hmodule] at h
        obtain ⟨found, hfound, h⟩ := Result.bind_pure_eq_ok_iff.1 h
        cases h
        exact .named hmodule hfound
  · intro h
    cases h with
    | empty => rfl
    | unnamed hmodule => rw [SourceUnit.ofForms, hmodule]
    | named hmodule hfound =>
      rw [SourceUnit.ofForms, hmodule]
      exact Result.bind_pure_eq_ok_iff.2 ⟨_, hfound, rfl⟩

/-- What is known of a unit that forms make. -/
theorem ofForms_eq_ok {path : Path} {includes : List Path} {unit : SourceUnit}
    {diagnostics : List Diagnostic}
    (h : SourceUnit.ofForms fs path includes forms = .ok (some unit, diagnostics)) :
    ∃ first rest found, forms = first :: rest ∧ moduleName first = .ok unit.module ∧
      readAll fs [] rest = .ok found ∧ unit.path = path ∧
      unit.events = .declaration (.ofModule unit.module) first.span :: found.events ∧
      unit.exports = distinct found.exports ∧ diagnostics = found.diagnostics := by
  cases ofForms_eq_ok_iff.1 h with
  | named hmodule hfound => exact ⟨_, _, _, rfl, hmodule, hfound, rfl, rfl, rfl, rfl⟩

/-- Each event of a unit comes from one of its forms. -/
theorem allFrom_of_ofForms {path : Path} {includes : List Path} {unit : SourceUnit}
    {diagnostics : List Diagnostic}
    (h : SourceUnit.ofForms fs path includes forms = .ok (some unit, diagnostics)) :
    AllFrom unit.module forms unit.events := by
  obtain ⟨first, rest, found, rfl, _, hfound, _, hevents, _, _⟩ := ofForms_eq_ok h
  rw [hevents]
  intro event hevent
  rcases List.mem_cons.1 hevent with rfl | hevent
  · exact ⟨first, List.mem_cons_self, rfl, by simp [Event.metadata?], fun _ => rfl, by simp⟩
  · have hall : AllFrom unit.module ([] ++ rest) found.events := allFrom_of_readAll hfound
    obtain ⟨form, hform, hfrom⟩ := hall event hevent
    exact ⟨form, List.mem_cons_of_mem _ (by simpa using hform), hfrom⟩

/-- Some forms make a unit of a module of this name. -/
def IsModuleName (module : Text) : Prop :=
  ∃ (fs : FileSystem) (path : Path) (includes : List Path) (forms : List Form)
    (unit : SourceUnit) (diagnostics : List Diagnostic),
    SourceUnit.ofForms fs path includes forms = .ok (some unit, diagnostics) ∧
      unit.module = module

/-- Nothing but the check of names tells which names modules have. -/
theorem isModuleName_iff : IsModuleName module ↔ nameProblem? module = none := by
  constructor
  · intro h
    obtain ⟨fs, path, includes, forms, unit, diagnostics, hforms, rfl⟩ := h
    obtain ⟨first, _, _, _, hfirst, _⟩ := ofForms_eq_ok hforms
    exact (moduleName_eq_ok_iff.1 hfirst).2.2
  · intro h
    let form : Form := ⟨"module", .atom module, ⟨1, 1⟩, none⟩
    have hname : moduleName form = .ok module := moduleName_eq_ok_iff.2 ⟨rfl, rfl, h⟩
    let root : Path := ⟨.single, []⟩
    have hrest : readAll (.empty root) [] [] = .ok .empty := rfl
    exact ⟨_, root, [], [form], _, _, ofForms_eq_ok_iff.2 (.named hname hrest), rfl⟩

/-- What reading a file comes to.  Its expansion has errors, or its forms make what they make. -/
inductive ReadsUnit (fs : FileSystem) (includePaths : List Path) (path : Path) :
    Option SourceUnit → List Diagnostic → Prop
  | broken {expansion : Expansion} (hload : load fs includePaths path = .ok expansion)
    (herrors : hasErrors expansion.diagnostics = true) :
    ReadsUnit fs includePaths path none expansion.diagnostics
  | made {expansion : Expansion} {unit? : Option SourceUnit} {found : List Diagnostic}
    (hload : load fs includePaths path = .ok expansion)
    (hclean : hasErrors expansion.diagnostics = false)
    (hunit : MakesUnit fs path expansion.included expansion.forms unit? found) :
    ReadsUnit fs includePaths path unit? (expansion.diagnostics ++ found)

theorem readsUnit_of_read {includePaths : List Path} {path : Path} {unit? : Option SourceUnit}
    {diagnostics : List Diagnostic}
    (h : SourceUnit.read fs includePaths path = .ok (unit?, diagnostics)) :
    ReadsUnit fs includePaths path unit? diagnostics := by
  unfold SourceUnit.read at h
  obtain ⟨expansion, hload, h⟩ := Result.bind_eq_ok_iff.1 h
  split at h
  · rename_i herrors
    cases h
    exact .broken hload herrors
  · rename_i hclean
    obtain ⟨⟨unit?, found⟩, hforms, h⟩ := Result.bind_pure_eq_ok_iff.1 h
    cases h
    have hunit := ofForms_eq_ok_iff.1 (Result.mapError_eq_ok_iff.1 hforms)
    exact .made hload (by simpa using hclean) hunit

/-- A unit that was read, the expansion of its file, and what was read from that. -/
theorem read_eq_ok {includePaths : List Path} {path : Path} {unit : SourceUnit}
    {diagnostics : List Diagnostic}
    (h : SourceUnit.read fs includePaths path = .ok (some unit, diagnostics)) :
    ∃ expansion found, load fs includePaths path = .ok expansion ∧
      hasErrors expansion.diagnostics = false ∧
      SourceUnit.ofForms fs path expansion.included expansion.forms = .ok (some unit, found) ∧
      diagnostics = expansion.diagnostics ++ found := by
  cases readsUnit_of_read h with
  | made hload hclean hunit => exact ⟨_, _, hload, hclean, ofForms_eq_ok_iff.2 hunit, rfl⟩

/-- A file without includes is read as its own forms say. -/
theorem read_of_plain {includePaths : List Path} {path : Path}
    (hread : readForms fs path none = .ok (.ok forms))
    (hplain : ∀ form ∈ forms, form.name ≠ Text.ofString "include") :
    SourceUnit.read fs includePaths path
      = (SourceUnit.ofForms fs path [] forms).mapError .file := by
  have hload : load fs includePaths path = .ok ⟨forms, [], []⟩ := by
    rw [load, expandFile_eq, hread]
    exact expandForms_of_plain hplain
  rw [SourceUnit.read, hload]
  dsimp only [bind, Except.bind]
  rcases SourceUnit.ofForms fs path [] forms with _ | ⟨unit?, diagnostics⟩ <;> rfl

/-- Each event of a unit that was read comes from a form of a file, with what all these
forms have in common. -/
theorem exists_form_of_read {Q : Form → Prop} {includePaths : List Path} {path : Path}
    {unit : SourceUnit} {diagnostics : List Diagnostic}
    (hread : ∀ p origin? forms, readForms fs p origin? = .ok (.ok forms) → ∀ form ∈ forms, Q form)
    (h : SourceUnit.read fs includePaths path = .ok (some unit, diagnostics)) :
    ∀ event ∈ unit.events, ∃ form, Q form ∧ IsFrom unit.module form event := by
  obtain ⟨expansion, found, hload, _, hforms, _⟩ := read_eq_ok h
  intro event hevent
  obtain ⟨form, hform, hfrom⟩ := allFrom_of_ofForms hforms event hevent
  exact ⟨form, forall_forms_of_expandFile hread hload form hform, hfrom⟩

end Source

end ModuleDocs
