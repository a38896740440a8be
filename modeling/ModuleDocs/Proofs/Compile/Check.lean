import Mathlib
import ModuleDocs.Compile
import ModuleDocs.Proofs.Collector.Metadata
import ModuleDocs.Proofs.Source.Include
import ModuleDocs.Proofs.Source.Unit

/-!
# What a checked source holds

A source is checked in stages, and `Checks` says what each of them can make of it.  One that
passed all checks was read without an error, and its table is that of its events
(`check_eq_ok`).  What the tokens of all files and the values that they write have
in common so shows in every entry of the table (`forall_entries_of_check`).
-/

namespace ModuleDocs

variable {T : Source.Token → Prop} {P : Term → Prop} {L : Int → Prop}

namespace Source

/-! ## Events -/

/-- An atom as a key and its text are the same key. -/
theorem isDict_metadataOf {items : Items} (h : items.IsDict) :
    Items.IsDict (items.map fun item =>
      (match item.1 with
        | .atom t => Term.text t
        | other => other, item.2)) := by
  have hsame : ∀ key : Term, (match key with | .atom t => Term.text t | other => other).keyForm?
      = key.keyForm? := by
    intro key
    cases key <;> rfl
  constructor
  · intro item hitem
    obtain ⟨⟨key, value⟩, hmem, rfl⟩ := List.mem_map.1 hitem
    have := h.hashable _ hmem
    cases key <;> exact this
  · rw [List.pairwise_map]
    refine h.distinct.imp fun {a b} hab => ?_
    simpa only [Term.keyEq, hsame] using hab

/-- What an event adds that comes from a form of sound tokens. -/
theorem isSound_of_isFrom (hdict : ∀ t, P t → t.OnMaps Items.IsDict)
    (hline : ∀ token : Token, T token → L token.position.line) {module : Text} {form : Form}
    (hform : form.Sound T P) {event : Event} (hfrom : IsFrom module form event) {x : Contribution}
    (h : event.contribution = .ok x) : x.IsSound P L := by
  obtain ⟨token, htoken, hat⟩ := hform.at_
  have hspan : ∀ line ∈ event.span.line?, L line := by
    rw [hfrom.span]
    intro line hmem
    cases Option.mem_some_iff.1 hmem
    exact hat ▸ hline token htoken
  have hitems : ∀ metadata ∈ event.metadata?, ∀ span items,
      Collector.metadataOf metadata span = .ok items → Items.IsKeyed P items := by
    intro metadata hmem span items hitems
    obtain ⟨written, hvalue, rfl⟩ := hfrom.metadata metadata hmem
    have hevery := hform.value
    rw [hvalue] at hevery
    refine Collector.isKeyed_of_metadataOf (isDict_metadataOf (hdict _ hevery.self)) ?_ hitems
    intro item hitem
    obtain ⟨item', hmem', rfl⟩ := List.mem_map.1 hitem
    exact (Term.everyPair_iff.1 hevery.2 item' hmem').2
  cases Event.contributes_of_contribution h with
  | moduleText _ | entityText _ => exact ⟨by simp [Contribution.ofContent], hspan⟩
  | moduleItems hkeyed | entityItems hkeyed =>
    refine ⟨fun items hmem => ?_, hspan⟩
    cases Option.mem_some_iff.1 hmem
    exact hitems _ rfl _ _ hkeyed
  | declaration => exact ⟨by simp [Contribution.ofDeclaration], hspan⟩

end Source

/-! ## Tables -/

/-- What all contributions of the events have in common shows in all entries of their
table. -/
theorem DocTable.forall_entries_of_ofEvents (hP : IsNormal P) (hzero : L 0) {module : Text}
    {events : List Event} {exports : List (Text × Int)} {schema : Schema} {source? : Option Text}
    {t : DocTable}
    (hevents : ∀ event ∈ events, ∀ x, event.contribution = .ok x → x.IsSound P L)
    (h : ofEvents module events exports schema source? = .ok t) :
    ∀ e ∈ t.module :: t.entries, e.metadata.IsKeyed P ∧ L e.line := by
  obtain ⟨c, hrun, htable⟩ := exists_collector_of_ofEvents h
  refine Collector.forall_entries_of_table hP hzero ?_ htable
  have hnew : ∀ ref x, (Collector.new module source?).Holds ref x → x.IsSound P L := by
    rintro ref x ⟨known, hknown, hx⟩
    obtain ⟨-, rfl⟩ := Prod.mk.inj (List.mem_singleton.1 hknown)
    cases hx
  exact Collector.forall_holds_of_observeAll (fun event hevent x => hevents event hevent x) hnew hrun

namespace Compile

variable {fs : FileSystem} {options : CompileOptions} {source : Path} {result : UnitResult}
  {checked : Checked}

/-- What checking a source comes to, one case for each stage that can end it. -/
inductive Checks (fs : FileSystem) (options : CompileOptions) (source : Path) :
    UnitResult → Option Checked → Prop
  | unread {diagnostics : List Diagnostic}
      (hread : Source.SourceUnit.read fs options.includePaths source = .ok (none, diagnostics)) :
      Checks fs options source ⟨source, none, none, none, diagnostics⟩ none
  | wrong {unit : Source.SourceUnit} {diagnostics : List Diagnostic}
      (hread : Source.SourceUnit.read fs options.includePaths source
        = .ok (some unit, diagnostics))
      (herrors : hasErrors diagnostics = true) :
      Checks fs options source ⟨source, none, none, none, diagnostics⟩ none
  | refused {unit : Source.SourceUnit} {diagnostics : List Diagnostic} {e : DocError}
      (hread : Source.SourceUnit.read fs options.includePaths source
        = .ok (some unit, diagnostics))
      (htable : DocTable.ofEvents unit.module unit.events unit.exports options.schema
        (some unit.path.toText) = .error (.doc e)) :
      Checks fs options source ⟨source, some unit.module, none, none, diagnostics ++
        [{ e.toDiagnostic with
          span := e.toDiagnostic.span.inFile (some unit.path.toText) }]⟩ none
  | checked {unit : Source.SourceUnit} {diagnostics : List Diagnostic} {table : DocTable}
      (hread : Source.SourceUnit.read fs options.includePaths source
        = .ok (some unit, diagnostics))
      (hclean : hasErrors diagnostics = false)
      (htable : DocTable.ofEvents unit.module unit.events unit.exports options.schema
        (some unit.path.toText) = .ok table) :
      Checks fs options source ⟨source, some unit.module, none, some table, diagnostics⟩
        (some ⟨unit, table⟩)

theorem checks_of_check {checked? : Option Checked}
    (h : check fs options source = .ok (result, checked?)) :
    Checks fs options source result checked? := by
  unfold check at h
  obtain ⟨⟨unit?, diagnostics⟩, hread, h⟩ := Result.bind_eq_ok_iff.1 h
  have hread := Result.mapError_eq_ok_iff.1 hread
  cases unit? with
  | none =>
    cases h
    exact .unread hread
  | some unit =>
    simp only at h
    split at h
    · rename_i herrors
      cases h
      exact .wrong hread herrors
    rename_i hclean
    split at h
    · rename_i table htable
      cases h
      exact .checked hread (eq_false_of_ne_true hclean) htable
    · rename_i e htable
      cases h
      exact .refused hread htable
    · cases h

/-- A source that passed all checks. -/
theorem check_eq_ok (h : check fs options source = .ok (result, some checked)) :
    ∃ diagnostics,
      Source.SourceUnit.read fs options.includePaths source
        = .ok (some checked.unit, diagnostics) ∧
      hasErrors diagnostics = false ∧
      DocTable.ofEvents checked.unit.module checked.unit.events checked.unit.exports options.schema
        (some checked.unit.path.toText) = .ok checked.table ∧
      result = ⟨source, some checked.unit.module, none, some checked.table, diagnostics⟩ := by
  cases checks_of_check h with
  | checked hread hclean htable => exact ⟨_, hread, hclean, htable, rfl⟩

/-- A result with a source and no container. -/
structure IsUnstored (source : Path) (result : UnitResult) : Prop where
  source : result.source = source
  artifact : result.artifact? = none

/-- Checking stores nothing. -/
theorem isUnstored_of_check {checked? : Option Checked}
    (h : check fs options source = .ok (result, checked?)) : IsUnstored source result := by
  cases checks_of_check h <;> exact ⟨rfl, rfl⟩

/-- What tokens and values have in common shows in all entries of a checked source. -/
theorem forall_entries_of_check (hP : Source.IsLiteral T P) (hnormal : IsNormal P)
    (hdict : ∀ t, P t → t.OnMaps Items.IsDict)
    (hline : ∀ token : Source.Token, T token → L token.position.line) (hzero : L 0)
    (htokens : Source.AllTokens T fs)
    (h : check fs options source = .ok (result, some checked)) :
    ∀ e ∈ checked.table.module :: checked.table.entries, e.metadata.IsKeyed P ∧ L e.line := by
  obtain ⟨diagnostics, hread, _, htable, _⟩ := check_eq_ok h
  refine DocTable.forall_entries_of_ofEvents hnormal hzero ?_ htable
  intro event hevent x hx
  obtain ⟨form, hform, hfrom⟩ := Source.exists_form_of_read
    (fun p origin? forms hforms => Source.sound_of_readForms hP htokens hforms) hread event hevent
  exact Source.isSound_of_isFrom hdict hline hform hfrom hx

end Compile

end ModuleDocs
