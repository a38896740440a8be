import Mathlib
import ModuleDocs.Proofs.Result
import ModuleDocs.Source.Unit

/-!
# Forms that wait

A `-doc` form waits for the next form that declares an entity.  When forms are read one after
the other, `stillWaiting` are those that wait behind them, and `Reads` says what they come to.
All that still wait in the end are reported (`readAll_eq_ok_iff`).

What one form comes to follows from its name and its value:

* a `-doc` form has the metadata of a map or a text, or an error (`isDocEvent_of_docEvent`,
  `payloadOf_of_docEvent`);
* a form that is about no entity is about the module, or lists exports, or is wrong
  (`formFindings_of_readForm`);
* behind forms that wait, a declaration ends their waiting (`stepFindings_of_readOne`).
-/

namespace ModuleDocs.Source

open Result

variable {fs : FileSystem} {form doc : Form} {forms waiting front behind : List Form}
  {ref : EntityRef} {found : Findings} {event : Event} {d : Diagnostic}

/-! ## Errors -/

/-- An error at the place of a form. -/
structure IsErrorAt (form : Form) (d : Diagnostic) : Prop where
  isError : d.isError = true
  span : d.span = form.span

theorem isErrorAt_attributeError (form : Form) (message : Text) :
    IsErrorAt form (attributeError form message) := ⟨rfl, rfl⟩

theorem isErrorAt_of_payloadOf (h : payloadOf fs form = .ok (.error d)) : IsErrorAt form d := by
  unfold payloadOf at h
  dsimp only at h
  split at h
  · split at h
    · cases h
    · cases h
      exact isErrorAt_attributeError form _
  · cases h
  · cases h
  split at h
  · cases h
    exact isErrorAt_attributeError form _
  split at h
  · cases h
  · cases h
    exact ⟨rfl, rfl⟩
  · cases h

theorem isErrorAt_of_entityOf {kind : EntityKind} (h : entityOf kind form = .error d) :
    IsErrorAt form d := by
  unfold entityOf at h
  split at h
  · split at h
    · cases h
      exact isErrorAt_attributeError form _
    split at h
    · cases h
      exact isErrorAt_attributeError form _
    · cases h
  · cases h
    exact isErrorAt_attributeError form _

/-! ## `-doc` forms -/

/-- The event of a `-doc` form of an entity: the metadata of a map, or a valid text. -/
inductive IsDocEvent (fs : FileSystem) (ref : EntityRef) (doc : Form) : Event → Prop where
  | metadata {items : Items} (hvalue : doc.value = .map items) :
      IsDocEvent fs ref doc (.entityMeta ref (metadataOf items) doc.span)
  | text {payload : Payload} (hpayload : payloadOf fs doc = .ok (.ok payload)) :
      IsDocEvent fs ref doc (.entityDoc ref payload doc.span)

/-- The event of a `-doc` form of an entity, if the form is valid. -/
def docEvent? (fs : FileSystem) (ref : EntityRef) (doc : Form) : Option Event :=
  match docEvent fs ref doc with
  | .ok (.ok event) => some event
  | _ => none

theorem payloadOf_of_docEvent (h : docEvent fs ref form = .ok (.error d)) :
    (∀ items, form.value ≠ .map items) ∧ payloadOf fs form = .ok (.error d) := by
  unfold docEvent at h
  split at h
  · cases h
  · rename_i hvalue
    obtain ⟨result, hpayload, h⟩ := bind_eq_ok_iff.1 h
    split at h
    · cases h
    · cases h
      exact ⟨hvalue, hpayload⟩

theorem isDocEvent_of_docEvent (h : docEvent fs ref form = .ok (.ok event)) :
    IsDocEvent fs ref form event := by
  unfold docEvent at h
  split at h
  · rename_i items hvalue
    cases h
    exact .metadata hvalue
  · obtain ⟨result, hpayload, h⟩ := bind_eq_ok_iff.1 h
    split at h
    · cases h
      exact .text hpayload
    · cases h

/-- The event is that of a `-doc` form of an entity. -/
theorem isDocEvent_of_docEvent? (h : docEvent? fs ref doc = some event) :
    IsDocEvent fs ref doc event := by
  unfold docEvent? at h
  split at h
  · rename_i hevent
    cases h
    exact isDocEvent_of_docEvent hevent
  · cases h

/-! ## Findings -/

namespace Findings

theorem append_assoc (a b c : Findings) : (a.append b).append c = a.append (b.append c) := by
  simp [append, List.append_assoc]

@[simp] theorem empty_append (a : Findings) : empty.append a = a := rfl

@[simp] theorem append_empty (a : Findings) : a.append empty = a := by simp [append, empty]

/-- What a `-doc` form comes to. -/
def ofDoc : Except Diagnostic Event → Findings
  | .ok event => .ofEvent event
  | .error d => .ofDiagnostic d

end Findings

/-! ## The forms of an entity -/

theorem readDocs_cons_eq_ok_iff : readDocs fs ref (doc :: forms) = .ok found ↔
    ∃ result back, docEvent fs ref doc = .ok result ∧ readDocs fs ref forms = .ok back ∧
      found = (Findings.ofDoc result).append back := by
  rw [readDocs]
  constructor
  · intro h
    obtain ⟨result, hresult, h⟩ := bind_eq_ok_iff.1 h
    obtain ⟨back, hback, rfl⟩ := bind_pure_eq_ok_iff.1 h
    exact ⟨result, back, hresult, hback, by cases result <;> rfl⟩
  · rintro ⟨result, back, hresult, hback, rfl⟩
    rw [hresult, hback]
    cases result <;> rfl

theorem readDocs_append_eq_ok_iff : readDocs fs ref (front ++ behind) = .ok found ↔
    ∃ a b, readDocs fs ref front = .ok a ∧ readDocs fs ref behind = .ok b ∧ found = a.append b := by
  induction front generalizing found with
  | nil =>
    constructor
    · intro h
      exact ⟨.empty, found, rfl, h, rfl⟩
    · rintro ⟨a, b, ha, hb, rfl⟩
      cases ha
      exact hb
  | cons doc front ih =>
    rw [List.cons_append, readDocs_cons_eq_ok_iff]
    constructor
    · rintro ⟨result, rest, hresult, hrest, rfl⟩
      obtain ⟨a, b, ha, hb, rfl⟩ := ih.1 hrest
      exact ⟨_, b, readDocs_cons_eq_ok_iff.2 ⟨result, a, hresult, ha, rfl⟩, hb,
        (Findings.append_assoc _ _ _).symm⟩
    · rintro ⟨a, b, ha, hb, rfl⟩
      obtain ⟨result, rest, hresult, hrest, rfl⟩ := readDocs_cons_eq_ok_iff.1 ha
      exact ⟨result, rest.append b, hresult, ih.2 ⟨rest, b, hrest, hb, rfl⟩,
        Findings.append_assoc _ _ _⟩

/-- The events of an entity are those of its valid forms, in their order. -/
theorem events_of_readDocs (h : readDocs fs ref forms = .ok found) :
    found.events = forms.filterMap (docEvent? fs ref) := by
  induction forms generalizing found with
  | nil =>
    cases h
    rfl
  | cons doc forms ih =>
    obtain ⟨result, back, hresult, hback, rfl⟩ := readDocs_cons_eq_ok_iff.1 h
    have hhead : docEvent? fs ref doc = result.toOption := by
      rw [docEvent?, hresult]
      cases result <;> rfl
    rw [List.filterMap_cons, hhead, ← ih hback]
    cases result <;> rfl

/-! ## Forms about no entity -/

/-- What a form that is about no entity comes to. -/
inductive FormFindings (fs : FileSystem) (form : Form) : Findings → Prop where
  | metadata {items : Items} (hname : form.name = Text.ofString "moduledoc")
      (hvalue : form.value = .map items) :
      FormFindings fs form (.ofEvent (.moduleMeta (metadataOf items) form.span))
  | text {payload : Payload} (hname : form.name = Text.ofString "moduledoc")
      (hpayload : payloadOf fs form = .ok (.ok payload)) :
      FormFindings fs form (.ofEvent (.moduleDoc payload form.span))
  | exports {exports : List (Text × Int)} (hname : form.name = Text.ofString "export")
      (hvalue : exportsOf? form.value = some exports) : FormFindings fs form ⟨[], exports, []⟩
  | invalid {d : Diagnostic} (herror : IsErrorAt form d) : FormFindings fs form (.ofDiagnostic d)
  | ignored : FormFindings fs form .empty

theorem formFindings_of_readForm (h : readForm fs form = .ok found) : FormFindings fs form found := by
  unfold readForm at h
  split at h
  · cases h
    exact .invalid ⟨rfl, rfl⟩
  split at h
  · rename_i hname
    split at h
    · rename_i hvalue
      cases h
      exact .exports hname hvalue
    · cases h
      exact .invalid (isErrorAt_attributeError form _)
  split at h
  · rename_i hname
    split at h
    · rename_i hvalue
      cases h
      exact .metadata hname hvalue
    · obtain ⟨result, hpayload, h⟩ := bind_eq_ok_iff.1 h
      split at h
      · cases h
        exact .text hname hpayload
      · cases h
        exact .invalid (isErrorAt_of_payloadOf hpayload)
  · cases h
    exact .ignored

/-! ## One form behind those that wait -/

def isDoc (form : Form) : Bool := form.name = Text.ofString "doc"

/-- The entity that a form declares, or what is wrong with the declaration. -/
def declared? (form : Form) : Option (Except Diagnostic EntityRef) :=
  (entityKind? form.name).map fun kind => entityOf kind form

/-- The `-doc` forms that wait behind a form, the last of them first. -/
def waitBehind (waiting : List Form) (form : Form) : List Form :=
  if isDoc form then form :: waiting else if (declared? form).isSome then [] else waiting

/-- The `-doc` forms that wait behind forms, the last of them first. -/
def stillWaiting (waiting forms : List Form) : List Form := forms.foldl waitBehind waiting

/-- What a form comes to behind `-doc` forms that wait. -/
def readOne (fs : FileSystem) (waiting : List Form) (form : Form) : Except FileError Findings :=
  if isDoc form then .ok .empty
  else
    match entityKind? form.name with
    | some kind => readDeclaration fs kind waiting.reverse form
    | none => readForm fs form

/-- Forms behind `-doc` forms that wait come to these findings, one form after the other. -/
inductive Reads (fs : FileSystem) : List Form → List Form → Findings → Prop where
  | nil (waiting : List Form) : Reads fs waiting [] .empty
  | cons {waiting forms : List Form} {form : Form} {first back : Findings}
      (hfirst : readOne fs waiting form = .ok first)
      (hback : Reads fs (waitBehind waiting form) forms back) :
      Reads fs waiting (form :: forms) (first.append back)

theorem declared?_of_isDoc (h : isDoc form = true) : declared? form = none := by
  rw [isDoc, decide_eq_true_iff] at h
  have hkind : entityKind? (Text.ofString "doc") = none := by decide
  rw [declared?, h, hkind]
  rfl

theorem entityKind?_of_declared? (h : declared? form = none) : entityKind? form.name = none :=
  Option.map_eq_none_iff.1 h

theorem waitBehind_of_isDoc (h : isDoc form = true) : waitBehind waiting form = form :: waiting :=
  if_pos h

theorem readOne_of_isDoc (h : isDoc form = true) : readOne fs waiting form = .ok .empty := if_pos h

theorem isDoc_of_declared? {result : Except Diagnostic EntityRef} (h : declared? form = some result) :
    isDoc form = false := by
  rw [← Bool.not_eq_true]
  intro hdoc
  rw [declared?_of_isDoc hdoc] at h
  cases h

theorem waitBehind_of_declared? {result : Except Diagnostic EntityRef}
    (h : declared? form = some result) : waitBehind waiting form = [] := by
  simp [waitBehind, isDoc_of_declared? h, h]

theorem readOne_of_refused (h : declared? form = some (.error d)) :
    readOne fs waiting form = .ok (.ofDiagnostic d) := by
  obtain ⟨kind, hkind, hentity⟩ := Option.map_eq_some_iff.1 h
  simp [readOne, isDoc_of_declared? h, hkind, readDeclaration, hentity]

/-- A valid declaration comes to the `-doc` forms that wait, and its own event behind them. -/
theorem readOne_of_declares (h : declared? form = some (.ok ref)) :
    readOne fs waiting form = .ok found ↔ ∃ docs, readDocs fs ref waiting.reverse = .ok docs ∧
      found = docs.append (.ofEvent (.declaration ref form.span)) := by
  obtain ⟨kind, hkind, hentity⟩ := Option.map_eq_some_iff.1 h
  simp only [readOne, isDoc_of_declared? h, hkind, readDeclaration, hentity, Bool.false_eq_true,
    if_false]
  rw [bind_pure_eq_ok_iff]
  simp only [eq_comm]

theorem readOne_of_declared?_eq_none (h : declared? form = none) :
    readOne fs waiting form = if isDoc form then .ok .empty else readForm fs form := by
  rw [readOne, entityKind?_of_declared? h]

/-- What a form comes to behind `-doc` forms that wait, as its declaration says. -/
inductive StepFindings (fs : FileSystem) (waiting : List Form) (form : Form) : Findings → Prop where
  | waits (hdoc : isDoc form = true) : StepFindings fs waiting form .empty
  | refused {d : Diagnostic} (hform : declared? form = some (.error d)) :
      StepFindings fs waiting form (.ofDiagnostic d)
  | declares {ref : EntityRef} {docs : Findings} (hform : declared? form = some (.ok ref))
      (hdocs : readDocs fs ref waiting.reverse = .ok docs) :
      StepFindings fs waiting form (docs.append (.ofEvent (.declaration ref form.span)))
  | other {found : Findings} (hform : declared? form = none) (hfound : FormFindings fs form found) :
      StepFindings fs waiting form found

theorem stepFindings_of_readOne (h : readOne fs waiting form = .ok found) :
    StepFindings fs waiting form found := by
  cases hform : declared? form with
  | none =>
    rw [readOne_of_declared?_eq_none hform] at h
    split at h
    · rename_i hdoc
      cases h
      exact .waits hdoc
    · exact .other hform (formFindings_of_readForm h)
  | some result =>
    cases result with
    | error d =>
      cases (readOne_of_refused hform).symm.trans h
      exact .refused hform
    | ok ref =>
      obtain ⟨docs, hdocs, rfl⟩ := (readOne_of_declares hform).1 h
      exact .declares hform hdocs

theorem stillWaiting_subset (waiting forms : List Form) :
    stillWaiting waiting forms ⊆ waiting ++ forms := by
  induction forms generalizing waiting with
  | nil => simp [stillWaiting]
  | cons form forms ih =>
    have hfirst : waitBehind waiting form ⊆ waiting ++ [form] := by
      unfold waitBehind
      split
      · simp
      split <;> simp
    rw [← List.singleton_append, ← List.append_assoc]
    refine List.Subset.trans (ih (waitBehind waiting form)) (List.append_subset.2 ⟨?_, ?_⟩)
    · exact List.subset_append_of_subset_left forms hfirst
    · exact List.subset_append_right _ forms

/-! ## Forms one after the other -/

theorem readAll_cons : readAll fs waiting (form :: forms) = (do
    let first ← readOne fs waiting form
    return first.append (← readAll fs (waitBehind waiting form) forms)) := by
  rw [readAll]
  by_cases hdoc : isDoc form = true
  · rw [if_pos (by simpa [isDoc] using hdoc), readOne_of_isDoc hdoc, waitBehind_of_isDoc hdoc]
    cases readAll fs (form :: waiting) forms <;> rfl
  rw [if_neg (by simpa [isDoc] using hdoc), readOne, waitBehind, if_neg hdoc, if_neg hdoc, declared?,
    Option.isSome_map]
  cases entityKind? form.name <;> rfl

/-- Reading all forms is reading one after the other, and what still waits then is reported. -/
theorem readAll_eq_ok_iff : readAll fs waiting forms = .ok found ↔
    ∃ read, Reads fs waiting forms read ∧
      found = read.append ⟨[], [], (stillWaiting waiting forms).reverse.map dangling⟩ := by
  induction forms generalizing waiting found with
  | nil =>
    constructor
    · intro h
      cases h
      exact ⟨_, .nil waiting, rfl⟩
    · rintro ⟨read, hread, rfl⟩
      cases hread
      rfl
  | cons form forms ih =>
    rw [readAll_cons]
    constructor
    · intro h
      obtain ⟨first, hfirst, h⟩ := bind_eq_ok_iff.1 h
      obtain ⟨all, hall, rfl⟩ := bind_pure_eq_ok_iff.1 h
      obtain ⟨back, hback, rfl⟩ := ih.1 hall
      exact ⟨_, .cons hfirst hback, (Findings.append_assoc _ _ _).symm⟩
    · rintro ⟨read, hread, rfl⟩
      cases hread with
      | cons hfirst hback =>
        rw [hfirst, Findings.append_assoc]
        exact bind_pure_eq_ok_iff.2 ⟨_, ih.2 ⟨_, hback, rfl⟩, rfl⟩

namespace Reads

theorem append {a b : Findings} (ha : Reads fs waiting front a)
    (hb : Reads fs (stillWaiting waiting front) behind b) :
    Reads fs waiting (front ++ behind) (a.append b) := by
  induction ha with
  | nil waiting => exact hb
  | cons hfirst _ ih =>
    rw [Findings.append_assoc]
    exact .cons hfirst (ih hb)

theorem exists_append (h : Reads fs waiting (front ++ behind) found) :
    ∃ a b, Reads fs waiting front a ∧ Reads fs (stillWaiting waiting front) behind b ∧
      found = a.append b := by
  induction front generalizing waiting found with
  | nil => exact ⟨.empty, found, .nil waiting, h, rfl⟩
  | cons form front ih =>
    cases h with
    | cons hfirst hback =>
      obtain ⟨a, b, ha, hb, rfl⟩ := ih hback
      exact ⟨_, b, .cons hfirst ha, hb, (Findings.append_assoc _ _ _).symm⟩

/-- Each event comes from one of the forms, with what waits in front of it. -/
theorem exists_form (h : Reads fs waiting forms found) (hevent : event ∈ found.events) :
    ∃ front form behind first, forms = front ++ form :: behind ∧
      readOne fs (stillWaiting waiting front) form = .ok first ∧ event ∈ first.events := by
  induction h with
  | nil waiting => cases hevent
  | @cons waiting forms form first back hfirst _ ih =>
    rcases List.mem_append.1 hevent with hevent | hevent
    · exact ⟨[], form, forms, first, rfl, hfirst, hevent⟩
    · obtain ⟨front, form', behind, first', rfl, hfirst', hevent'⟩ := ih hevent
      exact ⟨form :: front, form', behind, first', rfl, hfirst', hevent'⟩

end Reads

end ModuleDocs.Source
