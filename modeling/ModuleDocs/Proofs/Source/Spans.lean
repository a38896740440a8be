import Mathlib
import ModuleDocs.Proofs.Source.Attachment
import ModuleDocs.Proofs.Source.Inclusion
import ModuleDocs.Proofs.Source.Places

/-!
# What the places of events and diagnostics are

Whatever is said about a source is said about one of its forms, or about one of a file that it
reaches through includes (`IsFormOf`), and in its place.  So are the diagnostics of the loader
(`comesFrom_of_load`), or they are where a file cannot be read on, and so are those of a unit
(`isAccounted_of_read`).

Declarations are events of forms that declare what they are about (`exists_declares`), and there is
one for whatever else is said about an entity (`exists_declaration`).
-/

namespace ModuleDocs.Source

open Result

variable {fs : FileSystem} {includePaths opened : List Path} {p path : Path} {origin? : Option Span}
  {form : Form} {forms waiting : List Form} {expansion : Expansion} {found : Findings}
  {ref : EntityRef} {event : Event} {d : Diagnostic}

/-- The form is one of the source, or of a file that it reaches through includes. -/
def IsFormOf (fs : FileSystem) (includePaths : List Path) (source : Path) (form : Form) : Prop :=
  ∃ p t forms, Relation.ReflTransGen (Includes fs includePaths) source p ∧ fs.readText p = .ok t ∧
    Form.ofText t (some p.toText) = .ok forms ∧ form ∈ forms

/-- The place of a form of the source, or the place where one of its files cannot be read on, or
the whole source. -/
inductive IsAccounted (fs : FileSystem) (includePaths : List Path) (source : Path) : Span → Prop
  | form {form : Form} (h : IsFormOf fs includePaths source form) :
      IsAccounted fs includePaths source form.span
  | fault {p : Path} {t : Text} {e : SourceError}
      (hreach : Relation.ReflTransGen (Includes fs includePaths) source p)
      (hread : fs.readText p = .ok t) (herror : Form.ofText t (some p.toText) = .error e) :
      IsAccounted fs includePaths source (.at_ (some p.toText) e.position.line e.position.column)
  | whole : IsAccounted fs includePaths source (.ofFile source.toText)

/-! ## Files -/

/-- A file that cannot be read is reported where it is included, or as a whole; one that cannot be
read on, where that is. -/
theorem isAccounted_of_readForms
    (hreach : Relation.ReflTransGen (Includes fs includePaths) path p)
    (horigin : IsAccounted fs includePaths path (origin?.getD (.ofFile p.toText)))
    (h : readForms fs p origin? = .ok (.error d)) : IsAccounted fs includePaths path d.span := by
  unfold readForms at h
  split at h
  · cases h
    exact horigin
  · cases h
  · cases h
    exact horigin
  rename_i t ht
  split at h
  · cases h
  · cases h
  · rename_i e _ he
    cases h
    exact .fault hreach ht he

/-! ## Expansion -/

/-- The forms are those of the source, and what is wrong is reported in its places. -/
structure Expansion.ComesFrom (fs : FileSystem) (includePaths : List Path) (source : Path)
    (expansion : Expansion) : Prop where
  forms : ∀ form ∈ expansion.forms, IsFormOf fs includePaths source form
  diagnostics : ∀ d ∈ expansion.diagnostics, IsAccounted fs includePaths source d.span

namespace Expansion

theorem comesFrom_ofDiagnostic (h : IsAccounted fs includePaths path d.span) :
    (ofDiagnostic d).ComesFrom fs includePaths path where
  forms := List.forall_mem_nil _
  diagnostics := List.forall_mem_singleton.2 h

theorem ComesFrom.append {front back : Expansion} (hfront : front.ComesFrom fs includePaths path)
    (hback : back.ComesFrom fs includePaths path) :
    (front.append back).ComesFrom fs includePaths path where
  forms := List.forall_mem_append.2 ⟨hfront.forms, hback.forms⟩
  diagnostics := List.forall_mem_append.2 ⟨hfront.diagnostics, hback.diagnostics⟩

end Expansion

/-- A form stands for itself, or is reported in its place, or stands for the file that it
includes. -/
theorem comesFrom_of_expandForm (hform : IsFormOf fs includePaths path form)
    (hinside : ∀ name target inner, includeName? form = some name →
      resolveInclude fs includePaths p name = .ok (some target) →
      opened.contains target = false → (fs.get? target.location).isSome = true →
      expandFile fs includePaths (opened ++ [target]) target (some form.span) = .ok inner →
      inner.ComesFrom fs includePaths path)
    (h : expandForm fs includePaths opened p form = .ok expansion) :
    expansion.ComesFrom fs includePaths path := by
  cases form.leads fs includePaths p with
  | keep hname =>
    cases (expandForm_of_ne hname).symm.trans h
    exact ⟨List.forall_mem_singleton.2 hform, List.forall_mem_nil _⟩
  | noName hname hvalue =>
    cases (expandForm_of_noName hname hvalue).symm.trans h
    exact Expansion.comesFrom_ofDiagnostic (.form hform)
  | fails hname htarget => cases (expandForm_of_error hname htarget).symm.trans h
  | missing hname htarget =>
    cases (expandForm_of_missing hname htarget).symm.trans h
    exact Expansion.comesFrom_ofDiagnostic (.form hform)
  | @found name target hname htarget =>
    rw [expandForm_of_found hname htarget] at h
    split at h
    · rename_i hopen
      obtain ⟨inner, hinner, rfl⟩ := map_eq_ok_iff.1 h
      have hall := hinside name target inner hname htarget hopen.1 hopen.2 hinner
      exact ⟨hall.forms, hall.diagnostics⟩
    · cases h
      exact Expansion.comesFrom_ofDiagnostic (.form hform)

theorem comesFrom_of_expandForms (hforms : ∀ form ∈ forms, IsFormOf fs includePaths path form)
    (hinside : ∀ form ∈ forms, ∀ name target inner, includeName? form = some name →
      resolveInclude fs includePaths p name = .ok (some target) →
      opened.contains target = false → (fs.get? target.location).isSome = true →
      expandFile fs includePaths (opened ++ [target]) target (some form.span) = .ok inner →
      inner.ComesFrom fs includePaths path)
    (h : expandForms fs includePaths opened p forms = .ok expansion) :
    expansion.ComesFrom fs includePaths path := by
  induction forms generalizing expansion with
  | nil =>
    rw [expandForms_nil] at h
    cases h
    exact ⟨List.forall_mem_nil _, List.forall_mem_nil _⟩
  | cons form rest ih =>
    obtain ⟨hform, hrest⟩ := List.forall_mem_cons.1 hforms
    obtain ⟨hinsideFirst, hinsideRest⟩ := List.forall_mem_cons.1 hinside
    rw [expandForms_cons] at h
    obtain ⟨front, hfront, h⟩ := bind_eq_ok_iff.1 h
    obtain ⟨back, hback, rfl⟩ := bind_pure_eq_ok_iff.1 h
    exact (comesFrom_of_expandForm hform hinsideFirst hfront).append (ih hrest hinsideRest hback)

/-- What a file of the source expands to comes from the source. -/
theorem comesFrom_of_expandFile
    (hreach : Relation.ReflTransGen (Includes fs includePaths) path p)
    (horigin : IsAccounted fs includePaths path (origin?.getD (.ofFile p.toText)))
    (h : expandFile fs includePaths opened p origin? = .ok expansion) :
    expansion.ComesFrom fs includePaths path := by
  induction opened, p using open_induction fs generalizing origin? expansion with
  | hstep opened p ih =>
    rw [expandFile_eq] at h
    obtain ⟨result, hresult, h⟩ := bind_eq_ok_iff.1 h
    cases result with
    | error d =>
      cases h
      exact Expansion.comesFrom_ofDiagnostic (isAccounted_of_readForms hreach horigin hresult)
    | ok forms =>
      obtain ⟨t, htext, hwritten⟩ := (readForms_eq_ok_iff origin?).1 hresult
      have hforms : ∀ form ∈ forms, IsFormOf fs includePaths path form :=
        fun form hform => ⟨p, t, forms, hreach, htext, hwritten, hform⟩
      refine comesFrom_of_expandForms hforms ?_ h
      intro form hform name target inner hname hresolve hclosed hexists hinner
      have hincludes : Includes fs includePaths p target :=
        ⟨forms, form, name, (readForms_eq_ok_iff none).2 ⟨t, htext, hwritten⟩, hform, hname, hresolve⟩
      have hplace : IsAccounted fs includePaths path
          ((some form.span).getD (.ofFile target.toText)) := .form (hforms form hform)
      exact ih target hclosed hexists (hreach.tail hincludes) hplace hinner

theorem comesFrom_of_load (h : load fs includePaths path = .ok expansion) :
    expansion.ComesFrom fs includePaths path :=
  comesFrom_of_expandFile .refl .whole h

/-! ## Units -/

/-- The diagnostic is in the place of one of the forms. -/
def AllAt (forms : List Form) (diagnostics : List Diagnostic) : Prop :=
  ∀ d ∈ diagnostics, ∃ form ∈ forms, d.span = form.span

theorem AllAt.mono {more : List Form} {diagnostics : List Diagnostic} (h : AllAt forms diagnostics)
    (hsubset : forms ⊆ more) : AllAt more diagnostics := fun d hd => by
  obtain ⟨form, hform, hspan⟩ := h d hd
  exact ⟨form, hsubset hform, hspan⟩

theorem AllAt.append {more less : List Diagnostic} (h : AllAt forms less) (h' : AllAt forms more) :
    AllAt forms (less ++ more) := List.forall_mem_append.2 ⟨h, h'⟩

theorem allAt_nil (forms : List Form) : AllAt forms [] := List.forall_mem_nil _

theorem allAt_of_isErrorAt (h : IsErrorAt form d) (hform : form ∈ forms) : AllAt forms [d] :=
  List.forall_mem_singleton.2 ⟨form, hform, h.span⟩

theorem allAt_of_readDocs (h : readDocs fs ref forms = .ok found) :
    AllAt forms found.diagnostics := by
  induction forms generalizing found with
  | nil =>
    cases h
    exact allAt_nil []
  | cons doc forms ih =>
    obtain ⟨result, back, hresult, hback, rfl⟩ := readDocs_cons_eq_ok_iff.1 h
    refine AllAt.append ?_ ((ih hback).mono (List.subset_cons_self doc forms))
    cases result with
    | ok event => exact allAt_nil _
    | error d =>
      exact allAt_of_isErrorAt (isErrorAt_of_payloadOf (payloadOf_of_docEvent hresult).2)
        List.mem_cons_self

theorem allAt_of_readOne (h : readOne fs waiting form = .ok found) :
    AllAt (waiting ++ [form]) found.diagnostics := by
  have hform : form ∈ waiting ++ [form] := List.mem_append_right _ (List.mem_singleton_self form)
  cases stepFindings_of_readOne h with
  | waits _ => exact allAt_nil _
  | refused hdeclared =>
    obtain ⟨kind, _, hentity⟩ := Option.map_eq_some_iff.1 hdeclared
    exact allAt_of_isErrorAt (isErrorAt_of_entityOf hentity) hform
  | declares _ hdocs =>
    refine AllAt.append ((allAt_of_readDocs hdocs).mono fun f hf => ?_) (allAt_nil _)
    exact List.mem_append_left _ (List.mem_reverse.1 hf)
  | other _ hfound =>
    cases hfound with
    | invalid herror => exact allAt_of_isErrorAt herror hform
    | _ => exact allAt_nil _

theorem Reads.allAt (h : Reads fs waiting forms found) :
    AllAt (waiting ++ forms) found.diagnostics := by
  induction h with
  | nil waiting => exact allAt_nil _
  | @cons waiting forms form first back hfirst _ ih =>
    refine AllAt.append ((allAt_of_readOne hfirst).mono ?_) (ih.mono ?_)
    · exact List.append_subset.2 ⟨List.subset_append_left _ _, by simp⟩
    · have hsubset := stillWaiting_subset waiting [form]
      refine List.append_subset.2 ⟨fun f hf => ?_, ?_⟩
      · have hmem := List.mem_append.1 (hsubset hf)
        simp only [List.mem_append, List.mem_cons, List.not_mem_nil, or_false] at hmem ⊢
        tauto
      · exact List.subset_append_of_subset_right _ (List.subset_cons_self _ _)

theorem allAt_of_readAll (h : readAll fs waiting forms = .ok found) :
    AllAt (waiting ++ forms) found.diagnostics := by
  obtain ⟨read, hread, rfl⟩ := readAll_eq_ok_iff.1 h
  refine AllAt.append hread.allAt fun d hd => ?_
  obtain ⟨form, hform, rfl⟩ := List.mem_map.1 hd
  exact ⟨form, stillWaiting_subset waiting forms (List.mem_reverse.1 hform), rfl⟩

/-- What is wrong with a unit is reported in the place of one of its forms.  A source without forms
has none. -/
theorem allAt_of_ofForms {includes : List Path} {unit? : Option SourceUnit}
    {diagnostics : List Diagnostic}
    (h : SourceUnit.ofForms fs path includes forms = .ok (unit?, diagnostics)) :
    AllAt forms diagnostics ∨ ∀ d ∈ diagnostics, d.span = .ofFile path.toText := by
  cases ofForms_eq_ok_iff.1 h with
  | empty => exact .inr (List.forall_mem_singleton.2 rfl)
  | @unnamed first _ _ hmodule =>
    obtain ⟨message, rfl⟩ := exists_error_of_moduleName hmodule
    exact .inl (List.forall_mem_singleton.2 ⟨first, List.mem_cons_self, rfl⟩)
  | @named first rest _ _ _ hfound =>
    exact .inl ((allAt_of_readAll hfound).mono (List.subset_cons_self first rest))

/-- What is wrong with a source is reported in its places. -/
theorem isAccounted_of_read {unit? : Option SourceUnit} {diagnostics : List Diagnostic}
    (h : SourceUnit.read fs includePaths path = .ok (unit?, diagnostics)) :
    ∀ d ∈ diagnostics, IsAccounted fs includePaths path d.span := by
  cases readsUnit_of_read h with
  | broken hload _ => exact (comesFrom_of_load hload).diagnostics
  | made hload _ hunit =>
    have hfrom := comesFrom_of_load hload
    refine List.forall_mem_append.2 ⟨hfrom.diagnostics, fun d hd => ?_⟩
    rcases allAt_of_ofForms (ofForms_eq_ok_iff.2 hunit) with hall | hwhole
    · obtain ⟨form, hform, hspan⟩ := hall d hd
      rw [hspan]
      exact .form (hfrom.forms form hform)
    · rw [hwhole d hd]
      exact .whole

/-! ## Declarations -/

/-- The form declares the entity, or it names the module. -/
def Declares (form : Form) (ref : EntityRef) : Prop :=
  declared? form = some (.ok ref) ∨ ∃ module, moduleName form = .ok module ∧ ref = .ofModule module

section Declarations

variable {includes : List Path} {unit : SourceUnit} {diagnostics : List Diagnostic} {span : Span}

theorem mem_declarations_iff (h : Reads fs waiting forms found) :
    .declaration ref span ∈ found.events ↔
      ∃ form ∈ forms, declared? form = some (.ok ref) ∧ span = form.span := by
  have hfilter : .declaration ref span ∈ found.events ↔
      .declaration ref span ∈ found.events.filter isDeclaration := by
    rw [List.mem_filter]
    exact (and_iff_left rfl).symm
  rw [hfilter, h.declarations, List.mem_filterMap]
  refine exists_congr fun form => and_congr_right fun _ => ?_
  unfold declarationOf?
  split
  · rename_i ref' hdeclared
    simp [hdeclared, eq_comm]
  · rename_i hother
    exact iff_of_false nofun fun hdeclared => hother ref hdeclared.1

/-- Declarations are events of forms that declare what they are about. -/
theorem exists_declares (h : SourceUnit.ofForms fs path includes forms = .ok (some unit, diagnostics))
    (hevent : .declaration ref span ∈ unit.events) :
    ∃ form ∈ forms, Declares form ref ∧ span = form.span := by
  obtain ⟨first, rest, found, rfl, hmodule, hfound, _, hevents, _, _⟩ := ofForms_eq_ok h
  obtain ⟨read, hread, rfl⟩ := readAll_eq_ok_iff.1 hfound
  rw [hevents, List.mem_cons, Findings.append, List.append_nil, mem_declarations_iff hread] at hevent
  rcases hevent with hfirst | ⟨form, hform, hdeclared, hspan⟩
  · cases hfirst
    exact ⟨first, List.mem_cons_self, .inr ⟨_, hmodule, rfl⟩, rfl⟩
  · exact ⟨form, List.mem_cons_of_mem _ hform, .inl hdeclared, hspan⟩

/-- Whatever is said about an entity, there is a declaration of it. -/
theorem exists_declaration
    (h : SourceUnit.ofForms fs path includes forms = .ok (some unit, diagnostics))
    (hevent : event ∈ unit.events) :
    ∃ span, .declaration (event.about (.ofModule unit.module)) span ∈ unit.events := by
  obtain ⟨first, rest, found, rfl, _, hfound, _, hevents, _, _⟩ := ofForms_eq_ok h
  obtain ⟨read, hread, rfl⟩ := readAll_eq_ok_iff.1 hfound
  rw [hevents, List.mem_cons, Findings.append, List.append_nil] at hevent
  have hmodule : .declaration (.ofModule unit.module) first.span ∈ unit.events := by
    rw [hevents]
    exact List.mem_cons_self
  have hothers : ∀ ref span, .declaration ref span ∈ read.events →
      .declaration ref span ∈ unit.events := by
    intro ref span hmem
    rw [hevents, Findings.append, List.append_nil]
    exact List.mem_cons_of_mem _ hmem
  rcases hevent with rfl | hevent
  · exact ⟨_, hmodule⟩
  rcases hread.origin hevent with habout | ⟨form, hform, hdeclaration⟩ | hattached
  · rcases habout with ⟨payload, span, rfl⟩ | ⟨metadata, span, rfl⟩
    · exact ⟨_, hmodule⟩
    · exact ⟨_, hmodule⟩
  · unfold declarationOf? at hdeclaration
    split at hdeclaration
    · cases hdeclaration
      exact ⟨_, hothers _ _ hevent⟩
    · cases hdeclaration
  · obtain ⟨front, doc, mid, next, after, ref, rfl, _, _, hnext, hdoc⟩ := hattached
    have hdeclared : .declaration ref next.span ∈ read.events :=
      (mem_declarations_iff hread).2 ⟨next, by simp, hnext, rfl⟩
    cases hdoc with
    | metadata _ => exact ⟨_, hothers _ _ hdeclared⟩
    | text _ => exact ⟨_, hothers _ _ hdeclared⟩

end Declarations

end ModuleDocs.Source
