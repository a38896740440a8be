import Mathlib
import ModuleDocs.Proofs.Source.Cycles

/-!
# Unfolded files

`Unfolds` says what it means to write the forms of an included file in place of each
include.  It gives one result at most (`Unfolds.unique`), and `load` reports nothing just
when there is one (`load_eq_ok_iff`): then these are its forms.
-/

namespace ModuleDocs.Source

open Result

variable {fs : FileSystem} {includePaths opened : List Path} {p target : Path}
  {origin? : Option Span} {form : Form} {forms unfolded : List Form} {included : List Path}
  {name : Text} {e : Expansion}

/-- Forms of the file `p`, these forms with those of each included file in place of its
include, and the included files in the order in which they are come to. -/
inductive Unfolds (fs : FileSystem) (includePaths : List Path) :
    Path → List Form → List Form → List Path → Prop
  | nil {p : Path} : Unfolds fs includePaths p [] [] []
  | keep {p : Path} {form : Form} {rest unfolded : List Form} {included : List Path}
    (hname : form.name ≠ Text.ofString "include") (hfile : form.file? = some p.toText)
    (hrest : Unfolds fs includePaths p rest unfolded included) :
    Unfolds fs includePaths p (form :: rest) (form :: unfolded) included
  | splice {p target : Path} {form : Form} {name : Text}
    {rest targetForms inside unfolded : List Form} {insideIncluded included : List Path}
    (hname : includeName? form = some name)
    (htarget : resolveInclude fs includePaths p name = .ok (some target))
    (hread : readForms fs target none = .ok (.ok targetForms))
    (hinside : Unfolds fs includePaths target targetForms inside insideIncluded)
    (hrest : Unfolds fs includePaths p rest unfolded included) :
    Unfolds fs includePaths p (form :: rest) (inside ++ unfolded)
      (target :: insideIncluded ++ included)

/-- The forms and includes of a file unfolded to the end. -/
def IsUnfolding (fs : FileSystem) (includePaths : List Path) (p : Path) (unfolded : List Form)
    (included : List Path) : Prop :=
  ∃ forms, readForms fs p none = .ok (.ok forms) ∧
    Unfolds fs includePaths p forms unfolded included

/-! ## One result -/

theorem Unfolds.unique {unfolded' : List Form} {included' : List Path}
    (h : Unfolds fs includePaths p forms unfolded included)
    (h' : Unfolds fs includePaths p forms unfolded' included') :
    unfolded = unfolded' ∧ included = included' := by
  induction h generalizing unfolded' included' with
  | nil =>
    cases h'
    exact ⟨rfl, rfl⟩
  | keep hname _ _ ih =>
    cases h' with
    | keep _ _ hrest =>
      obtain ⟨rfl, rfl⟩ := ih hrest
      exact ⟨rfl, rfl⟩
    | splice hinclude => exact (hname (includeName?_eq_some_iff.1 hinclude).1).elim
  | splice hname htarget hread _ _ ihInside ihRest =>
    cases h' with
    | keep hother => exact (hother (includeName?_eq_some_iff.1 hname).1).elim
    | splice hname' htarget' hread' hinside hrest =>
      obtain rfl := Option.some.inj (hname.symm.trans hname')
      cases htarget.symm.trans htarget'
      cases hread.symm.trans hread'
      obtain ⟨rfl, rfl⟩ := ihInside hinside
      obtain ⟨rfl, rfl⟩ := ihRest hrest
      exact ⟨rfl, rfl⟩

theorem IsUnfolding.unique {unfolded' : List Form} {included' : List Path}
    (h : IsUnfolding fs includePaths p unfolded included)
    (h' : IsUnfolding fs includePaths p unfolded' included') :
    unfolded = unfolded' ∧ included = included' := by
  obtain ⟨forms, hread, hunfolds⟩ := h
  obtain ⟨forms', hread', hunfolds'⟩ := h'
  cases hread.symm.trans hread'
  exact hunfolds.unique hunfolds'

/-! ## From an expansion to the unfolded file -/

/-- A form with which nothing is wrong is kept, or stands for a file that was not open. -/
theorem expandForm_cases (hfs : fs.IsRegular)
    (h : expandForm fs includePaths opened p form = .ok e) (hnone : e.diagnostics = []) :
    form.name ≠ Text.ofString "include" ∧ e = .ofForm form ∨
      ∃ name target inner, includeName? form = some name ∧
        resolveInclude fs includePaths p name = .ok (some target) ∧ target ∉ opened ∧
        expandFile fs includePaths (opened ++ [target]) target (some form.span) = .ok inner ∧
        e = Expansion.append ⟨[], [], [target]⟩ inner := by
  cases form.leads fs includePaths p with
  | keep hname =>
    cases (expandForm_of_ne hname).symm.trans h
    exact Or.inl ⟨hname, rfl⟩
  | noName hname hvalue =>
    cases (expandForm_of_noName hname hvalue).symm.trans h
    cases hnone
  | fails hname htarget => cases (expandForm_of_error hname htarget).symm.trans h
  | missing hname htarget =>
    cases (expandForm_of_missing hname htarget).symm.trans h
    cases hnone
  | @found name target hname htarget =>
    rw [expandForm_of_target hfs hname htarget] at h
    split at h
    · cases h
      cases hnone
    · rename_i hclosed
      obtain ⟨inner, hinner, rfl⟩ := map_eq_ok_iff.1 h
      exact Or.inr ⟨name, target, inner, hname, htarget, hclosed, hinner, rfl⟩

/-- Without diagnostics the expansion of forms unfolds them, if that of each file does. -/
theorem unfolds_of_expandForms (hfs : fs.IsRegular)
    (hinside : ∀ target, opened.contains target = false →
      (fs.get? target.location).isSome = true → ∀ origin? inner,
      expandFile fs includePaths (opened ++ [target]) target origin? = .ok inner →
      inner.diagnostics = [] → IsUnfolding fs includePaths target inner.forms inner.included)
    (hfile : ∀ form ∈ forms, form.file? = some p.toText)
    (h : expandForms fs includePaths opened p forms = .ok e) (hnone : e.diagnostics = []) :
    Unfolds fs includePaths p forms e.forms e.included := by
  induction forms generalizing e with
  | nil =>
    rw [expandForms_nil] at h
    cases h
    exact .nil
  | cons form rest ih =>
    rw [expandForms_cons] at h
    obtain ⟨first, hfirst, h⟩ := bind_eq_ok_iff.1 h
    obtain ⟨others, hothers, rfl⟩ := bind_pure_eq_ok_iff.1 h
    obtain ⟨hfirstNone, hothersNone⟩ := List.append_eq_nil_iff.1 hnone
    obtain ⟨hformFile, hrestFile⟩ := List.forall_mem_cons.1 hfile
    have hrest := ih hrestFile hothers hothersNone
    rcases expandForm_cases hfs hfirst hfirstNone with ⟨hname, rfl⟩ |
      ⟨name, target, inner, hname, htarget, hclosed, hinner, rfl⟩
    · exact .keep hname hformFile hrest
    · obtain ⟨targetForms, hread, hunfolds⟩ := hinside target (by simpa using hclosed)
        (isSome_of_resolveInclude hfs htarget) _ inner hinner hfirstNone
      exact .splice hname htarget hread hunfolds hrest

/-- Without diagnostics the expansion of a file unfolds it. -/
theorem isUnfolding_of_expandFile (hfs : fs.IsRegular)
    (h : expandFile fs includePaths opened p origin? = .ok e) (hnone : e.diagnostics = []) :
    IsUnfolding fs includePaths p e.forms e.included := by
  induction opened, p using open_induction fs generalizing origin? e with
  | hstep opened p ih =>
    rw [expandFile_eq] at h
    obtain ⟨result, hread, h⟩ := bind_eq_ok_iff.1 h
    cases result with
    | error d =>
      cases h
      cases hnone
    | ok forms =>
      have hforms := (readForms_eq_ok_iff none).2 ((readForms_eq_ok_iff origin?).1 hread)
      refine ⟨forms, hforms, unfolds_of_expandForms hfs ?_ ?_ h hnone⟩
      · intro target hclosed hthere _ inner hinner hinnerNone
        exact ih target hclosed hthere hinner hinnerNone
      · intro form hform
        exact file?_of_readForms hforms hform

/-! ## From the unfolded file to an expansion -/

/-- The file and all it includes read, and includes come to an end on every way. -/
structure IsFinite (fs : FileSystem) (includePaths : List Path) (p : Path) : Prop where
  complete : IsComplete fs includePaths p
  acc : Acc (fun target q => Includes fs includePaths q target) p

/-- A file is finite if its includes lead to such files. -/
theorem isFinite_of_forms (hread : readForms fs p none = .ok (.ok forms))
    (h : ∀ form ∈ forms, form.name = Text.ofString "include" →
      ∃ name target, form.value.chars? = some name ∧
        resolveInclude fs includePaths p name = .ok (some target) ∧
          IsFinite fs includePaths target) : IsFinite fs includePaths p := by
  have htargets : ∀ target, Includes fs includePaths p target →
      IsFinite fs includePaths target := by
    rintro target ⟨forms', form, name, hread', hform, hname, htarget⟩
    cases hread.symm.trans hread'
    obtain ⟨hinclude, hchars⟩ := includeName?_eq_some_iff.1 hname
    obtain ⟨name', target', hchars', htarget', hfinite⟩ := h form hform hinclude
    obtain rfl := Option.some.inj (hchars.symm.trans hchars')
    cases htarget.symm.trans htarget'
    exact hfinite
  refine ⟨fun q hq => ?_, Acc.intro p fun target htarget => (htargets target htarget).acc⟩
  rcases Relation.ReflTransGen.cases_head hq with rfl | ⟨target, htarget, hrest⟩
  · refine ⟨forms, hread, fun form hform hinclude => ?_⟩
    obtain ⟨name, target, hchars, htarget, -⟩ := h form hform hinclude
    exact ⟨name, target, hchars, htarget⟩
  · exact (htargets target htarget).complete q hrest

theorem forall_forms_of_unfolds (h : Unfolds fs includePaths p forms unfolded included) :
    ∀ form ∈ forms, form.name = Text.ofString "include" →
      ∃ name target, form.value.chars? = some name ∧
        resolveInclude fs includePaths p name = .ok (some target) ∧
          IsFinite fs includePaths target := by
  induction h with
  | nil => simp
  | keep hname _ _ ih =>
    exact List.forall_mem_cons.2 ⟨fun hinclude => (hname hinclude).elim, ih⟩
  | splice hname htarget hread _ _ ihInside ihRest =>
    refine List.forall_mem_cons.2 ⟨fun _ => ?_, ihRest⟩
    exact ⟨_, _, (includeName?_eq_some_iff.1 hname).2, htarget, isFinite_of_forms hread ihInside⟩

/-- A file has an expansion without diagnostics just when it can be unfolded, and these
are then its forms and includes. -/
theorem load_eq_ok_iff (hfs : fs.IsRegular) :
    load fs includePaths p = .ok ⟨unfolded, [], included⟩ ↔
      IsUnfolding fs includePaths p unfolded included := by
  constructor
  · intro h
    exact isUnfolding_of_expandFile hfs h rfl
  · intro h
    obtain ⟨forms, hread, hunfolds⟩ := id h
    obtain ⟨hcomplete, hacc⟩ := isFinite_of_forms hread (forall_forms_of_unfolds hunfolds)
    obtain ⟨e, hload, hreports⟩ :=
      exists_expandFile hfs hcomplete .refl (isTrail_root fs includePaths p) none
    have hnone : e.diagnostics = [] := by
      rw [List.eq_nil_iff_forall_not_mem]
      intro d hd
      exact not_leadsIntoCycle_of_acc hfs hcomplete hacc (hreports d hd).2
    obtain ⟨hforms, hincluded⟩ := h.unique (isUnfolding_of_expandFile hfs hload hnone)
    rw [load, hload, hforms, hincluded, ← hnone]

end ModuleDocs.Source
