import Mathlib
import ModuleDocs.Proofs.Lists
import ModuleDocs.Proofs.Source.Loading

/-!
# Reports of include cycles

Where every file reads and every include leads somewhere, the only thing that can be
wrong with an expansion is a cycle.  Each report comes from an include that leads back to a
file on the way to it (`exists_expandFile`), and where there is no report includes come to
an end on every way (`acc_of_expandFile`).
-/

namespace ModuleDocs.Source

open Result

variable {fs : FileSystem} {includePaths opened : List Path} {root p target : Path}
  {origin? : Option Span} {form : Form} {forms : List Form} {name : Text} {part e : Expansion}

/-! ## Expansions of forms -/

/-- What forms come to is what each of them comes to, in order. -/
theorem expandForms_eq_ok_iff : expandForms fs includePaths opened p forms = .ok e ↔
    ∃ parts, List.Forall₂ (fun form part => expandForm fs includePaths opened p form = .ok part)
      forms parts ∧
      e = ⟨parts.flatMap (·.forms), parts.flatMap (·.diagnostics), parts.flatMap (·.included)⟩ := by
  induction forms generalizing e with
  | nil =>
    rw [expandForms_nil, Except.ok.injEq]
    constructor
    · rintro rfl
      exact ⟨[], .nil, rfl⟩
    · rintro ⟨parts, hparts, rfl⟩
      cases hparts
      rfl
  | cons form rest ih =>
    rw [expandForms_cons]
    constructor
    · intro h
      obtain ⟨first, hfirst, h⟩ := bind_eq_ok_iff.1 h
      obtain ⟨others, hothers, rfl⟩ := bind_pure_eq_ok_iff.1 h
      obtain ⟨parts, hparts, rfl⟩ := ih.1 hothers
      exact ⟨first :: parts, .cons hfirst hparts, rfl⟩
    · rintro ⟨parts, hparts, rfl⟩
      cases hparts with
      | cons hfirst hrest =>
        exact bind_eq_ok_iff.2
          ⟨_, hfirst, bind_pure_eq_ok_iff.2 ⟨_, ih.2 ⟨_, hrest, rfl⟩, rfl⟩⟩

/-- The expansion of a file that reads is that of its forms. -/
theorem expandFile_of_readForms (hread : readForms fs p none = .ok (.ok forms)) :
    expandFile fs includePaths opened p origin? = expandForms fs includePaths opened p forms := by
  rw [expandFile_eq, (readForms_eq_ok_iff origin?).2 ((readForms_eq_ok_iff none).1 hread)]
  rfl

/-! ## From a report to a cycle -/

/-- A diagnostic that reports an include cycle. -/
def IsCycleReport (d : Diagnostic) : Prop :=
  d.code? = some (Text.ofString "E-DOC-INCLUDE") ∧
    ∃ chain : Text, d.message = ("include cycle: " : Text) ++ chain

theorem isCycleReport_cycle (form : Form) (opened : List Path) (target : Path) :
    IsCycleReport (cycle form opened target) :=
  ⟨rfl, _, rfl⟩

/-- The open paths are those of files on a way of includes from `root` to `p`. -/
def IsTrail (fs : FileSystem) (includePaths : List Path) (root : Path) (opened : List Path)
    (p : Path) : Prop :=
  ∀ o ∈ opened, ∃ q, Relation.ReflTransGen (Includes fs includePaths) root q ∧
    Relation.ReflTransGen (Includes fs includePaths) q p ∧
      (o = q ∨ o = q.resolve fs.workingDirectory)

theorem isTrail_root (fs : FileSystem) (includePaths : List Path) (p : Path) :
    IsTrail fs includePaths p [p.resolve fs.workingDirectory] p := by
  intro o ho
  exact ⟨p, .refl, .refl, Or.inr (List.mem_singleton.1 ho)⟩

/-- With the file that an include opens the way is longer by one. -/
theorem IsTrail.concat (h : IsTrail fs includePaths root opened p)
    (hp : Relation.ReflTransGen (Includes fs includePaths) root p)
    (htarget : Includes fs includePaths p target) :
    IsTrail fs includePaths root (opened ++ [target]) target := by
  intro o ho
  rcases List.mem_append.1 ho with ho | ho
  · obtain ⟨q, hroot, hq, hsame⟩ := h o ho
    exact ⟨q, hroot, hq.tail htarget, hsame⟩
  · exact ⟨target, hp.tail htarget, .refl, Or.inl (List.mem_singleton.1 ho)⟩

/-- An include that leads to an open file closes a cycle. -/
theorem leadsIntoCycle_of_mem (hfs : fs.IsRegular) (hroot : IsComplete fs includePaths root)
    (h : IsTrail fs includePaths root opened p) (htarget : Includes fs includePaths p target)
    (hopen : target ∈ opened) : LeadsIntoCycle fs includePaths root := by
  obtain ⟨q, hq, hback, hsame⟩ := h target hopen
  obtain ⟨forms, hforms, -⟩ := hroot q hq
  obtain ⟨targetForms, htargetForms, -⟩ := hroot target ((hq.trans hback).tail htarget)
  refine ⟨q, target, hq, .tail' hback htarget, ?_⟩
  rcases hsame with rfl | rfl
  · exact sameFile_of_readForms hforms
  · exact sameFile_resolve hfs (sameFile_of_readForms hforms) htargetForms

/-- A complete file has an expansion, in which all diagnostics report cycles. -/
theorem exists_expandFile (hfs : fs.IsRegular) (hroot : IsComplete fs includePaths root)
    (hp : Relation.ReflTransGen (Includes fs includePaths) root p)
    (hopened : IsTrail fs includePaths root opened p) (origin? : Option Span) :
    ∃ e, expandFile fs includePaths opened p origin? = .ok e ∧
      ∀ d ∈ e.diagnostics, IsCycleReport d ∧ LeadsIntoCycle fs includePaths root := by
  induction opened, p using open_induction fs generalizing origin? with
  | hstep opened p ih =>
    obtain ⟨forms, hread, hsound⟩ := hroot p hp
    have hpart : ∀ form ∈ forms, ∃ part, expandForm fs includePaths opened p form = .ok part ∧
        ∀ d ∈ part.diagnostics, IsCycleReport d ∧ LeadsIntoCycle fs includePaths root := by
      intro form hform
      by_cases hinclude : form.name = Text.ofString "include"
      · obtain ⟨name, target, hchars, htarget⟩ := hsound form hform hinclude
        have hname := includeName?_eq_some_iff.2 ⟨hinclude, hchars⟩
        have hincludes : Includes fs includePaths p target :=
          ⟨forms, form, name, hread, hform, hname, htarget⟩
        rw [expandForm_of_target hfs hname htarget]
        split
        · rename_i hopen
          refine ⟨_, rfl, fun d hd => ?_⟩
          rw [List.mem_singleton.1 hd]
          exact ⟨isCycleReport_cycle form opened target,
            leadsIntoCycle_of_mem hfs hroot hopened hincludes hopen⟩
        · rename_i hclosed
          obtain ⟨inner, hinner, hreports⟩ := ih target (by simpa using hclosed)
            (isSome_of_resolveInclude hfs htarget) (hp.tail hincludes)
            (hopened.concat hp hincludes) (some form.span)
          rw [hinner]
          exact ⟨_, rfl, hreports⟩
      · exact ⟨_, if_pos hinclude, fun d hd => by cases hd⟩
    obtain ⟨parts, hparts⟩ := Lists.exists_forall₂ hpart
    rw [expandFile_of_readForms hread]
    refine ⟨_, expandForms_eq_ok_iff.2 ⟨parts, hparts.imp fun _ _ h => h.1, rfl⟩, fun d hd => ?_⟩
    obtain ⟨part, hmem, hd⟩ := List.mem_flatMap.1 hd
    obtain ⟨form, -, -, hreports⟩ := Lists.exists_left hparts part hmem
    exact hreports d hd

/-! ## From a cycle to a report -/

/-- An expansion that reports nothing has followed every include to its end. -/
theorem acc_of_expandFile (hfs : fs.IsRegular)
    (h : expandFile fs includePaths opened p origin? = .ok e) (hnone : e.diagnostics = []) :
    Acc (fun target q => Includes fs includePaths q target) p := by
  induction opened, p using open_induction fs generalizing origin? e with
  | hstep opened p ih =>
    refine Acc.intro p fun target hincludes => ?_
    obtain ⟨forms, form, name, hread, hform, hname, htarget⟩ := hincludes
    rw [expandFile_of_readForms hread] at h
    obtain ⟨parts, hparts, rfl⟩ := expandForms_eq_ok_iff.1 h
    obtain ⟨part, hmem, hpart⟩ := Lists.exists_right hparts form hform
    have hnothing : part.diagnostics = [] := List.flatMap_eq_nil_iff.1 hnone part hmem
    rw [expandForm_of_target hfs hname htarget] at hpart
    split at hpart
    · cases hpart
      cases hnothing
    · rename_i hclosed
      obtain ⟨inner, hinner, rfl⟩ := map_eq_ok_iff.1 hpart
      exact ih target (by simpa using hclosed) (isSome_of_resolveInclude hfs htarget) hinner
        hnothing

/-- The expansion of a complete file reports a cycle just when there is one. -/
theorem exists_isCycleReport_iff (hfs : fs.IsRegular) (hp : IsComplete fs includePaths p) :
    ∃ e, load fs includePaths p = .ok e ∧
      ((∃ d ∈ e.diagnostics, IsCycleReport d) ↔ LeadsIntoCycle fs includePaths p) := by
  obtain ⟨e, hload, hreports⟩ :=
    exists_expandFile hfs hp .refl (isTrail_root fs includePaths p) none
  refine ⟨e, hload, fun ⟨d, hd, _⟩ => (hreports d hd).2, fun hcycle => ?_⟩
  cases hdiagnostics : e.diagnostics with
  | nil => exact (not_leadsIntoCycle_of_acc hfs hp
      (acc_of_expandFile hfs hload hdiagnostics) hcycle).elim
  | cons d rest =>
    exact ⟨d, List.mem_cons_self, (hreports d (hdiagnostics ▸ List.mem_cons_self)).1⟩

end ModuleDocs.Source
