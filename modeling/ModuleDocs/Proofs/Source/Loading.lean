import Mathlib
import ModuleDocs.Proofs.Source.Inclusion

/-!
# Runs of the loader

`LoadsFile` says what the loader does with a file in rules that could go on without end:
an include is followed whenever its target is not open.  In a regular file system each
run ends, and with the result of `expandFile` (`loadsFile_iff`).  The induction is that
of `open_induction`, on the paths that are not open; what a rule opens is there.
-/

namespace ModuleDocs.Source

open Result

variable {fs : FileSystem} {includePaths opened : List Path} {p : Path} {origin? : Option Span}
  {form : Form} {forms : List Form} {name : Text} {result : Except Failure Expansion}

mutual

/-- A run on the file `p` ends with a result; `opened` are the paths of the files that are
open, its own the last of them. -/
inductive LoadsFile (fs : FileSystem) (includePaths : List Path) :
    List Path → Path → Option Span → Except Failure Expansion → Prop
  | fails {opened : List Path} {p : Path} {origin? : Option Span} {e : Failure}
    (hread : readForms fs p origin? = .error e) :
    LoadsFile fs includePaths opened p origin? (.error e)
  | refused {opened : List Path} {p : Path} {origin? : Option Span} {d : Diagnostic}
    (hread : readForms fs p origin? = .ok (.error d)) :
    LoadsFile fs includePaths opened p origin? (.ok (.ofDiagnostic d))
  | read {opened : List Path} {p : Path} {origin? : Option Span} {forms : List Form}
    {result : Except Failure Expansion}
    (hread : readForms fs p origin? = .ok (.ok forms))
    (hforms : LoadsForms fs includePaths opened p forms result) :
    LoadsFile fs includePaths opened p origin? result

/-- A run on forms of the file `p`, one after the other. -/
inductive LoadsForms (fs : FileSystem) (includePaths : List Path) :
    List Path → Path → List Form → Except Failure Expansion → Prop
  | nil {opened : List Path} {p : Path} : LoadsForms fs includePaths opened p [] (.ok .empty)
  | fails {opened : List Path} {p : Path} {form : Form} {rest : List Form} {e : Failure}
    (hfirst : LoadsForm fs includePaths opened p form (.error e)) :
    LoadsForms fs includePaths opened p (form :: rest) (.error e)
  | cons {opened : List Path} {p : Path} {form : Form} {rest : List Form} {first : Expansion}
    {result : Except Failure Expansion}
    (hfirst : LoadsForm fs includePaths opened p form (.ok first))
    (hrest : LoadsForms fs includePaths opened p rest result) :
    LoadsForms fs includePaths opened p (form :: rest) (result.map first.append)

/-- A run on one form of the file `p`. -/
inductive LoadsForm (fs : FileSystem) (includePaths : List Path) :
    List Path → Path → Form → Except Failure Expansion → Prop
  | keep {opened : List Path} {p : Path} {form : Form}
    (hname : form.name ≠ Text.ofString "include") :
    LoadsForm fs includePaths opened p form (.ok (.ofForm form))
  | noName {opened : List Path} {p : Path} {form : Form}
    (hname : form.name = Text.ofString "include") (hvalue : form.value.chars? = none) :
    LoadsForm fs includePaths opened p form (.ok (.ofDiagnostic
      (.error "parser" "E-DOC-INCLUDE" "-include expects a file name string" form.span)))
  | fails {opened : List Path} {p : Path} {form : Form} {name : Text} {e : FileError}
    (hname : includeName? form = some name)
    (htarget : resolveInclude fs includePaths p name = .error e) :
    LoadsForm fs includePaths opened p form (.error (.file e))
  | missing {opened : List Path} {p : Path} {form : Form} {name : Text}
    (hname : includeName? form = some name)
    (htarget : resolveInclude fs includePaths p name = .ok none) :
    LoadsForm fs includePaths opened p form (.ok (.ofDiagnostic
      (.error "parser" "E-DOC-INCLUDE" (("include file not found: " : Text) ++ name) form.span)))
  | cycle {opened : List Path} {p target : Path} {form : Form} {name : Text}
    (hname : includeName? form = some name)
    (htarget : resolveInclude fs includePaths p name = .ok (some target))
    (hopen : target ∈ opened) :
    LoadsForm fs includePaths opened p form (.ok (.ofDiagnostic (cycle form opened target)))
  | inside {opened : List Path} {p target : Path} {form : Form} {name : Text}
    {result : Except Failure Expansion}
    (hname : includeName? form = some name)
    (htarget : resolveInclude fs includePaths p name = .ok (some target))
    (hclosed : target ∉ opened)
    (hinside : LoadsFile fs includePaths (opened ++ [target]) target (some form.span) result) :
    LoadsForm fs includePaths opened p form (result.map (Expansion.append ⟨[], [], [target]⟩))

end

/-! ## One form -/

/-- What was found is there, so that only an open file is not opened. -/
theorem expandForm_of_target {target : Path} (hfs : fs.IsRegular)
    (hname : includeName? form = some name)
    (htarget : resolveInclude fs includePaths p name = .ok (some target)) :
    expandForm fs includePaths opened p form =
      if target ∈ opened then .ok (.ofDiagnostic (cycle form opened target))
      else (expandFile fs includePaths (opened ++ [target]) target (some form.span)).map
        (Expansion.append ⟨[], [], [target]⟩) := by
  rw [expandForm_of_found hname htarget]
  by_cases hopen : target ∈ opened
  · rw [if_pos hopen]
    exact if_neg fun hclosed => by simp [hopen] at hclosed
  · rw [if_neg hopen]
    exact if_pos ⟨by simpa using hopen, isSome_of_resolveInclude hfs htarget⟩

/-- A run on a form ends with its expansion, if runs on what it opens end with theirs. -/
theorem loadsForm_iff (hfs : fs.IsRegular)
    (hinside : ∀ target, opened.contains target = false →
      (fs.get? target.location).isSome = true → ∀ result,
      LoadsFile fs includePaths (opened ++ [target]) target (some form.span) result ↔
        expandFile fs includePaths (opened ++ [target]) target (some form.span) = result) :
    LoadsForm fs includePaths opened p form result ↔
      expandForm fs includePaths opened p form = result := by
  have hopens {name : Text} {target : Path} (hclosed : target ∉ opened)
      (htarget : resolveInclude fs includePaths p name = .ok (some target)) :=
    hinside target (by simpa using hclosed) (isSome_of_resolveInclude hfs htarget)
  constructor
  · intro h
    cases h with
    | keep hname => exact expandForm_of_ne hname
    | noName hname hvalue => exact expandForm_of_noName hname hvalue
    | fails hname htarget => exact expandForm_of_error hname htarget
    | missing hname htarget => exact expandForm_of_missing hname htarget
    | cycle hname htarget hopen => rw [expandForm_of_target hfs hname htarget, if_pos hopen]
    | inside hname htarget hclosed hrun =>
      rw [expandForm_of_target hfs hname htarget, if_neg hclosed,
        (hopens hclosed htarget _).1 hrun]
  · rintro rfl
    cases form.leads fs includePaths p with
    | keep hname =>
      rw [expandForm_of_ne hname]
      exact .keep hname
    | noName hname hvalue =>
      rw [expandForm_of_noName hname hvalue]
      exact .noName hname hvalue
    | fails hname htarget =>
      rw [expandForm_of_error hname htarget]
      exact .fails hname htarget
    | missing hname htarget =>
      rw [expandForm_of_missing hname htarget]
      exact .missing hname htarget
    | found hname htarget =>
      rw [expandForm_of_target hfs hname htarget]
      split
      · rename_i hopen
        exact .cycle hname htarget hopen
      · rename_i hclosed
        exact .inside hname htarget hclosed ((hopens hclosed htarget _).2 rfl)

/-! ## Forms and files -/

theorem loadsForms_iff
    (hform : ∀ form result, LoadsForm fs includePaths opened p form result ↔
      expandForm fs includePaths opened p form = result) :
    LoadsForms fs includePaths opened p forms result ↔
      expandForms fs includePaths opened p forms = result := by
  induction forms generalizing result with
  | nil =>
    rw [expandForms_nil]
    constructor
    · intro h
      cases h
      rfl
    · rintro rfl
      exact .nil
  | cons form rest ih =>
    rw [expandForms_cons]
    constructor
    · intro h
      cases h with
      | fails hfirst =>
        rw [(hform _ _).1 hfirst]
        rfl
      | cons hfirst hrest =>
        rw [(hform _ _).1 hfirst, ← ih.1 hrest]
        cases expandForms fs includePaths opened p rest <;> rfl
    · rintro rfl
      cases hfirst : expandForm fs includePaths opened p form with
      | error e => exact .fails ((hform _ _).2 hfirst)
      | ok first =>
        have hrun := LoadsForms.cons ((hform _ _).2 hfirst) (ih.2 rfl)
        cases hrest : expandForms fs includePaths opened p rest with
        | error e =>
          rw [hrest] at hrun
          exact hrun
        | ok others =>
          rw [hrest] at hrun
          exact hrun

/-- Every run on a file ends, and with the expansion of the file. -/
theorem loadsFile_iff (hfs : fs.IsRegular) :
    LoadsFile fs includePaths opened p origin? result ↔
      expandFile fs includePaths opened p origin? = result := by
  induction opened, p using open_induction fs generalizing origin? result with
  | hstep opened p ih =>
    have hforms {forms : List Form} {result : Except Failure Expansion} :
        LoadsForms fs includePaths opened p forms result ↔
          expandForms fs includePaths opened p forms = result :=
      loadsForms_iff fun form result =>
        loadsForm_iff hfs fun target hclosed hthere result => ih target hclosed hthere
    rw [expandFile_eq]
    constructor
    · intro h
      cases h with
      | fails hread =>
        rw [hread]
        rfl
      | refused hread =>
        rw [hread]
        rfl
      | read hread hrun =>
        rw [hread]
        exact hforms.1 hrun
    · rintro rfl
      cases hread : readForms fs p origin? with
      | error e => exact .fails hread
      | ok read =>
        cases read with
        | error d => exact .refused hread
        | ok forms => exact .read hread (hforms.2 rfl)

end ModuleDocs.Source
