import ModuleDocs.Diagnostic
import ModuleDocs.File.Spelling
import ModuleDocs.File.Text
import ModuleDocs.Source.Form

/-!
# Included files

A form `-include("file")` stands for the forms of that file.  The file is looked for
beside the including file and then in the include paths.  A file that is being read
already is not read again inside itself under the same path, so that expansion ends:
with each included file there are fewer paths left that are not open.

`Source.load` gives the forms of a file with all includes expanded.
-/

namespace ModuleDocs.Source

/-- What stops reading and is no diagnostic: a path that cannot be, or an integer of too
many digits. -/
inductive Failure where
  | file (error : FileError)
  | integer (error : Decimal.TooLong)
deriving DecidableEq, Repr

def Failure.message : Failure → Text
  | .file error => error.message
  | .integer error => error.message

/-- The place of a form. -/
def Form.span (f : Form) : Span := Span.at_ f.file? f.at_.line f.at_.column

/-- Forms with includes expanded, what went wrong on the way, and the files that were
included, in the order of reading. -/
structure Expansion where
  forms : List Form
  diagnostics : List Diagnostic
  included : List Path
deriving Repr

namespace Expansion

def empty : Expansion := ⟨[], [], []⟩

def ofForm (f : Form) : Expansion := ⟨[f], [], []⟩

def ofDiagnostic (d : Diagnostic) : Expansion := ⟨[], [d], []⟩

/-- One expansion behind another. -/
def append (a b : Expansion) : Expansion :=
  ⟨a.forms ++ b.forms, a.diagnostics ++ b.diagnostics, a.included ++ b.included⟩

end Expansion

/-- What `cannot read` is about: the file itself, or the form that includes it. -/
def unreadable (p : Path) (reason : Text) (origin? : Option Span) : Diagnostic :=
  .error "parser" (if origin?.isSome then "E-DOC-INCLUDE" else "E-DOC-READ")
    (("cannot read " : Text) ++ p.toText ++ (": " : Text) ++ reason)
    (origin?.getD (.ofFile p.toText))

/-- The forms of one file as they are written, or what is wrong with it. -/
def readForms (fs : FileSystem) (p : Path) (origin? : Option Span) :
    Except Failure (Except Diagnostic (List Form)) :=
  match fs.readText p with
  | .error (.file e@(.os ..)) => .ok (.error (unreadable p e.message origin?))
  | .error (.file e) => .error (.file e)
  | .error (.notUtf8 e) => .ok (.error (unreadable p e.message origin?))
  | .ok t =>
    match Form.ofText t (some p.toText) with
    | .ok forms => .ok (.ok forms)
    | .error (.badValue (.tooLong e _)) => .error (.integer e)
    | .error e =>
      let message : Text :=
        match e with
        | .badSyntax e => ("syntax error: " : Text) ++ e.message
        | .badValue e => e.message
      let span := Span.at_ (some p.toText) e.position.line e.position.column
      .ok (.error (.error "parser" "E-DOC-SYNTAX" message span))

/-- The first of several paths that names a file. -/
def firstFile (fs : FileSystem) : List Path → Except FileError (Option Path)
  | [] => .ok none
  | p :: rest => do if ← fs.isFile p then return some p else firstFile fs rest

/-- The file that an include form in the file `current` names, by its path from the root. -/
def resolveInclude (fs : FileSystem) (includePaths : List Path) (current : Path) (name : Text) :
    Except FileError (Option Path) := do
  let target := Path.parse name
  let found? ← firstFile fs ((current.parent.join target) :: includePaths.map (·.join target))
  return found?.map (·.resolve fs.workingDirectory)

/-- The name of the file that a form includes. -/
def includeName? (f : Form) : Option Text :=
  if f.name = Text.ofString "include" then f.value.chars? else none

/-- Whether a file that can be read includes another one, there or not. -/
def includesFile (fs : FileSystem) (p : Path) : Bool :=
  match readForms fs p none with
  | .ok (.ok forms) => forms.any fun f => (includeName? f).isSome
  | _ => false

/-! ## Expansion -/

/-- The paths that are not open. -/
def closedPaths (fs : FileSystem) (opened : List Path) : List Path :=
  fs.paths.filter fun p => ! opened.contains p

/-- Opening a path that is not open leaves fewer of them. -/
theorem length_closedPaths_lt (fs : FileSystem) (opened : List Path) (p : Path)
    (exists_ : (fs.get? p.location).isSome = true) (closed : opened.contains p = false) :
    (closedPaths fs (opened ++ [p])).length < (closedPaths fs opened).length := by
  have split : closedPaths fs (opened ++ [p]) = (closedPaths fs opened).filter fun q => q ≠ p := by
    simp only [closedPaths, List.filter_filter]
    congr 1
    funext q
    by_cases h : q = p <;> simp [h]
  rw [split]
  have member : p ∈ closedPaths fs opened := by
    simp only [closedPaths, List.mem_filter]
    exact ⟨FileSystem.mem_paths exists_, by rw [closed]; rfl⟩
  rw [← List.countP_eq_length_filter]
  refine Nat.lt_of_le_of_ne List.countP_le_length fun same => ?_
  have := List.countP_eq_length.1 same p member
  simp at this

/-- The diagnostic of an include that leads back to an open file. -/
def cycle (form : Form) (opened : List Path) (target : Path) : Diagnostic :=
  let chain := Text.join " -> " ((opened ++ [target]).map (·.toText))
  .error "parser" "E-DOC-INCLUDE" (("include cycle: " : Text) ++ chain) form.span

mutual

/-- The expansion of a file; `opened` are the paths from the root of the files that are
open, its own the last of them. -/
def expandFile (fs : FileSystem) (includePaths : List Path) (opened : List Path) (p : Path)
    (origin? : Option Span) : Except Failure Expansion := do
  match ← readForms fs p origin? with
  | .error d => return .ofDiagnostic d
  | .ok forms => expandForms fs includePaths opened p forms
termination_by ((closedPaths fs opened).length, 1, 0)

/-- The expansion of forms of the file `p`. -/
def expandForms (fs : FileSystem) (includePaths : List Path) (opened : List Path) (p : Path)
    (forms : List Form) : Except Failure Expansion :=
  match forms with
  | [] => .ok .empty
  | form :: rest => do
    let first ←
      if form.name ≠ Text.ofString "include" then pure (Expansion.ofForm form)
      else
        match form.value.chars? with
        | none =>
          pure (.ofDiagnostic (.error "parser" "E-DOC-INCLUDE"
            "-include expects a file name string" form.span))
        | some name => do
          match ← (resolveInclude fs includePaths p name).mapError .file with
          | none =>
            pure (.ofDiagnostic (.error "parser" "E-DOC-INCLUDE"
              (("include file not found: " : Text) ++ name) form.span))
          | some target =>
            if _closed : opened.contains target = false
                ∧ (fs.get? target.location).isSome = true then
              let inner ← expandFile fs includePaths (opened ++ [target]) target (some form.span)
              pure (Expansion.append ⟨[], [], [target]⟩ inner)
            else pure (.ofDiagnostic (cycle form opened target))
    return first.append (← expandForms fs includePaths opened p rest)
termination_by ((closedPaths fs opened).length, 0, forms.length)
decreasing_by
  · apply Prod.Lex.right
    apply Prod.Lex.right
    simp
  · exact Prod.Lex.left _ _ (length_closedPaths_lt fs opened target _closed.2 _closed.1)

end

/-- The expansion of a first file. -/
def load (fs : FileSystem) (includePaths : List Path) (p : Path) : Except Failure Expansion :=
  expandFile fs includePaths [p.resolve fs.workingDirectory] p none

end ModuleDocs.Source
