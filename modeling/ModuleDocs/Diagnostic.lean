import ModuleDocs.Span
import ModuleDocs.Json.Basic

/-!
# Diagnostics

A diagnostic is what a stage of the compiler has to say about a place in the
source.  `Diagnostic.display` is its form for people, `Diagnostic.toJson` its
form for tools.
-/

namespace ModuleDocs

structure Diagnostic where
  message : Text
  code? : Option Text
  phase? : Option Text
  severity : Text
  span : Span
  notes : List Text
deriving DecidableEq, Repr

namespace Diagnostic

/-- An error without notes. -/
def error (phase code : String) (message : Text) (span : Span) : Diagnostic :=
  ⟨message, some code, some phase, "error", span, []⟩

/-- A warning without notes. -/
def warning (phase code : String) (message : Text) (span : Span) : Diagnostic :=
  ⟨message, some code, some phase, "warning", span, []⟩

def isError (d : Diagnostic) : Bool := d.severity = Text.ofString "error"

/-- The file of a diagnostic, or else the file that was being compiled. -/
def file? (d : Diagnostic) (source? : Option Text) : Option Text := d.span.file? <|> source?

/-- A line for people, and a line for each note. -/
def display (d : Diagnostic) (source? : Option Text) : Text :=
  let code : Text :=
    match d.code? with
    | some code => if code.isEmpty then [] else (" [" : Text) ++ code ++ ("]" : Text)
    | none => []
  (d.file? source?).getD "?" ++ (":" : Text) ++ Span.part d.span.line? ++ (":" : Text)
    ++ Span.part d.span.column? ++ (": " : Text) ++ d.severity ++ (":" : Text) ++ code
    ++ (" " : Text) ++ d.message
    ++ d.notes.flatMap fun note => ("\n  note: " : Text) ++ note

/-- A text, or null. -/
def textOrNull (t? : Option Text) : Json :=
  match t? with
  | some t => .string t
  | none => .null

/-- A number, or null. -/
def numberOrNull (n? : Option Int) : Json :=
  match n? with
  | some n => .int n
  | none => .null

/-- An object for tools.  `phase` stands in for a phase that is not given. -/
def toJson (d : Diagnostic) (phase : Text) (source? : Option Text) : Json :=
  .object [
    ("phase", .string (match d.phase? with
      | some own => if own.isEmpty then phase else own
      | none => phase)),
    ("code", textOrNull d.code?),
    ("message", .string d.message),
    ("severity", .string d.severity),
    ("file", textOrNull (d.file? source?)),
    ("line", numberOrNull d.span.line?),
    ("column", numberOrNull d.span.column?),
    ("notes", .array (d.notes.map .string))]

end Diagnostic

/-- Whether one of the diagnostics is an error. -/
def hasErrors (diagnostics : List Diagnostic) : Bool := diagnostics.any (·.isError)

end ModuleDocs
