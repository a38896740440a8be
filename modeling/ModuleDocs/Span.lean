import ModuleDocs.Text.Basic

/-!
# Places in source files

A span is a file, a line and a column, each of which may be unknown.
-/

namespace ModuleDocs

structure Span where
  file? : Option Text
  line? : Option Int
  column? : Option Int
  endLine? : Option Int
  endColumn? : Option Int
deriving DecidableEq, Repr

namespace Span

/-- The span of which nothing is known. -/
def unknown : Span := ⟨none, none, none, none, none⟩

/-- A whole file. -/
def ofFile (file : Text) : Span := { unknown with file? := some file }

/-- A place in a file. -/
def at_ (file? : Option Text) (line column : Nat) : Span :=
  { unknown with file?, line? := some line, column? := some column }

/-- The same place, in the file given if its own is unknown. -/
def inFile (s : Span) (file? : Option Text) : Span := { s with file? := s.file? <|> file? }

/-- A part of a span, or a question mark. -/
def part (n? : Option Int) : Text :=
  match n? with
  | some n => Text.ofInt n
  | none => "?"

/-- File, line and column between colons. -/
def display (s : Span) : Text :=
  s.file?.getD "?" ++ (":" : Text) ++ part s.line? ++ (":" : Text) ++ part s.column?

end Span

end ModuleDocs
