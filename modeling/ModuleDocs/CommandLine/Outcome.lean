import ModuleDocs.CommandLine.Arguments
import ModuleDocs.Compile
import ModuleDocs.Entry.View

/-!
# What a command gives

A command gives an exit code and text on the two outputs, and it may change files.
What it cannot account for, such as a path that no file can have, is a `Failure`.
-/

namespace ModuleDocs.CommandLine

structure Outcome where
  exitCode : Nat
  output : Text
  errors : Text
deriving DecidableEq, Repr

/-- A setting that was left blank, where its value is needed. -/
inductive Blank where
  | config
  | includePath
  | outDir
  | jobs
  | appendTo
deriving DecidableEq, Repr

def Blank.message : Blank → Text
  | .config => "'list' object has no attribute 'exists'"
  | .includePath => "expected str, bytes or os.PathLike object, not list"
  | .outDir => "unsupported operand type(s) for /: 'list' and 'str'"
  | .jobs => "'<=' not supported between instances of 'list' and 'int'"
  | .appendTo => "'list' object has no attribute 'read_bytes'"

/-- What stops a command without an exit code of its own. -/
inductive Failure where
  | blank (setting : Blank)
  | config (error : Config.Failure)
  | compile (error : CompileFailure)
  | file (error : FileError)
  | view (error : ViewError)
deriving DecidableEq, Repr

def Failure.message : Failure → Text
  | .blank setting => setting.message
  | .config error => error.message
  | .compile error => error.message
  | .file error => error.message
  | .view error => error.message

/-- An outcome or a failure, and the file system after it. -/
abbrev Result := Except Failure Outcome × FileSystem

namespace Outcome

/-- Lines, each with a line feed behind it. -/
def lines (ts : List Text) : Text := ts.flatMap fun t => t ++ ("\n" : Text)

/-- An outcome with lines on the output. -/
def printed (exitCode : Nat) (ts : List Text) : Outcome := ⟨exitCode, lines ts, []⟩

/-- An outcome with lines on the error output. -/
def reported (exitCode : Nat) (ts : List Text) : Outcome := ⟨exitCode, [], lines ts⟩

/-- How a command is to be called. -/
def usage (command : Text) : Text :=
  ("usage: " : Text) ++ command ++ (" [-h] [options] arguments" : Text)

/-- The outcome of a command line that is not followed. -/
def ofStop : Stop → Outcome
  | .help command => printed 0 [usage command]
  | .misuse command message =>
    reported 2 [usage command, command ++ (": error: " : Text) ++ message]

end Outcome

end ModuleDocs.CommandLine
