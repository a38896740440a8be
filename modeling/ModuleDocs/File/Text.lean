import ModuleDocs.File.System

/-!
# Text files

A text file is UTF-8.  Its lines may end with a line feed, a carriage return or
both; whoever reads it gets line feeds only.  A byte order mark is kept.
-/

namespace ModuleDocs

/-- A text with every line end written as a line feed. -/
def Text.unifyLineEnds : Text → Text
  | [] => []
  | c :: rest =>
    if c = '\r' then
      match rest with
      | d :: after =>
        if d = '\n' then CodePoint.ofChar '\n' :: unifyLineEnds after
        else CodePoint.ofChar '\n' :: unifyLineEnds (d :: after)
      | [] => [CodePoint.ofChar '\n']
    else c :: unifyLineEnds rest

/-- Why a file gives no text. -/
inductive TextFileError where
  | file (error : FileError)
  | notUtf8 (error : Utf8.Malformed)
deriving DecidableEq, Repr

def TextFileError.message : TextFileError → Text
  | .file error => error.message
  | .notUtf8 error => error.message

/-- The text of the file that a path names. -/
def FileSystem.readText (fs : FileSystem) (p : Path) : Except TextFileError Text := do
  let data ← (fs.read p).mapError .file
  let t ← (Utf8.decode data).mapError .notUtf8
  return t.unifyLineEnds

end ModuleDocs
