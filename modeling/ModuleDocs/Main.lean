import ModuleDocs.CommandLine.Compile
import ModuleDocs.CommandLine.Query
import ModuleDocs.Container.Sha256

/-!
# The program

`docq ...` as arguments asks about a container, and all others compile sources.

A command works on a file system that holds what is below the working directory and
below the directories of the paths on the command line.  What it has changed there
is then written to the disk.
-/

namespace ModuleDocs.Program

/-- The text of a string as the system gives it. -/
def textOf (s : String) : Text := Text.ofString s

/-- The string that names a location on the disk.  The names of the disk and of the
command line are strings, so that each of them is well-formed. -/
def diskPath (location : Location) : String :=
  "/" ++ "/".intercalate (location.map fun name =>
    (String.fromUTF8? ⟨name.toArray⟩).getD "")

/-- The location that the absolute path of a string names. -/
def locationOf (s : String) : Location :=
  (Path.parse (textOf s)).names.map FileName.encode

/-- The nodes at a location and below it.  Links to directories are not followed. -/
partial def nodesAt (location : Location) : IO (List (Location × Node)) := do
  let here := (← IO.currentDir) / diskPath location
  let info ← here.symlinkMetadata
  match info.type with
  | .dir =>
    let mut nodes := [(location, Node.directory)]
    for entry in ← here.readDir do
      nodes := nodes ++ (← nodesAt (location ++ [FileName.encode (textOf entry.fileName)]))
    return nodes
  | _ =>
    if ← here.isDir then return []
    else return [(location, .file (← IO.FS.readBinFile here).toList)]

/-- The directory of a path that is there. -/
def directoryOf (s : String) : IO (Option Location) := do
  if s.isEmpty then return none
  else
    let here := (← IO.currentDir) / s
    if ← here.pathExists then
      let whole := locationOf (← IO.FS.realPath here).toString
      return some (if ← here.isDir then whole else whole.dropLast)
    else return none

/-- The words of a command line, and what may be a path inside them. -/
def pathsIn (word : String) : List String :=
  [word, (word.drop 2).toString, ((word.splitOn "=").drop 1 |> "=".intercalate)]

/-- The file system that a command works on. -/
def fileSystem (words : List String) : IO FileSystem := do
  let home := locationOf (← IO.currentDir).toString
  let mut roots := [home]
  for s in words.flatMap pathsIn do
    if let some root ← directoryOf s then
      unless roots.any fun r => r.isPrefixOf root do
        roots := root :: roots
  let mut fs := FileSystem.empty ⟨.single, home.map FileName.decode⟩
  for root in roots do
    for n in List.range root.length do
      fs := fs.put (root.take (n + 1)) .directory
    for (location, node) in ← nodesAt root do
      fs := fs.put location node
  return fs

/-- Writes to the disk what has changed. -/
def store (before after : FileSystem) : IO Unit := do
  for (location, node) in after.nodes do
    unless before.get? location = some node do
      match node with
      | .directory => IO.FS.createDirAll (diskPath location)
      | .file data => IO.FS.writeBinFile (diskPath location) ⟨data.toArray⟩

/-- Writes a text to an output. -/
def put (output : IO.FS.Stream) (t : Text) : IO Unit := do
  output.write ⟨(Utf8.encodeAll t).toArray⟩
  output.flush

/-- Runs a command and gives its exit code. -/
def run (words : List String) : IO UInt32 := do
  let host : Host := ⟨sha256, Text.ofNat (← IO.monoNanosNow)⟩
  let fs ← fileSystem words
  let (result, after) : CommandLine.Result :=
    match words with
    | "docq" :: line => (CommandLine.query host fs (line.map textOf), fs)
    | "docc" :: line => CommandLine.compile host fs (line.map textOf)
    | line => CommandLine.compile host fs (line.map textOf)
  store fs after
  match result with
  | .ok outcome =>
    put (← IO.getStdout) outcome.output
    put (← IO.getStderr) outcome.errors
    return outcome.exitCode.toUInt32
  | .error e =>
    put (← IO.getStderr) (e.message ++ textOf "\n")
    return 1

end ModuleDocs.Program

def main (words : List String) : IO UInt32 := ModuleDocs.Program.run words
