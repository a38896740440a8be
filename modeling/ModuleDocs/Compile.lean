import ModuleDocs.Chunk.Encode
import ModuleDocs.Collector
import ModuleDocs.Config
import ModuleDocs.Container.Store
import ModuleDocs.Source.Interface
import ModuleDocs.Source.Unit

/-!
# Compiling units

A unit is read, collected, normalized and encoded, and then written as a container
with its interface and its documentation.  What goes wrong is a diagnostic of the
unit; units share nothing but the files, and one with errors does not keep others from
being compiled.

`Compile.build` gives the chunks of a source, `Compile.unit` makes its container,
`Compile.append` adds the documentation of a source to a container that is there, and
`Compile.batch` makes the containers of several sources.
-/

namespace ModuleDocs

structure CompileOptions where
  /-- The directory of the containers; without one they are beside their sources. -/
  outDir? : Option Path
  includePaths : List Path
  emitDocs : Bool
  docFormat : Text
  schema : Schema

/-- What compiling a source has come to. -/
structure UnitResult where
  source : Path
  module? : Option Text
  artifact? : Option Path
  table? : Option DocTable
  diagnostics : List Diagnostic
deriving DecidableEq, Repr

namespace UnitResult

/-- The result to which only the source is known. -/
def start (source : Path) : UnitResult := ⟨source, none, none, none, []⟩

def isOk (r : UnitResult) : Bool := ! hasErrors r.diagnostics

def addDiagnostics (r : UnitResult) (diagnostics : List Diagnostic) : UnitResult :=
  { r with diagnostics := r.diagnostics ++ diagnostics }

end UnitResult

/-- What stops a compilation and is no diagnostic: a path that cannot be, an integer of too
many digits, a schema that is none, or a number that does not fit its field. -/
inductive CompileFailure where
  | source (error : Source.Failure)
  | file (error : FileError)
  | unit (error : UnitError)
  | interface (error : Utf8.Unencodable)
  | chunk (error : ChunkError)
deriving DecidableEq, Repr

def CompileFailure.message : CompileFailure → Text
  | .source error => error.message
  | .file error => error.message
  | .unit error => error.message
  | .interface error => error.message
  | .chunk error => error.message

namespace Compile

/-- The ending of the name of a container. -/
def containerEnding : Text := ".dca"

/-- The path of the container of a module. -/
def containerPath (source : Path) (module : Text) (options : CompileOptions) : Path :=
  (options.outDir?.getD source.parent).join (Path.parse (module ++ containerEnding))

/-- An error of a stage about a whole source. -/
def stageError (phase code : String) (source : Path) (message : Text) : Diagnostic :=
  .error phase code message (.ofFile source.toText)

/-! ## Stages -/

/-- A unit and its table. -/
structure Checked where
  unit : Source.SourceUnit
  table : DocTable

/-- Reads, collects and normalizes a source. -/
def check (fs : FileSystem) (options : CompileOptions) (source : Path) :
    Except CompileFailure (UnitResult × Option Checked) := do
  let (unit?, diagnostics) ←
    (Source.SourceUnit.read fs options.includePaths source).mapError .source
  let result := (UnitResult.start source).addDiagnostics diagnostics
  match unit? with
  | none => return (result, none)
  | some unit =>
    if hasErrors diagnostics then return (result, none)
    else
      let result := { result with module? := some unit.module }
      let file := unit.path.toText
      match DocTable.ofEvents unit.module unit.events unit.exports options.schema (some file) with
      | .ok table => return ({ result with table? := some table }, some ⟨unit, table⟩)
      | .error (.doc e) =>
        let d := e.toDiagnostic
        return (result.addDiagnostics [{ d with span := d.span.inFile (some file) }], none)
      | .error e => .error (.unit e)

/-- The errors of a number that does not fit its field. -/
def isFieldOverflow : ChunkError → Bool
  | .lineOutOfRange _ => true
  | .term .lengthOutOfRange => true
  | .term .countOutOfRange => true
  | _ => false

/-- The bytes of a table, or what is wrong with it. -/
def encodeTable (options : CompileOptions) (source : Path) (table : DocTable) :
    Except CompileFailure (Except Diagnostic Bytes) :=
  match table.encode options.docFormat with
  | .ok data => .ok (.ok data)
  | .error e =>
    if isFieldOverflow e then .error (.chunk e)
    else
      .ok (.error (stageError "encode" "E-DOC-ENCODE" source
        (("cannot encode documentation chunk: " : Text) ++ e.message)))

/-- The documentation chunk of a table, if it is wanted. -/
def docsChunk (options : CompileOptions) (source : Path) (table : DocTable) :
    Except CompileFailure (Except Diagnostic Chunks) := do
  if options.emitDocs then
    return (← encodeTable options source table).map fun data => [(Chunk.containerName, data)]
  else return .ok []

/-- The result of a unit that was to be stored at `p`. -/
def stored (result : UnitResult) (p : Path) (verb : String) :
    Except StoreError Unit → Except CompileFailure UnitResult
  | .ok () => .ok { result with artifact? := some p }
  | .error e =>
    let reported : UnitResult := result.addDiagnostics
      [stageError "artifact" "E-DOC-ARTIFACT" result.source
        (Text.ofString verb ++ (" artifact " : Text) ++ p.toText ++ (": " : Text) ++ e.message)]
    match e with
    | .container _ => .ok reported
    | .file (.os ..) => .ok reported
    | .file e => .error (.file e)

/-! ## Units -/

/-- What a compilation gives, and the file system after it. -/
abbrev Outcome (α : Type) := Except CompileFailure α × FileSystem

/-- The chunks of a unit that has passed all checks. -/
def chunksOf (options : CompileOptions) (source : Path) (c : Checked) :
    Except CompileFailure (Except Diagnostic Chunks) := do
  let interface ← (Source.encodeInterface c.unit.module c.unit.exports).mapError .interface
  return (← docsChunk options source c.table).map ((Source.interfaceName, interface) :: ·)

/-- What a source has come to before anything is written, and, if all went well, its
module and the chunks of its container. -/
def build (options : CompileOptions) (fs : FileSystem) (source : Path) :
    Except CompileFailure (UnitResult × Option (Text × Chunks)) := do
  match ← check fs options source with
  | (result, none) => return (result, none)
  | (result, some checked) =>
    match ← chunksOf options source checked with
    | .error d => return (result.addDiagnostics [d], none)
    | .ok chunks => return (result, some (checked.unit.module, chunks))

/-- What a source has come to before anything is written, and its documentation, if all
went well and it is wanted. -/
def buildDocs (options : CompileOptions) (fs : FileSystem) (source : Path) :
    Except CompileFailure (UnitResult × Option (Text × Bytes)) := do
  match ← check fs options source with
  | (result, none) => return (result, none)
  | (result, some checked) =>
    match ← docsChunk options source checked.table with
    | .error d => return (result.addDiagnostics [d], none)
    | .ok chunks => return (result, chunks.head?)

/-- Compiles a source into a container. -/
def unit (host : Host) (options : CompileOptions) (fs : FileSystem) (source : Path) :
    Outcome UnitResult :=
  match build options fs source with
  | .error e => (.error e, fs)
  | .ok (result, none) => (.ok result, fs)
  | .ok (result, some (module, chunks)) =>
    let p := containerPath source module options
    let (written, fs) := Container.write host fs p chunks
    (stored result p "cannot write" written, fs)

/-- Compiles a source and adds its documentation to a container. -/
def append (host : Host) (options : CompileOptions) (fs : FileSystem) (source p : Path) :
    Outcome UnitResult :=
  match buildDocs options fs source with
  | .error e => (.error e, fs)
  | .ok (result, none) => (.ok result, fs)
  | .ok (result, some (name, data)) =>
    let (appended, fs) := Container.append host fs p name data
    (stored result p "cannot append to" (appended.map fun _ => ()), fs)

/-! ## Several units -/

section

variable {ε : Type} (compileOne : FileSystem → Path → Except ε UnitResult × FileSystem)

/-- Compiles sources one after the other up to the first that stops. -/
def inOrder (fs : FileSystem) : List Path → Except ε (List UnitResult) × FileSystem
  | [] => (.ok [], fs)
  | source :: rest =>
    match compileOne fs source with
    | (.error e, fs) => (.error e, fs)
    | (.ok result, fs) =>
      let (results, fs) := inOrder fs rest
      (results.map (result :: ·), fs)

/-- Compiles all sources, also behind one that stops. -/
def each (fs : FileSystem) : List Path → List (Except ε UnitResult) × FileSystem
  | [] => ([], fs)
  | source :: rest =>
    let (result, fs) := compileOne fs source
    let (results, fs) := each fs rest
    (result :: results, fs)

/-- Compiles sources.  With one job the first that stops is the last; with several jobs
a source that stops does not keep the others from being compiled.

Whole sources are compiled one after the other here.  Jobs that run side by side may take
turns between two steps of a source, so for several jobs this is one of the possible runs. -/
def allOf (jobs : Int) (fs : FileSystem) (sources : List Path) :
    Except ε (List UnitResult) × FileSystem :=
  if jobs ≤ 1 ∨ sources.length ≤ 1 then inOrder compileOne fs sources
  else
    let (results, fs) := each compileOne fs sources
    (results.mapM id, fs)

end

/-- Compiles sources into containers. -/
def batch (host : Host) (options : CompileOptions) (jobs : Int) (fs : FileSystem)
    (sources : List Path) : Outcome (List UnitResult) :=
  allOf (unit host options) jobs fs sources

end Compile

end ModuleDocs
