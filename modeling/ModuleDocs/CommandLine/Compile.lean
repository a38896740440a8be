import ModuleDocs.CommandLine.Outcome

/-!
# The compiler's command line

`docc` compiles sources, or adds the documentation of one source to a container.
Options on the command line count more than those of the configuration file.  The
exit code is 0 when all units are compiled, 1 when one is not, and 2 when the
command line or the configuration cannot be followed.  A setting that was left blank
stops the command where its value is needed, and not before.
-/

namespace ModuleDocs.CommandLine

structure CompileArguments where
  sources : List Path
  /-- A path that was left blank is none. -/
  includePaths : List (Option Path)
  outDir : Setting Path
  noDocs : Bool
  docFormat : Setting Text
  config : Setting Path
  jobs : Setting Int
  appendTo : Setting Path
  json : Bool

namespace CompileArguments

/-- The arguments of an empty command line. -/
def none : CompileArguments := ⟨[], [], .absent, false, .absent, .absent, .absent, .absent, false⟩

/-- The number of jobs that a word asks for. -/
def readJobs (t : Text) : Except Text Int :=
  match Text.toInt? t with
  | some n => .ok n
  | .none => .error (("invalid int value: " : Text) ++ t.quoted)

def switches : List (Switch CompileArguments) := [
  helpSwitch,
  ⟨["-I", "--include-path"], .value fun t? a =>
    .ok { a with includePaths := a.includePaths ++ [t?.map Path.parse] }⟩,
  ⟨["-o", "--out-dir"], .value fun t? a =>
    .ok { a with outDir := .ofValue (t?.map Path.parse) }⟩,
  ⟨["--no-docs"], .flag fun a => { a with noDocs := true }⟩,
  ⟨["--doc-format"], .value fun t? a => .ok { a with docFormat := .ofValue t? }⟩,
  ⟨["--config"], .value fun t? a => .ok { a with config := .ofValue (t?.map Path.parse) }⟩,
  ⟨["-j", "--jobs"], .value fun t? a => do
    return { a with jobs := .ofValue (← t?.mapM readJobs) }⟩,
  ⟨["--append-to"], .value fun t? a =>
    .ok { a with appendTo := .ofValue (t?.map Path.parse) }⟩,
  ⟨["--json"], .flag fun a => { a with json := true }⟩]

def command : Command CompileArguments where
  name := "docc"
  switches := switches
  positionals := [⟨"source", .oneOrMore, fun ts a => .ok { a with sources := ts.map Path.parse }⟩]

/-- The arguments that a command line gives. -/
def ofLine (line : List Text) : Except Stop CompileArguments := do
  let (a, left) ← command.readKnown none line
  command.refuse left
  return a

/-- The options of a compilation.  A blank or empty format is that of the
configuration. -/
def options (a : CompileArguments) (config : Config) : CompileOptions where
  outDir? := a.outDir.value?
  includePaths := a.includePaths.filterMap id ++ config.includePaths
  emitDocs := config.emitDocs && ! a.noDocs
  docFormat := (a.docFormat.value?.filter (! ·.isEmpty)).getD config.docFormat
  schema := config.schema

/-- Whether a path to look for included files in was left blank. -/
def hasBlankInclude (a : CompileArguments) : Bool := a.includePaths.contains .none

end CompileArguments

/-! ## Reports -/

/-- A unit for tools. -/
def unitJson (r : UnitResult) : Json :=
  .object [
    ("source", .string r.source.toText),
    ("module", Diagnostic.textOrNull r.module?),
    ("artifact", Diagnostic.textOrNull (r.artifact?.map (·.toText))),
    ("ok", .bool r.isOk)]

/-- The report of a compilation for tools. -/
def reportJson (exitCode : Nat) (units diagnostics : List Json) : Json :=
  .object [("exit_code", .int exitCode), ("units", .array units),
    ("diagnostics", .array diagnostics)]

/-- The outcome of a compilation. -/
def outcomeOf (json : Bool) (results : List UnitResult) : Outcome :=
  let exitCode := if results.all (·.isOk) then 0 else 1
  if json then
    let diagnostics := results.flatMap fun r =>
      r.diagnostics.map fun d => d.toJson "parser" (some r.source.toText)
    .printed exitCode [(reportJson exitCode (results.map unitJson) diagnostics).write .plain]
  else
    .reported exitCode (results.flatMap fun r =>
      r.diagnostics.map fun d => d.display (some r.source.toText))

/-- The outcome of a configuration that cannot be used. -/
def outcomeOfConfigError (a : CompileArguments) (e : ConfigError) : Outcome :=
  let file? := a.config.value?.map (·.toText)
  let d : Diagnostic :=
    .error "config" "E-DOC-CONFIG" e.message { Span.unknown with file? }
  if a.json then .printed 2 [(reportJson 2 [] [d.toJson "config" none]).write .plain]
  else .reported 2 [{ d with code? := none }.display (some Config.fileName)]

/-! ## The command -/

/-- Whether a source asks for a file that cannot be looked for. -/
def lacksInclude (fs : FileSystem) (a : CompileArguments) (source : Path) : Bool :=
  a.hasBlankInclude && Source.includesFile fs source

/-- Compiles a source into a container. -/
def compileUnit (host : Host) (a : CompileArguments) (options : CompileOptions)
    (fs : FileSystem) (source : Path) : Except Failure UnitResult × FileSystem :=
  if lacksInclude fs a source then (.error (.blank .includePath), fs)
  else if a.outDir = .blank then
    match Compile.build options fs source with
    | .error e => (.error (.compile e), fs)
    | .ok (result, none) => (.ok result, fs)
    | .ok (_, some _) => (.error (.blank .outDir), fs)
  else
    let (result, fs) := Compile.unit host options fs source
    (result.mapError .compile, fs)

/-- Adds the documentation of a source to a container. -/
def appendUnit (host : Host) (a : CompileArguments) (options : CompileOptions)
    (fs : FileSystem) (source : Path) : Except Failure UnitResult × FileSystem :=
  if lacksInclude fs a source then (.error (.blank .includePath), fs)
  else
    match a.appendTo with
    | .value p =>
      let (result, fs) := Compile.append host options fs source p
      (result.mapError .compile, fs)
    | _ =>
      match Compile.buildDocs options fs source with
      | .error e => (.error (.compile e), fs)
      | .ok (result, none) => (.ok result, fs)
      | .ok (_, some _) => (.error (.blank .appendTo), fs)

/-- What results come to. -/
def report (a : CompileArguments) (r : Except Failure (List UnitResult) × FileSystem) : Result :=
  (r.1.map (outcomeOf a.json), r.2)

/-- Compiles what arguments ask for. -/
def compileWith (host : Host) (fs : FileSystem) (a : CompileArguments) (config : Config) :
    Result :=
  let options := a.options config
  if a.appendTo ≠ .absent then
    match a.sources with
    | [source] =>
      let (result, fs) := appendUnit host a options fs source
      report a (result.map fun r => [r], fs)
    | _ => (.ok (.ofStop (.misuse "docc" "--append-to takes exactly one source")), fs)
  else if a.jobs = .blank then (.error (.blank .jobs), fs)
  else
    report a (Compile.allOf (compileUnit host a options) (a.jobs.value?.getD config.jobs) fs
      a.sources)

/-- Runs `docc`. -/
def compile (host : Host) (fs : FileSystem) (line : List Text) : Result :=
  match CompileArguments.ofLine line with
  | .error stop => (.ok (.ofStop stop), fs)
  | .ok a =>
    if a.config = .blank then (.error (.blank .config), fs)
    else
      match Config.find fs a.config.value? fs.workingDirectory with
      | .error (.config e) => (.ok (outcomeOfConfigError a e), fs)
      | .error e => (.error (.config e), fs)
      | .ok config => compileWith host fs a config

end ModuleDocs.CommandLine
