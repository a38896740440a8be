import ModuleDocs.File.Text
import ModuleDocs.Json.Reader
import ModuleDocs.Normalize

/-!
# Configuration

A project may have a file `docchunk.json` with a JSON object.  It names its format
and version; all other fields are optional.  Unknown fields are refused, so that a
misspelt name does not go unnoticed; data of other tools goes under `x`.

`Config.ofJson` reads a JSON value, `Config.load` a file, and `Config.find` looks for
the file.
-/

namespace ModuleDocs

structure Config where
  docFormat : Text
  emitDocs : Bool
  includePaths : List Path
  schema : Schema
  jobs : Int
  path? : Option Path
deriving DecidableEq, Repr

/-- Why there is no configuration. -/
inductive ConfigError where
  | notAnObject
  | unsupportedVersion
  | unknownFields (names : List Text)
  | badField (name expected : Text)
  | badShape (error : Schema.BadShape)
  | unreadable (path : Path) (error : FileError)
  | badJson (path : Path) (cause : Json.Cause) (line : Nat)
  | missing (path : Path)
deriving DecidableEq, Repr

def ConfigError.message : ConfigError → Text
  | .notAnObject => "config must be a JSON object"
  | .unsupportedVersion => "unsupported config format/version (upgrade docchunk?)"
  | .unknownFields names =>
    ("config has unknown top-level fields: " : Text) ++ Text.join ", " names
  | .badField name expected =>
    ("config " : Text) ++ (if name = Text.ofString "x" then Text.ofString "top-level " else []) ++ ("'" : Text)
      ++ name ++ ("' must " : Text) ++ expected
  | .badShape error => ("config " : Text) ++ error.message
  | .unreadable path error =>
    ("cannot read config " : Text) ++ path.toText ++ (": " : Text) ++ error.message
  | .badJson path cause line =>
    ("config " : Text) ++ path.toText ++ (" is not valid JSON: " : Text) ++ cause.message
      ++ (" (line " : Text) ++ Text.ofNat line ++ (")" : Text)
  | .missing path => ("config not found: " : Text) ++ path.toText

namespace Config

/-- The name of the file in the working directory. -/
def fileName : Text := "docchunk.json"

/-- The format of texts of modules that name none. -/
def defaultDocFormat : Text := "text/markdown"

/-- The configuration without a file. -/
def default : Config := ⟨defaultDocFormat, true, [], Schema.default, 1, none⟩

/-! ## Fields -/

/-- The fields of a configuration file. -/
def fields : List Text :=
  ["format", "version", "doc_format", "emit_docs", "include_paths", "metadata_schema", "jobs",
    "x"]

/-- The numbers that are zero, and the truth value that is as good as zero. -/
def isZero : Json → Bool
  | .bool b => ! b
  | .int i => i = 0
  | .float bits => Binary64.toInt? bits = some 0
  | _ => false

def string? : Json → Option Text
  | .string t => some t
  | _ => none

/-- The strings of an array of strings. -/
def strings? : Json → Option (List Text)
  | .array items => items.mapM string?
  | _ => none

/-- The members of an object of strings. -/
def stringMembers? : Json → Option (List (Text × Text))
  | .object members => members.mapM fun (name, value) => (string? value).map fun t => (name, t)
  | _ => none

/-- The value of a field, or what stands for it where it is missing. -/
def field {α : Type} (members : List (Text × Json)) (name : String) (expected : String)
    (missing : α) (value? : Json → Option α) : Except ConfigError α :=
  match Json.member? name members with
  | none => .ok missing
  | some j =>
    match value? j with
    | some value => .ok value
    | none => .error (.badField name expected)

/-- The configuration that a JSON value in the directory `base` gives. -/
def ofJson (data : Json) (base : Path) (path? : Option Path) : Except ConfigError Config := do
  let members ← match data with
    | .object members => pure members
    | _ => .error .notAnObject
  if (Json.member? "format" members).bind string? ≠ some (Text.ofString "docchunk-config")
      ∨ ¬ (Json.member? "version" members).any isZero then
    .error .unsupportedVersion
  let unknown := (members.map (·.1)).filter fun name => ! fields.contains name
  if ! unknown.isEmpty then .error (.unknownFields (unknown.mergeSort Text.le))
  field members "x" "be an object" () fun
    | .object _ => some ()
    | _ => none
  let docFormat ← field members "doc_format" "be a non-empty string" defaultDocFormat fun j =>
    (string? j).filter (! ·.isEmpty)
  let emitDocs ← field members "emit_docs" "be a boolean" true fun
    | .bool b => some b
    | _ => none
  let includes ← field members "include_paths" "be a list of strings" [] strings?
  let shapes ← field members "metadata_schema" "map keys to shape names" [] stringMembers?
  let schema ← (Schema.extend Schema.default shapes).mapError .badShape
  let jobs ← field members "jobs" "be a positive integer" 1 fun
    | .int i => if 1 ≤ i then some i else none
    | _ => none
  return ⟨docFormat, emitDocs, includes.map fun t => base.join (Path.parse t), schema, jobs, path?⟩

/-! ## Files -/

/-- Why a configuration file cannot be used: for a reason of its own, or because of a
path, bytes or a number that nothing can be said about. -/
inductive Failure where
  | config (error : ConfigError)
  | file (error : TextFileError)
  | integer (error : Decimal.TooLong)
deriving DecidableEq, Repr

def Failure.message : Failure → Text
  | .config error => error.message
  | .file error => error.message
  | .integer error => error.message

/-- Why a file holds no JSON. -/
def failureOfJson (p : Path) (source : Text) (e : Json.ReadError) : Failure :=
  match e.cause with
  | .integer error => .integer error
  | cause => .config (.badJson p cause (Json.lineAt source e.position))

/-- The configuration in a file. -/
def load (fs : FileSystem) (p : Path) : Except Failure Config :=
  match fs.readText p with
  | .error (.file e@(.os ..)) => .error (.config (.unreadable p e))
  | .error e => .error (.file e)
  | .ok source =>
    match Json.read source with
    | .error e => .error (failureOfJson p source e)
    | .ok data => (ofJson data p.parent (some p)).mapError .config

/-- The configuration in the file given, which must exist, or else in the file in a
directory, or else the default one. -/
def find (fs : FileSystem) (explicit? : Option Path) (directory : Path) :
    Except Failure Config := do
  match explicit? with
  | some p =>
    if ← (fs.exists_ p).mapError fun e => .file (.file e) then load fs p
    else .error (.config (.missing p))
  | none =>
    let p := directory.join (Path.parse fileName)
    if ← (fs.exists_ p).mapError fun e => .file (.file e) then load fs p else return default

end Config

end ModuleDocs
