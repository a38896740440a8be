import ModuleDocs.Chunk.Load
import ModuleDocs.Chunk.Query
import ModuleDocs.CommandLine.Outcome
import ModuleDocs.Entity.Argument

/-!
# The query command line

`docq` shows an entry of a container's documentation, lists the entries, or tells
what the container holds.  The exit code is 0 on success, 1 when there is no such
entry, and 2 when there is no documentation that can be read.
-/

namespace ModuleDocs.CommandLine

inductive QueryKind where
  | show
  | list
  | info
deriving DecidableEq, Repr

namespace QueryKind

def name : QueryKind → Text
  | .show => "show"
  | .list => "list"
  | .info => "info"

def all : List QueryKind := [.show, .list, .info]

end QueryKind

structure QueryArguments where
  artifact : Path
  entity? : Option Text
  kind? : Option EntityKind
  includeHidden : Bool
  json : Bool

/-- A query, and words that it does not take. -/
structure Query where
  kind : QueryKind
  arguments : QueryArguments
  left : List Text

namespace QueryArguments

/-- The arguments of an empty command line. -/
def none : QueryArguments := ⟨Path.parse [], .none, .none, false, false⟩

def jsonSwitch : Switch QueryArguments :=
  ⟨["--json"], .flag fun a => { a with json := true }⟩

def kindSwitch : Switch QueryArguments :=
  ⟨["--kind"], .value fun t? a =>
    match t? with
    | .none => .ok { a with kind? := .none }
    | some t =>
      match EntityKind.ofName? t with
      | some kind => .ok { a with kind? := some kind }
      | .none =>
        .error (invalidChoice t
          ([EntityKind.module, .function, .callback, .type].map EntityKind.name))⟩

def allSwitch : Switch QueryArguments :=
  ⟨["--all"], .flag fun a => { a with includeHidden := true }⟩

def artifactPositional : Positional QueryArguments :=
  ⟨"artifact", .one, fun ts a => .ok { a with artifact := Path.parse (ts.headD []) }⟩

def entityPositional : Positional QueryArguments :=
  ⟨"entity", .atMostOne, fun ts a => .ok { a with entity? := ts.head? }⟩

/-- The command of a kind of query. -/
def command (kind : QueryKind) : Command QueryArguments where
  name := ("docq " : Text) ++ kind.name
  switches :=
    match kind with
    | .show => [helpSwitch, jsonSwitch]
    | .list => [helpSwitch, kindSwitch, allSwitch, jsonSwitch]
    | .info => [helpSwitch, jsonSwitch]
  positionals :=
    match kind with
    | .show => [artifactPositional, entityPositional]
    | .list => [artifactPositional]
    | .info => [artifactPositional]

end QueryArguments

namespace Query

/-- What is read first: the name of the query, and then its own command line. -/
def readCommand (line : List Text) : Except Stop (Option Query) :=
  let name := line.headD []
  match QueryKind.all.find? fun kind => kind.name = name with
  | none =>
    .error (.misuse "docq" (("argument cmd: " : Text)
      ++ invalidChoice name (QueryKind.all.map QueryKind.name)))
  | some kind => do
    let (arguments, left) ← (QueryArguments.command kind).readKnown .none (line.drop 1)
    return some ⟨kind, arguments, left⟩

def command : Command (Option Query) where
  name := "docq"
  switches := [helpSwitch]
  positionals := [⟨"cmd", .rest, fun line _ => readCommand line⟩]

/-- The query that a command line asks. -/
def ofLine (line : List Text) : Except Stop (Option Query) := do
  let (query?, left) ← command.readKnown none line
  command.refuse (left ++ (query?.map (·.left)).getD [])
  return query?

end Query

/-! ## Answers -/

/-- The name of a read error for tools. -/
def readErrorName : ReadError → Text
  | .notFound .. => "ChunkNotFoundError"
  | .version _ => "ChunkVersionError"
  | .format _ => "ChunkFormatError"

/-- An error for tools. -/
def errorJson (name message : Text) : Json :=
  .object [("error", .string name), ("message", .string message)]

/-- A message about a file. -/
def about (p : Path) (message : Text) : Text := p.toText ++ (": " : Text) ++ message

/-- What a container holds. -/
def infoJson (c : Container) (docs : Except ReadError Chunk) : Json :=
  .object [
    ("chunks", .array (c.table.map fun r =>
      .object [
        ("name", .string r.name),
        ("sha256", .string (Text.hexOfBytes r.digest)),
        ("size", .int r.length)])),
    ("docs", match docs with
      | .ok chunk =>
        .object [
          ("entries", .int chunk.entries.length),
          ("format", .string chunk.formatId),
          ("module", .string chunk.module.ref.name),
          ("version", .int chunk.version)]
      | .error e => errorJson (readErrorName e) e.message)]

/-- Tells what a container holds. -/
def info (host : Host) (fs : FileSystem) (a : QueryArguments) : Except Failure Outcome :=
  match Container.load host fs a.artifact with
  | .error (.container e) => .ok (.reported 2 [about a.artifact e.message])
  | .error (.file e@(.os ..)) => .ok (.reported 2 [about a.artifact e.message])
  | .error (.file e) => .error (.file e)
  | .ok c =>
    let docs := Chunk.ofContainer c (some a.artifact.toText) Chunk.containerName
    let style : Json.Style := if a.json then .compactAscii else .indented
    .ok (.printed 0 [(infoJson c docs).write style])

/-- Shows the entry of an entity. -/
def showEntry (a : QueryArguments) (chunk : Chunk) : Except Failure Outcome :=
  match EntityRef.ofArgument a.entity? chunk.module.ref.name with
  | .error e => .ok (.ofStop (.misuse "docq" e.message))
  | .ok ref =>
    match chunk.lookup? ref with
    | none =>
      let message := ("no documentation entry for " : Text) ++ ref.display
      .ok (if a.json then .printed 1 [(errorJson "NotFound" message).write .plain]
        else .reported 1 [about a.artifact message])
    | some e => do
      if a.json then
        let j ← e.toJson.mapError .view
        return .printed 0 [j.write .compact]
      else return .printed 0 [← e.render.mapError .view]

/-- An entry in a listing for people. -/
def listingLine (e : Entry) : Text :=
  e.ref.display ++ (if e.isHidden then Text.ofString " (hidden)" else [])

/-- Lists entries. -/
def listEntries (a : QueryArguments) (chunk : Chunk) : Except Failure Outcome := do
  let entries := if a.includeHidden then chunk.list a.kind? else chunk.listVisible a.kind?
  if a.json then
    let j ← (Entry.listToJson entries).mapError .view
    return .printed 0 [j.write .compact]
  else return .printed 0 (entries.map listingLine)

/-! ## The command -/

/-- Answers a query about the documentation in a container. -/
def answer (host : Host) (fs : FileSystem) (q : Query) : Except Failure Outcome :=
  let a := q.arguments
  match Chunk.load host.hash fs a.artifact Chunk.containerName with
  | .error e@(.os ..) => .ok (.reported 2 [about a.artifact e.message])
  | .error e => .error (.file e)
  | .ok (.error e) =>
    .ok (if a.json then .printed 2 [(errorJson (readErrorName e) e.message).write .plain]
      else .reported 2 [about a.artifact e.message])
  | .ok (.ok chunk) => if q.kind = .show then showEntry a chunk else listEntries a chunk

/-- Runs `docq`. -/
def query (host : Host) (fs : FileSystem) (line : List Text) : Except Failure Outcome :=
  match Query.ofLine line with
  | .error stop => .ok (.ofStop stop)
  | .ok none => .ok (.ofStop (.misuse "docq" "the following arguments are required: cmd"))
  | .ok (some q) =>
    if q.kind = .info then info host fs q.arguments else answer host fs q

end ModuleDocs.CommandLine
