import ModuleDocs.Event
import ModuleDocs.Source.Include

/-!
# Units

A unit is the source of one module.  Its first form names the module; `-export`
lists what is exported, `-moduledoc` is about the module, and the `-doc` forms
before a `-fun`, `-type` or `-callback` form are about that entity.

`SourceUnit.ofForms` turns forms into the events of a unit, and `SourceUnit.read`
reads a file.
-/

namespace ModuleDocs.Source

/-- The source of a module as events. -/
structure SourceUnit where
  module : Text
  path : Path
  events : List Event
  exports : List (Text × Int)
  includes : List Path

/-- What forms come to, in source order. -/
structure Findings where
  events : List Event
  exports : List (Text × Int)
  diagnostics : List Diagnostic

namespace Findings

def empty : Findings := ⟨[], [], []⟩

def ofEvent (e : Event) : Findings := ⟨[e], [], []⟩

def ofDiagnostic (d : Diagnostic) : Findings := ⟨[], [], [d]⟩

/-- What some forms and the forms behind them come to. -/
def append (a b : Findings) : Findings :=
  ⟨a.events ++ b.events, a.exports ++ b.exports, a.diagnostics ++ b.diagnostics⟩

end Findings

/-! ## Values -/

/-- The diagnostic of a form with a value of the wrong kind. -/
def attributeError (form : Form) (message : Text) : Diagnostic :=
  .error "parser" "E-DOC-ATTR" message form.span

/-- The path of a value `{file, Path}`. -/
def filePath? : Term → Option Text
  | .tuple [tag, path] => if tag.chars? = some (Text.ofString "file") then path.chars? else none
  | _ => none

def isHiddenWord (t : Text) : Bool := t = Text.ofString "hidden" || t = Text.ofString "false"

/-- The text of a documentation form, or what is wrong with it. -/
def payloadOf (fs : FileSystem) (form : Form) :
    Except FileError (Except Diagnostic Payload) :=
  let invalid : Diagnostic :=
    attributeError form (("invalid -" : Text) ++ form.name
      ++ (" value; expected a string, a binary, hidden, false, \x7bfile, Path\x7d or a metadata map"
        : Text))
  match form.value with
  | .atom t => .ok (if isHiddenWord t then .ok (.content .hidden) else .error invalid)
  | .text t => .ok (.ok (.value (.text t)))
  | .tagged data encoding => .ok (.ok (.value (.tagged data encoding)))
  | value =>
    match filePath? value with
    | none => .ok (.error invalid)
    | some name =>
      let base := (form.file?.map fun file => (Path.parse file).parent).getD fs.workingDirectory
      let p := base.join (Path.parse name)
      match fs.read p with
      | .ok data => .ok (.ok (.value (.tagged data "utf8")))
      | .error (.os cause _ _) =>
        .ok (.error (.error "parser" "E-DOC-FILE"
          (("cannot read documentation file " : Text) ++ p.toText ++ (": " : Text) ++ cause.text)
          form.span))
      | .error e => .error e

/-- Metadata with texts in place of atoms as keys. -/
def metadataOf (items : Items) : Term :=
  .map (items.map fun (key, value) =>
    (match key with
      | .atom t => Term.text t
      | other => other, value))

/-- The greatest number of arguments, and the greatest length of a name in UTF-8. -/
def maxArity : Int := 0xFFFF
def maxName : Nat := 0xFFFF

/-- What is wrong with a name. -/
def nameProblem? (name : Text) : Option Text :=
  match Utf8.encode name with
  | .error _ => some "is not encodable as UTF-8"
  | .ok data =>
    if data.isEmpty then some "is empty"
    else if maxName < data.length then
      some (("exceeds " : Text) ++ Text.ofNat maxName ++ (" bytes" : Text))
    else none

/-- The kind of entity that a form with this name declares. -/
def entityKind? (name : Text) : Option EntityKind :=
  if name = Text.ofString "fun" then some .function
  else if name = Text.ofString "type" then some .type
  else if name = Text.ofString "callback" then some .callback
  else none

/-- The entity that a form declares. -/
def entityOf (kind : EntityKind) (form : Form) : Except Diagnostic EntityRef :=
  match form.value with
  | .funRef name arity =>
    match nameProblem? name with
    | some problem =>
      .error (attributeError form (("-" : Text) ++ form.name ++ (" name " : Text) ++ problem))
    | none =>
      if maxArity < arity then
        .error (attributeError form (("-" : Text) ++ form.name ++ (" arity " : Text)
          ++ Text.ofInt arity ++ (" exceeds " : Text) ++ Text.ofInt maxArity))
      else .ok ⟨kind, name, arity⟩
  | _ => .error (attributeError form (("-" : Text) ++ form.name ++ (" expects name/arity" : Text)))

/-- The functions that an export form lists. -/
def exportsOf? : Term → Option (List (Text × Int))
  | .list items =>
    items.mapM fun
      | .funRef name arity => some (name, arity)
      | _ => none
  | _ => none

/-- Each export once, where it is listed first. -/
def distinct (exports : List (Text × Int)) : List (Text × Int) :=
  exports.foldl (fun done e => if done.contains e then done else done ++ [e]) []

/-! ## Forms -/

/-- The event of a `-doc` form about an entity, or what is wrong with the form. -/
def docEvent (fs : FileSystem) (ref : EntityRef) (form : Form) :
    Except FileError (Except Diagnostic Event) := do
  match form.value with
  | .map items => return .ok (.entityMeta ref (metadataOf items) form.span)
  | _ =>
    match ← payloadOf fs form with
    | .ok payload => return .ok (.entityDoc ref payload form.span)
    | .error d => return .error d

/-- The `-doc` forms of an entity. -/
def readDocs (fs : FileSystem) (ref : EntityRef) : List Form → Except FileError Findings
  | [] => .ok .empty
  | form :: rest => do
    let first :=
      match ← docEvent fs ref form with
      | .ok event => Findings.ofEvent event
      | .error d => Findings.ofDiagnostic d
    return first.append (← readDocs fs ref rest)

/-- A declaration with the `-doc` forms in front of it. -/
def readDeclaration (fs : FileSystem) (kind : EntityKind) (docs : List Form) (form : Form) :
    Except FileError Findings :=
  match entityOf kind form with
  | .error d => .ok (.ofDiagnostic d)
  | .ok ref => do return (← readDocs fs ref docs).append (.ofEvent (.declaration ref form.span))

/-- A form that is about no entity. -/
def readForm (fs : FileSystem) (form : Form) : Except FileError Findings :=
  if form.name = Text.ofString "module" then
    .ok (.ofDiagnostic
      (.error "parser" "E-DOC-MODULE" "duplicate -module attribute" form.span))
  else if form.name = Text.ofString "export" then
    match exportsOf? form.value with
    | some exports => .ok ⟨[], exports, []⟩
    | none => .ok (.ofDiagnostic (attributeError form "-export expects a list of name/arity"))
  else if form.name = Text.ofString "moduledoc" then
    match form.value with
    | .map items => .ok (.ofEvent (.moduleMeta (metadataOf items) form.span))
    | _ => do
      match ← payloadOf fs form with
      | .ok payload => return .ofEvent (.moduleDoc payload form.span)
      | .error d => return .ofDiagnostic d
  else .ok .empty

/-- The warning about a `-doc` form that no declaration follows. -/
def dangling (form : Form) : Diagnostic :=
  .warning "parser" "W-DOC-DANGLING"
    "-doc is not followed by a -fun, -type or -callback declaration; ignored" form.span

/-- The forms behind the one that names the module.  `waiting` are the `-doc` forms that
no declaration has followed so far, the last of them first. -/
def readAll (fs : FileSystem) (waiting : List Form) : List Form → Except FileError Findings
  | [] => .ok ⟨[], [], waiting.reverse.map dangling⟩
  | form :: rest =>
    if form.name = Text.ofString "doc" then readAll fs (form :: waiting) rest
    else
      match entityKind? form.name with
      | some kind => do
        let first ← readDeclaration fs kind waiting.reverse form
        return first.append (← readAll fs [] rest)
      | none => do
        let first ← readForm fs form
        return first.append (← readAll fs waiting rest)

/-- The name of the module that a first form gives, or what is wrong with it. -/
def moduleName (form : Form) : Except Diagnostic Text :=
  let fail (message : Text) : Except Diagnostic Text :=
    .error (.error "parser" "E-DOC-MODULE" message form.span)
  match form.value with
  | .atom name =>
    if form.name ≠ Text.ofString "module" then
      fail "the first attribute must be -module(Name)"
    else
      match nameProblem? name with
      | some problem => fail (("module name " : Text) ++ problem)
      | none => .ok name
  | _ => fail "the first attribute must be -module(Name)"

/-- The unit that expanded forms of a file make, and diagnostics. -/
def SourceUnit.ofForms (fs : FileSystem) (path : Path) (includes : List Path) :
    List Form → Except FileError (Option SourceUnit × List Diagnostic)
  | [] =>
    .ok (none, [.error "parser" "E-DOC-MODULE" "missing -module attribute" (.ofFile path.toText)])
  | first :: rest =>
    match moduleName first with
    | .error d => .ok (none, [d])
    | .ok module => do
      let found ← readAll fs [] rest
      let events := .declaration (.ofModule module) first.span :: found.events
      return (some ⟨module, path, events, distinct found.exports, includes⟩, found.diagnostics)

/-- The unit of a source file.  There is none when the file or one that it includes
cannot be read. -/
def SourceUnit.read (fs : FileSystem) (includePaths : List Path) (path : Path) :
    Except Failure (Option SourceUnit × List Diagnostic) := do
  let expansion ← load fs includePaths path
  if hasErrors expansion.diagnostics then return (none, expansion.diagnostics)
  else
    let (unit?, diagnostics) ←
      (SourceUnit.ofForms fs path expansion.included expansion.forms).mapError .file
    return (unit?, expansion.diagnostics ++ diagnostics)

end ModuleDocs.Source
