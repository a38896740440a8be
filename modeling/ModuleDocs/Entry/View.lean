import ModuleDocs.Entry
import ModuleDocs.Json.Writer
import ModuleDocs.Term.Display
import ModuleDocs.Term.Order

/-!
# Views of entries

An entry is shown to people as lines and to tools as JSON.  For both, metadata is
made plain first: bytes become the text that they are in UTF-8 as far as
possible, tagged bytes an object, atoms texts, tuples arrays, and map keys texts.

For tools the whole entry is such a plain term, and so is a list of entries: what
cannot be made plain is found before anything that cannot be written.

`Entry.toJson`, `Entry.listToJson` and `Entry.render` give the views.
-/

namespace ModuleDocs

/-- Why an entry cannot be shown. -/
inductive ViewError where
  | notSerializable (typeName : Text)
  | textNotUtf8 (error : Utf8.Malformed)
  | keysIncomparable (pair : Incomparable)
  | tooLong (error : Decimal.TooLong)
deriving DecidableEq, Repr

def ViewError.message : ViewError → Text
  | .notSerializable name =>
    ("Object of type " : Text) ++ name ++ (" is not JSON serializable" : Text)
  | .textNotUtf8 error => error.message
  | .keysIncomparable pair => pair.message
  | .tooLong error => error.message

namespace Term

mutual

/-- A term without bytes, atoms and tuples, in which all map keys are texts. -/
def simplify : Term → Except Decimal.TooLong Term
  | .bytes data => .ok (.text (Utf8.decodeLossy data))
  | .tagged data encoding =>
    .ok (.map [(.text "encoding", .text encoding), (.text "hex", .text (Text.hexOfBytes data))])
  | .atom t => .ok (.text t)
  | .list items => return .list (← simplifyAll items)
  | .tuple items => return .list (← simplifyAll items)
  | .map items => return .map (Items.ofPairs (← simplifyItems items))
  | t => .ok t

def simplifyAll : List Term → Except Decimal.TooLong (List Term)
  | [] => .ok []
  | t :: rest => do
    let first ← simplify t
    return first :: (← simplifyAll rest)

def simplifyItems : Items → Except Decimal.TooLong Items
  | [] => .ok []
  | (key, value) :: rest => do
    let name ← (← simplify key).plain
    let plainValue ← simplify value
    return (.text name, plainValue) :: (← simplifyItems rest)

end

/-- The text that a key of a simplified term is. -/
def keyText (t : Term) : Text := t.chars?.getD []

mutual

/-- A simplified term with the items of all its maps in the order of their keys. -/
def sortItems : Term → Term
  | .list items => .list (sortItemsAll items)
  | .map items =>
    .map ((sortItemsValues items).mergeSort fun a b => Text.le a.1.keyText b.1.keyText)
  | t => t

def sortItemsAll : List Term → List Term
  | [] => []
  | t :: rest => sortItems t :: sortItemsAll rest

def sortItemsValues : Items → Items
  | [] => []
  | (key, value) :: rest => (key, sortItems value) :: sortItemsValues rest

end

mutual

/-- The JSON value of a simplified term.  Its integers are not too long to be written. -/
def toJson : Term → Except ViewError Json
  | .none => .ok .null
  | .bool b => .ok (.bool b)
  | .int i => do
    let _ ← (Decimal.write i).mapError .tooLong
    return .int i
  | .float bits => .ok (.float bits)
  | .text t => .ok (.string t)
  | .list items => return .array (← toJsonAll items)
  | .map items => return .object (← toJsonItems items)
  | t => .error (.notSerializable t.typeName)

def toJsonAll : List Term → Except ViewError (List Json)
  | [] => .ok []
  | t :: rest => do
    let j ← toJson t
    return j :: (← toJsonAll rest)

def toJsonItems : Items → Except ViewError (List (Text × Json))
  | [] => .ok []
  | (key, value) :: rest => do
    let j ← toJson value
    return (key.keyText, j) :: (← toJsonItems rest)

end

end Term

namespace Entry

/-- The plain term for the content of an entry. -/
def simplifyContent (e : Entry) : Except ViewError Term :=
  match e.content with
  | .authored _ => do
    let text? ← e.text?.mapError .textNotUtf8
    return .map [(.text "kind", .text "authored"), (.text "text", (text?.map .text).getD .none)]
  | .hidden => .ok (.map [(.text "kind", .text "hidden")])
  | .undocumented | .foreign _ => .ok (.map [(.text "kind", .text "none")])

/-- The plain term for an entry. -/
def simplify (e : Entry) : Except ViewError Term := do
  let content ← e.simplifyContent
  let metadata ← (Term.map e.metadata).simplify.mapError .tooLong
  return .map [
    (.text "kind", .text e.ref.kind.name),
    (.text "name", .text e.ref.name),
    (.text "arity", .int e.ref.arity),
    (.text "line", .int e.line),
    (.text "content", content),
    (.text "metadata", metadata)]

/-- An entry for tools, with the members of all objects in the order of their names. -/
def toJson (e : Entry) : Except ViewError Json := do (← e.simplify).sortItems.toJson

/-- Several entries for tools. -/
def listToJson (entries : List Entry) : Except ViewError Json := do
  (Term.list (← entries.mapM simplify)).sortItems.toJson

/-- The lines that show the content of an entry. -/
def renderContent (e : Entry) : Except ViewError (List Text) :=
  match e.content with
  | .authored _ => do return [[], (← e.text?.mapError .textNotUtf8).getD []]
  | .hidden => .ok ["  (hidden)"]
  | .undocumented | .foreign _ => .ok ["  (no documentation)"]

/-- The lines that show metadata. -/
def renderItems : Items → Except ViewError (List Text)
  | [] => .ok []
  | (key, value) :: rest => do
    let name ← key.plain.mapError .tooLong
    let j ← (← value.simplify.mapError .tooLong).toJson
    let line := ("  " : Text) ++ name ++ (": " : Text) ++ j.write .readable
    return line :: (← renderItems rest)

/-- An entry for people: the entity, the content, and the metadata in the order of
their keys. -/
def render (e : Entry) : Except ViewError Text := do
  let content ← e.renderContent
  let items ← (Ascending.sort (fun a b => Term.less a.1 b.1) e.metadata).mapError
    .keysIncomparable
  return Text.join "\n" (e.ref.display :: (content ++ (← renderItems items)))

end Entry

end ModuleDocs
