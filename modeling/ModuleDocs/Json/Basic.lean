import ModuleDocs.Text.Basic

/-!
# JSON values

Numbers keep apart whether they were written as integers or not.  The members
of an object keep the order in which their names first came; a later member of
the same name replaces the value and not the place.

`Json.sortKeys` orders the members of all objects by name.
-/

namespace ModuleDocs

/-- A JSON value.  A number with a fraction or exponent is the bits of a double. -/
inductive Json where
  | null
  | bool (b : Bool)
  | int (i : Int)
  | float (bits : UInt64)
  | string (t : Text)
  | array (items : List Json)
  | object (members : List (Text × Json))
deriving Repr, Inhabited

namespace Json

/-- Gives the member `name` a value, in its old place if it has one and else last. -/
def setMember (name : Text) (value : Json) : List (Text × Json) → List (Text × Json)
  | [] => [(name, value)]
  | (n, v) :: rest => if n = name then (n, value) :: rest else (n, v) :: setMember name value rest

/-- The object with given members, of which the last of each name counts. -/
def ofMembers (members : List (Text × Json)) : Json :=
  .object (members.foldl (fun done (name, value) => setMember name value done) [])

/-- The value of the member `name`. -/
def member? (name : Text) (members : List (Text × Json)) : Option Json :=
  (members.find? fun m => m.1 = name).map (·.2)

mutual

/-- The same value with the members of every object in the order of their names. -/
def sortKeys : Json → Json
  | .array items => .array (sortKeysItems items)
  | .object members =>
    .object ((sortKeysMembers members).mergeSort fun a b => Text.le a.1 b.1)
  | .null => .null
  | .bool b => .bool b
  | .int i => .int i
  | .float bits => .float bits
  | .string t => .string t

def sortKeysItems : List Json → List Json
  | [] => []
  | j :: rest => sortKeys j :: sortKeysItems rest

def sortKeysMembers : List (Text × Json) → List (Text × Json)
  | [] => []
  | (name, j) :: rest => (name, sortKeys j) :: sortKeysMembers rest

end

end Json

end ModuleDocs
