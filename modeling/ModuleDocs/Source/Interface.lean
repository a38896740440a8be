import ModuleDocs.Json.Writer
import ModuleDocs.Text.Utf8

/-!
# The interface of a module

Beside its documentation a module has a chunk with its name and its exports, in
the order of their names and arities, as JSON without blanks.
-/

namespace ModuleDocs.Source

/-- The name under which a container holds the interface. -/
def interfaceName : Text := "Attr"

/-- The order of exports. -/
def exportBefore (a b : Text × Int) : Bool :=
  if a.1 = b.1 then a.2 ≤ b.2 else Text.le a.1 b.1

/-- The interface as a JSON value. -/
def interfaceJson (module : Text) (exports : List (Text × Int)) : Json :=
  .object [
    ("exports", .array ((exports.mergeSort exportBefore).map fun (name, arity) =>
      .array [.string name, .int arity])),
    ("module", .string module)]

/-- The bytes of the interface of a module. -/
def encodeInterface (module : Text) (exports : List (Text × Int)) :
    Except Utf8.Unencodable Bytes :=
  Utf8.encode ((interfaceJson module exports).write .compact)

end ModuleDocs.Source
