import ModuleDocs.Entity
import ModuleDocs.Term.Basic
import ModuleDocs.Text.Utf8

/-!
# Documentation entries

An entry holds what is documented about one entity.  Its content is a text that
someone wrote, the wish to keep the entity out of listings, or nothing.  In a
finished entry an authored text is UTF-8 bytes; before that it may be any form of
text.  Functions that are not exported are erased when a table is written.
-/

namespace ModuleDocs

inductive Content where
  | undocumented
  | hidden
  | authored (text : Term)
  /-- A value that is no content.  It can be put into an entry but not written. -/
  | foreign (value : Term)
deriving DecidableEq, Repr

structure Entry where
  ref : EntityRef
  content : Content
  metadata : Items
  exported : Bool
  line : Int
deriving DecidableEq, Repr

namespace Entry

def isHidden (e : Entry) : Bool := e.content = .hidden

/-- Whether the entry is left out of a chunk. -/
def isErased (e : Entry) : Bool := e.ref.kind = .function && ! e.exported

/-- The text of an authored entry whose text is bytes. -/
def text? (e : Entry) : Except Utf8.Malformed (Option Text) :=
  match e.content with
  | .authored (.bytes data) => (Utf8.decode data).map some
  | _ => .ok none

end Entry

/-- The documentation of one module, read from a chunk. -/
structure Chunk where
  version : Nat
  formatId : Text
  module : Entry
  entries : List Entry
deriving DecidableEq, Repr

/-- The finished documentation of one module.  `formatId?` is the format that the
module declares. -/
structure DocTable where
  module : Entry
  entries : List Entry
  formatId? : Option Text
deriving DecidableEq, Repr

namespace DocTable

/-- The entries that are written. -/
def visible (t : DocTable) : List Entry := t.entries.filter (! ·.isErased)

end DocTable

end ModuleDocs
