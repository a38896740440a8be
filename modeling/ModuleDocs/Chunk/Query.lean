import ModuleDocs.Entry

/-!
# Asking a chunk

`Chunk.lookup?` finds the entry of an entity, `Chunk.list` gives all entries with
the module first, and `Chunk.listVisible` those that are not hidden.  A hidden
module does not hide what is in it.
-/

namespace ModuleDocs.Chunk

/-- The entry of an entity. -/
def lookup? (c : Chunk) (ref : EntityRef) : Option Entry :=
  if ref.kind = .module then if ref = c.module.ref then some c.module else none
  else c.entries.find? fun e => e.ref = ref

/-- All entries, of one kind if a kind is given. -/
def list (c : Chunk) (kind? : Option EntityKind) : List Entry :=
  let all := c.module :: c.entries
  match kind? with
  | none => all
  | some kind => all.filter fun e => e.ref.kind = kind

/-- The entries of default listings. -/
def listVisible (c : Chunk) (kind? : Option EntityKind) : List Entry :=
  (c.list kind?).filter (! ·.isHidden)

end ModuleDocs.Chunk
