import ModuleDocs.Text.Basic

/-!
# Entities

What documentation is about: a module, or one of its functions, callbacks and
types, named by name and number of arguments.  `EntityRef.precedes` is the order
of the entries of a chunk: by kind in the order of the kinds' names, then by
name, then by number of arguments.
-/

namespace ModuleDocs

inductive EntityKind where
  | module
  | function
  | callback
  | type
deriving DecidableEq, Repr

namespace EntityKind

def name : EntityKind → Text
  | .module => "module"
  | .function => "function"
  | .callback => "callback"
  | .type => "type"

/-- The place of a kind in the order of the kinds' names. -/
def rank : EntityKind → Nat
  | .callback => 0
  | .function => 1
  | .module => 2
  | .type => 3

/-- The number of a kind in a chunk. -/
def code : EntityKind → Nat
  | .module => 0
  | .function => 1
  | .callback => 2
  | .type => 3

def all : List EntityKind := [.module, .function, .callback, .type]

def ofCode? (n : Nat) : Option EntityKind := all.find? fun k => k.code = n

def ofName? (t : Text) : Option EntityKind := all.find? fun k => k.name = t

end EntityKind

/-- An entity.  A module has no arguments. -/
structure EntityRef where
  kind : EntityKind
  name : Text
  arity : Int
deriving DecidableEq, Repr

namespace EntityRef

def ofModule (name : Text) : EntityRef := ⟨.module, name, 0⟩

/-- The order of entries. -/
def precedes (a b : EntityRef) : Bool :=
  if a.kind ≠ b.kind then a.kind.rank < b.kind.rank
  else if a.name ≠ b.name then decide (a.name < b.name)
  else a.arity < b.arity

/-- An entity as messages and listings name it. -/
def display (r : EntityRef) : Text :=
  if r.kind = .module then ("module " : Text) ++ r.name
  else r.kind.name ++ (" " : Text) ++ r.name ++ ("/" : Text) ++ Text.ofInt r.arity

end EntityRef

end ModuleDocs
