import ModuleDocs.Chunk.Decode
import ModuleDocs.Container.Store

/-!
# Loading the documentation of a module

A container may have no documentation, documentation of a newer version, or bytes
that are no documentation.  Each is an answer of its own.
-/

namespace ModuleDocs

/-- Why a container gives no documentation. -/
inductive ReadError where
  | notFound (chunkName : Text) (path? : Option Text)
  | version (found : Nat)
  | format (reason : Text)
deriving DecidableEq, Repr

def ReadError.message : ReadError → Text
  | .notFound chunkName path? =>
    let where_ : Text :=
      match path? with
      | some path => (" in " : Text) ++ path
      | none => []
    ("no '" : Text) ++ chunkName ++ ("' chunk" : Text) ++ where_
      ++ (": module was compiled without documentation" : Text)
  | .version found =>
    ("documentation chunk version " : Text) ++ Text.ofNat found
      ++ (" is not supported (supported: " : Text) ++ Text.ofNat Chunk.currentVersion
      ++ ("); upgrade your tooling" : Text)
  | .format reason => ("malformed documentation chunk: " : Text) ++ reason

namespace Chunk

/-- The chunk that bytes write. -/
def ofBytes (data : Bytes) : Except ReadError Chunk :=
  match decode data with
  | .ok c => .ok c
  | .error (.unsupportedVersion found) => .error (.version found)
  | .error (.malformed error) => .error (.format error.message)

/-- The chunk of a name in a container. -/
def ofContainer (c : Container) (path? : Option Text) (name : Text) : Except ReadError Chunk :=
  match Chunks.get? name c.chunks with
  | some data => ofBytes data
  | none => .error (.notFound name path?)

/-- The chunk of a name in the bytes of a container. -/
def ofContainerBytes (hash : Hash) (data : Bytes) (path? : Option Text) (name : Text) :
    Except ReadError Chunk :=
  match Container.decode hash data with
  | .ok c => ofContainer c path? name
  | .error e => .error (.format (("artifact: " : Text) ++ e.message))

/-- The chunk of a name in a container on disk, if the file can be read. -/
def load (hash : Hash) (fs : FileSystem) (p : Path) (name : Text) :
    Except FileError (Except ReadError Chunk) := do
  return ofContainerBytes hash (← fs.read p) (some p.toText) name

end Chunk

end ModuleDocs
