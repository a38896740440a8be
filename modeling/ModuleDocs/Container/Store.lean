import ModuleDocs.Container.Decode
import ModuleDocs.File.System

/-!
# Containers on disk

A container is written to a temporary file, which then takes its place, so that
there is never half a container under its path.  A chunk is added by writing the
whole container anew.
-/

namespace ModuleDocs

/-- Why a container cannot be stored or loaded. -/
inductive StoreError where
  | container (error : ContainerError)
  | file (error : FileError)
deriving DecidableEq, Repr

def StoreError.message : StoreError → Text
  | .container error => error.message
  | .file error => error.message

/-- What does not change while the program runs: the hash of containers and the tag of
temporary files. -/
structure Host where
  hash : Hash
  processTag : Text

namespace Container

/-- The ending of the name of a temporary file. -/
def temporaryEnding (host : Host) : Text := (".tmp." : Text) ++ host.processTag

/-- Puts bytes under a path by way of a temporary file beside it. -/
def replaceFile (host : Host) (fs : FileSystem) (p : Path) (data : Bytes) :
    FileSystem.Change Unit :=
  match fs.makeDirectories p.parent with
  | (.error e, fs) => (.error e, fs)
  | (.ok (), fs) =>
    match p.withName? (p.name ++ temporaryEnding host) with
    | none => (.error (.noName p.toText), fs)
    | some temporary =>
      match fs.write temporary data with
      | (.error e, fs) => (.error e, fs)
      | (.ok (), fs) => fs.rename temporary p

/-- Writes a container. -/
def write (host : Host) (fs : FileSystem) (p : Path) (chunks : Chunks) :
    Except StoreError Unit × FileSystem :=
  match encode host.hash chunks with
  | .error e => (.error (.container e), fs)
  | .ok data =>
    let (result, fs) := replaceFile host fs p data
    (result.mapError .file, fs)

/-- Loads and verifies a container. -/
def load (host : Host) (fs : FileSystem) (p : Path) : Except StoreError Container := do
  let data ← (fs.read p).mapError .file
  (decode host.hash data).mapError .container

/-- Adds a chunk to a container and gives the new container.  A chunk of that name must
not be there. -/
def append (host : Host) (fs : FileSystem) (p : Path) (name : Text) (data : Bytes) :
    Except StoreError Container × FileSystem :=
  match validateName name with
  | .error e => (.error (.container e), fs)
  | .ok _ =>
    match load host fs p with
    | .error e => (.error e, fs)
    | .ok current =>
      if (Chunks.get? name current.chunks).isSome then
        (.error (.container (.alreadyPresent p.toText name)), fs)
      else
        match write host fs p (Chunks.set name data current.chunks) with
        | (.error e, fs) => (.error e, fs)
        | (.ok (), fs) => (load host fs p, fs)

end Container

end ModuleDocs
