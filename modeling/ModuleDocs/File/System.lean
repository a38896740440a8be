import ModuleDocs.File.Place
import ModuleDocs.Text.Quoted

/-!
# File systems

A file system is a tree of files and directories and a working directory.  There are
no links.

`FileSystem.locate` follows a path.  Operations that change the file system give the
new one also when they fail, since what was done before the failure stays done.

`get?_put` and `get?_remove` say what is at a location after a change.
-/

namespace ModuleDocs

/-- What the operating system says against an operation. -/
inductive OsCause where
  | notFound
  | busy
  | alreadyExists
  | notDirectory
  | isDirectory
  | nameTooLong
deriving DecidableEq, Repr

namespace OsCause

def number : OsCause → Nat
  | .notFound => 2
  | .busy => 16
  | .alreadyExists => 17
  | .notDirectory => 20
  | .isDirectory => 21
  | .nameTooLong => 36

def text : OsCause → Text
  | .notFound => "No such file or directory"
  | .busy => "Device or resource busy"
  | .alreadyExists => "File exists"
  | .notDirectory => "Not a directory"
  | .isDirectory => "Is a directory"
  | .nameTooLong => "File name too long"

end OsCause

/-- Why an operation on a path failed. -/
inductive FileError where
  /-- The system refused it; a renaming has a second path. -/
  | os (cause : OsCause) (path : Text) (target? : Option Text)
  /-- The path has a code point that no file name can hold. -/
  | unencodable (run : Utf8.Unencodable)
  /-- The path has a zero in it. -/
  | nullByte
  /-- The path has no last name to put another in place of. -/
  | noName (path : Text)
deriving DecidableEq, Repr

def FileError.message : FileError → Text
  | .os cause path target? =>
    let target : Text :=
      match target? with
      | some target => (" -> " : Text) ++ target.quoted
      | none => []
    ("[Errno " : Text) ++ Text.ofNat cause.number ++ ("] " : Text) ++ cause.text ++ (": " : Text)
      ++ path.quoted ++ target
  | .unencodable run => run.message
  | .nullByte => "embedded null byte"
  | .noName path => ("PosixPath(" : Text) ++ path.quoted ++ (") has an empty name" : Text)

structure FileSystem where
  workingDirectory : Path
  tree : Tree

namespace FileSystem

/-- The file system without files. -/
def empty (workingDirectory : Path) : FileSystem := ⟨workingDirectory, .empty⟩

/-- The node at a location.  The root is a directory. -/
def get? (fs : FileSystem) (at_ : Location) : Option Node :=
  if at_.isEmpty then some .directory else fs.tree.get? at_

/-- Puts a node at a location. -/
def put (fs : FileSystem) (at_ : Location) (node : Node) : FileSystem :=
  { fs with tree := fs.tree.set (some node) at_ }

/-- Takes the node at a location away. -/
def remove (fs : FileSystem) (at_ : Location) : FileSystem :=
  { fs with tree := fs.tree.set none at_ }

/-- Nodes with their locations, without the root.  A directory comes before what is
in it. -/
def nodes (fs : FileSystem) : List (Location × Node) := fs.tree.nodes

/-- The locations of nodes. -/
def locations (fs : FileSystem) : List Location := [] :: fs.nodes.map (·.1)

/-- What is at a location after a node was put somewhere. -/
theorem get?_put (fs : FileSystem) {a : Location} (ha : a ≠ []) (node : Node) (b : Location) :
    (fs.put a node).get? b = if b = a then some node else fs.get? b := by
  unfold get? put
  by_cases hb : b = []
  · simp [hb, ha.symm]
  · simp [hb, Tree.get?_set _ _ ha]

/-- What is at a location after a node was taken away. -/
theorem get?_remove (fs : FileSystem) {a : Location} (ha : a ≠ []) (b : Location) :
    (fs.remove a).get? b = if b = a then none else fs.get? b := by
  unfold get? remove
  by_cases hb : b = []
  · simp [hb, ha.symm]
  · simp [hb, Tree.get?_set _ _ ha]

/-- What is found at a place is what is at its location. -/
theorem node?_reach (fs : FileSystem) (a : Location) :
    (Place.reach fs.tree a).node? = fs.get? a := by
  cases a with
  | nil => rfl
  | cons first rest => exact Place.node?_reach fs.tree (List.cons_ne_nil first rest)

/-- Whatever is there has its location in the list. -/
theorem mem_locations_of_get? {fs : FileSystem} {a : Location} (h : (fs.get? a).isSome = true) :
    a ∈ fs.locations := by
  cases a with
  | nil => exact List.mem_cons_self
  | cons first rest =>
    obtain ⟨node, hnode⟩ := Option.isSome_iff_exists.1 h
    exact List.mem_cons_of_mem _ (List.mem_map.2 ⟨_, Tree.mem_nodes_of_get? hnode, rfl⟩)

/-! ## Following paths -/

/-- The greatest length of a name, and of a whole path with a zero behind it. -/
def maxName : Nat := 255
def maxPath : Nat := 4096

/-- Follows names from a place.  The last one need not exist. -/
def walk (p : Place) : List FileName → Except OsCause Location
  | [] => .ok p.location
  | name :: rest =>
    match p.node? with
    | none => .error .notFound
    | some (.file _) => .error .notDirectory
    | some .directory =>
      if name = [0x2E, 0x2E] then walk p.up rest
      else if maxName < name.length then .error .nameTooLong
      else walk (p.down name) rest

/-- The location of the working directory. -/
def home (fs : FileSystem) : Location := fs.workingDirectory.names.map FileName.encode

/-- The location that a path names. -/
def locate (fs : FileSystem) (p : Path) : Except FileError Location :=
  let t := p.toText
  match FileName.firstUnencodable? t with
  | some run => .error (.unencodable run)
  | none =>
    if t.contains (CodePoint.ofNat 0) then .error .nullByte
    else if maxPath ≤ (FileName.encode t).length then .error (.os .nameTooLong t none)
    else
      let start := if p.root = .relative then fs.home else []
      (walk (.reach fs.tree start) (p.names.map FileName.encode)).mapError fun cause =>
        .os cause t none

/-- The node that a path names. -/
def nodeAt (fs : FileSystem) (p : Path) : Except FileError Node := do
  match fs.get? (← fs.locate p) with
  | some node => return node
  | none => .error (.os .notFound p.toText none)

/-- The node that a path names, if there is one.  A name that is too long is an error
all the same. -/
def status (fs : FileSystem) (p : Path) : Except FileError (Option Node) :=
  match fs.nodeAt p with
  | .ok node => .ok (some node)
  | .error (.os .nameTooLong t target?) => .error (.os .nameTooLong t target?)
  | .error _ => .ok none

/-- Whether a path names a file. -/
def isFile (fs : FileSystem) (p : Path) : Except FileError Bool := do
  match ← fs.status p with
  | some (.file _) => return true
  | _ => return false

/-- Whether a path names anything. -/
def exists_ (fs : FileSystem) (p : Path) : Except FileError Bool := do
  return (← fs.status p).isSome

/-- Whether a path names a directory. -/
def isDirectory (fs : FileSystem) (p : Path) : Except FileError Bool := do
  return (← fs.status p) = some .directory

/-- The bytes of the file that a path names. -/
def read (fs : FileSystem) (p : Path) : Except FileError Bytes := do
  match ← fs.nodeAt p with
  | .file data => return data
  | .directory => .error (.os .isDirectory p.toText none)

/-! ## Changes -/

/-- An operation that changes a file system and may fail on the way. -/
abbrev Change (α : Type) := Except FileError α × FileSystem

/-- Makes a directory.  What it is in must exist. -/
def makeDirectory (fs : FileSystem) (p : Path) : Change Unit :=
  match fs.locate p with
  | .error e => (.error e, fs)
  | .ok at_ =>
    match fs.get? at_ with
    | some _ => (.error (.os .alreadyExists p.toText none), fs)
    | none => (.ok (), fs.put at_ .directory)

/-- An error is none where a directory was wanted and is there. -/
def unlessDirectory (fs : FileSystem) (p : Path) (e : FileError) : Except FileError Unit := do
  match e with
  | .os .. => if ← fs.isDirectory p then return () else .error e
  | _ => .error e

/-- Makes the directory with the given names, last first, and those it is in, as far as
they are missing. -/
def makeDirectoriesFrom (root : Root) (fs : FileSystem) : List Text → Change Unit
  | [] =>
    let p : Path := ⟨root, []⟩
    match fs.makeDirectory p with
    | (.error e, fs) => (fs.unlessDirectory p e, fs)
    | done => done
  | name :: above =>
    let p : Path := ⟨root, (name :: above).reverse⟩
    match fs.makeDirectory p with
    | (.error (.os .notFound ..), fs) =>
      match makeDirectoriesFrom root fs above with
      | (.error e, fs) => (.error e, fs)
      | (.ok (), fs) =>
        match fs.makeDirectory p with
        | (.error (.os .notFound t target?), fs) => (.error (.os .notFound t target?), fs)
        | (.error e, fs) => (fs.unlessDirectory p e, fs)
        | done => done
    | (.error e, fs) => (fs.unlessDirectory p e, fs)
    | done => done

/-- Makes a directory and those it is in, as far as they are missing. -/
def makeDirectories (fs : FileSystem) (p : Path) : Change Unit :=
  makeDirectoriesFrom p.root fs p.names.reverse

/-- Writes a file, in place of the file that may be there. -/
def write (fs : FileSystem) (p : Path) (data : Bytes) : Change Unit :=
  match fs.locate p with
  | .error e => (.error e, fs)
  | .ok at_ =>
    match fs.get? at_ with
    | some .directory => (.error (.os .isDirectory p.toText none), fs)
    | _ => (.ok (), fs.put at_ (.file data))

/-- An error about a renaming names both paths. -/
def withTarget (source target : Path) : FileError → FileError
  | .os cause _ _ => .os cause source.toText (some target.toText)
  | e => e

/-- Gives a file another path, in place of the file that may be there. -/
def rename (fs : FileSystem) (source target : Path) : Change Unit :=
  match fs.locate source, fs.locate target with
  | .error e, _ => (.error (withTarget source target e), fs)
  | _, .error e => (.error (withTarget source target e), fs)
  | .ok old, .ok new =>
    if target.names.getLastD (Text.ofString "..") = Text.ofString ".." then
      (.error (.os .busy source.toText (some target.toText)), fs)
    else
      match fs.get? old, fs.get? new with
      | none, _ => (.error (.os .notFound source.toText (some target.toText)), fs)
      | some (.file _), some .directory =>
        (.error (.os .isDirectory source.toText (some target.toText)), fs)
      | some node, _ => (.ok (), (fs.remove old).put new node)

end FileSystem

end ModuleDocs
