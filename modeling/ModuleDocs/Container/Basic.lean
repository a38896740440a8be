import ModuleDocs.Container.Hash
import ModuleDocs.Term.Basic
import ModuleDocs.Term.Reader

/-!
# Containers

A container is the file of a compiled module.  It holds named chunks, and a table
of contents that gives for each name a region of the file and a hash.  Names are
one to sixteen printable ASCII characters.
-/

namespace ModuleDocs

/-- Why a container cannot be written, or is not accepted. -/
inductive ContainerError where
  | emptyName
  | nameNotAscii (name : Text)
  | nameTooLong (name : Text)
  | nameNotPrintable (name : Text)
  | tooManyChunks
  | tooLarge
  | shortHeader
  | badMagic
  | unsupportedVersion (found : Nat)
  | unsupportedFlags
  | unsupportedHeaderSize
  | unsupportedEntrySize
  | tableTooLong
  | tableHashMismatch
  | badTableName (index : Nat)
  | duplicateName (name : Text)
  | regionsOverlap
  | regionTooLong (name : Text)
  | chunkHashMismatch (name : Text)
  | alreadyPresent (path name : Text)
deriving DecidableEq, Repr

/-- A name between words. -/
def aroundName (before : String) (name : Text) (after : String) : Text :=
  Text.ofString before ++ name ++ Text.ofString after

def ContainerError.message : ContainerError → Text
  | .emptyName => "chunk name must be a non-empty string"
  | .nameNotAscii name => aroundName "chunk name '" name "' must be ASCII"
  | .nameTooLong name => aroundName "chunk name '" name "' exceeds 16 bytes"
  | .nameNotPrintable name =>
    aroundName "chunk name '" name "' must be printable ASCII without spaces"
  | .tooManyChunks => "'I' format requires 0 <= number <= 4294967295"
  | .tooLarge => "int too large to convert"
  | .shortHeader => "artifact shorter than its header"
  | .badMagic => "invalid artifact magic"
  | .unsupportedVersion found => ("unsupported artifact version " : Text) ++ Text.ofNat found
  | .unsupportedFlags => "unsupported artifact flags"
  | .unsupportedHeaderSize => "unsupported header size"
  | .unsupportedEntrySize => "unsupported toc entry size"
  | .tableTooLong => "toc extends past end of artifact"
  | .tableHashMismatch => "toc sha256 mismatch"
  | .badTableName index => ("invalid chunk name in toc entry " : Text) ++ Text.ofNat index
  | .duplicateName name => aroundName "duplicate chunk '" name "' in toc"
  | .regionsOverlap => "chunk regions overlap or point into header/toc"
  | .regionTooLong name => aroundName "chunk '" name "' extends past end of artifact"
  | .chunkHashMismatch name => aroundName "chunk sha256 mismatch for '" name "'"
  | .alreadyPresent path name =>
    ("artifact " : Text) ++ path ++ aroundName " already has a '" name "' chunk"

/-- A map from chunk names to chunks, in the order of their first writing. -/
abbrev Chunks := List (Text × Bytes)

namespace Chunks

/-- The chunk of a name. -/
def get? (name : Text) (chunks : Chunks) : Option Bytes :=
  (chunks.find? fun c => c.1 = name).map (·.2)

/-- Gives a name a chunk, in its old place if it has one. -/
def set (name : Text) (data : Bytes) : Chunks → Chunks
  | [] => [(name, data)]
  | (n, d) :: rest => if n = name then (n, data) :: rest else (n, d) :: set name data rest

/-- The map that writing chunks one after the other gives. -/
def ofPairs (pairs : Chunks) : Chunks :=
  pairs.foldl (fun done (name, data) => set name data done) []

/-- The chunks in the order of their names. -/
def sorted (chunks : Chunks) : Chunks := chunks.mergeSort fun a b => Text.le a.1 b.1

end Chunks

/-- A region of a container: a line of its table of contents. -/
structure Region where
  name : Text
  offset : Nat
  length : Nat
  digest : Bytes
deriving DecidableEq, Repr

/-- A container whose bytes have been verified. -/
structure Container where
  chunks : Chunks
  table : List Region
deriving DecidableEq, Repr

namespace Container

/-- The names of the chunks, sorted. -/
def names (c : Container) : List Text := c.chunks.sorted.map (·.1)

/-! ## The format -/

def magic : Bytes := [0x44, 0x43, 0x41, 0x52, 0x54, 0, 0, 0]

def currentVersion : Nat := 0

/-- The size of the field of a name; a shorter name is filled up with zeros. -/
def nameWidth : Nat := 16

def headerSize : Nat := 88

/-- The size of a line of the table of contents. -/
def regionSize : Nat := 64

/-- The bytes of a chunk name. -/
def validateName (name : Text) : Except ContainerError Bytes :=
  if name.isEmpty then .error .emptyName
  else if name.any fun c => 0x80 ≤ c.val then .error (.nameNotAscii name)
  else if nameWidth < name.length then .error (.nameTooLong name)
  else if name.any fun c => c.val < 0x21 || 0x7E < c.val then .error (.nameNotPrintable name)
  else .ok (name.map fun c => UInt8.ofNat c.val)

/-- The bytes of a term that is a chunk name.  What is no text counts as no name. -/
def validateTerm (t : Term) : Except ContainerError Bytes :=
  match t.chars? with
  | some name => validateName name
  | none => .error .emptyName

end Container

end ModuleDocs
