import ModuleDocs.Entry
import ModuleDocs.Term.Encode
import ModuleDocs.Term.Display

/-!
# Chunks as bytes: writing

A chunk is the magic `DOCC`, a version and flags on two bytes each, the format of
the texts as a short string, the entry of the module, the number of the other
entries on four bytes, and these entries in the order of their entities.

An entry is the code of its kind, its name, its arity on two bytes, its line on
four, a tag for its content with the text if there is one, and its metadata as a
map.  Functions that are not exported are left out.
-/

namespace ModuleDocs

/-- Why a table cannot be written. -/
inductive ChunkError where
  | moduleExpected (ref : EntityRef)
  | unexpectedModule (ref : EntityRef)
  | duplicateEntry (ref : EntityRef)
  | arityOutOfRange (ref : EntityRef)
  | lineOutOfRange (line : Int)
  | notNormalized (ref : EntityRef)
  | unsupportedContent (shown : Text) (ref : EntityRef)
  /-- Content that is none and cannot be named either. -/
  | tooLong (error : Decimal.TooLong)
  | term (error : EncodeError)
deriving DecidableEq, Repr

def ChunkError.message : ChunkError → Text
  | .moduleExpected ref => ("module entry must reference a module, got " : Text) ++ ref.display
  | .unexpectedModule ref =>
    ("unexpected module entry " : Text) ++ ref.display ++ (" in entity list" : Text)
  | .duplicateEntry ref => ("duplicate entry for " : Text) ++ ref.display
  | .arityOutOfRange ref => ("arity out of range for " : Text) ++ ref.display
  | .lineOutOfRange line =>
    if line < Nat.pow 2 64 then EncodeError.countOutOfRange.message else "argument out of range"
  | .notNormalized ref =>
    ("entry " : Text) ++ ref.display ++ (" is not normalized (text must be UTF-8 bytes)" : Text)
  | .unsupportedContent shown ref =>
    ("unsupported content " : Text) ++ shown ++ (" for " : Text) ++ ref.display
  | .tooLong error => error.message
  | .term error => error.message

namespace Chunk

/-- The name under which a container holds a chunk. -/
def containerName : Text := "Docs"

/-- The first four bytes of a chunk. -/
def magic : Bytes := [0x44, 0x4F, 0x43, 0x43]

/-- The version that is written and read. -/
def currentVersion : Nat := 1

/-- A tag and, for authored content, the text. -/
def encodeContent (ref : EntityRef) : Content → Except ChunkError Bytes
  | .undocumented => .ok [0]
  | .authored (.bytes data) => do return 1 :: (← (encodeBlob data).mapError .term)
  | .authored _ => .error (.notNormalized ref)
  | .hidden => .ok [2]
  | .foreign value =>
    match value.display with
    | .ok shown => .error (.unsupportedContent shown ref)
    | .error e => .error (.tooLong e)

/-- The bytes of an entry.  A line below zero is written as zero. -/
def encodeEntry (e : Entry) : Except ChunkError Bytes := do
  let name ← (encodeShortString e.ref.name).mapError .term
  if e.ref.arity < 0 ∨ 0xFFFF < e.ref.arity then .error (.arityOutOfRange e.ref)
  else if 0xFFFFFFFF < e.line then .error (.lineOutOfRange e.line)
  else
    let content ← encodeContent e.ref e.content
    let metadata ← (Term.encode (.map e.metadata)).mapError .term
    return UInt8.ofNat e.ref.kind.code :: (name ++ (littleEndian 2 e.ref.arity.toNat
      ++ (littleEndian 4 e.line.toNat ++ (content ++ metadata))))

/-- The bytes of entries one after the other. -/
def encodeEntries : List Entry → Except ChunkError Bytes
  | [] => .ok []
  | e :: rest => do
    let front ← encodeEntry e
    return front ++ (← encodeEntries rest)

/-- Refuses a module among the other entries, and two entries for one entity. -/
def checkEntries (seen : List EntityRef) : List Entry → Except ChunkError Unit
  | [] => .ok ()
  | e :: rest =>
    if e.ref.kind = .module then .error (.unexpectedModule e.ref)
    else if e.ref ∈ seen then .error (.duplicateEntry e.ref)
    else checkEntries (e.ref :: seen) rest

/-- The entries that are written, in the order in which they are. -/
def keptEntries (entries : List Entry) : List Entry :=
  (entries.filter (! ·.isErased)).mergeSort fun a b => ! b.ref.precedes a.ref

/-- The bytes of a chunk. -/
def encode (module : Entry) (entries : List Entry) (formatId : Text) :
    Except ChunkError Bytes := do
  if module.ref.kind ≠ .module then .error (.moduleExpected module.ref)
  else
    checkEntries [] entries
    let kept := keptEntries entries
    let format ← (encodeShortString formatId).mapError .term
    let first ← encodeEntry module
    let count ← (encodeCount kept.length).mapError .term
    let others ← encodeEntries kept
    return magic ++ (littleEndian 2 currentVersion ++ (littleEndian 2 0 ++ (format ++ (first
      ++ (count ++ others)))))

end Chunk

/-- The chunk of a table.  `defaultFormat` is used when the module declares no format,
or the empty one. -/
def DocTable.encode (t : DocTable) (defaultFormat : Text) : Except ChunkError Bytes :=
  let format :=
    match t.formatId? with
    | some own => if own.isEmpty then defaultFormat else own
    | none => defaultFormat
  Chunk.encode t.module t.entries format

end ModuleDocs
