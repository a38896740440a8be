import ModuleDocs.Chunk.Encode
import ModuleDocs.Term.Decode

/-!
# Chunks as bytes: reading

The version is looked at before anything behind it, so that a chunk of a newer
version is refused as such.  Entries have to be in strictly ascending order, and
no bytes may follow the last one.
-/

namespace ModuleDocs.Chunk

/-- Why bytes are no chunk. -/
inductive Refusal where
  | unsupportedVersion (found : Nat)
  | malformed (error : DecodeError)
deriving DecidableEq, Repr

def Refusal.message : Refusal → Text
  | .unsupportedVersion found =>
    ("unsupported documentation chunk version " : Text) ++ Text.ofNat found
  | .malformed error => error.message

/-- The size of magic, version and flags. -/
def headerSize : Nat := 8

/-- The version of a chunk. -/
def peekVersion (data : Bytes) : Except DecodeError Nat :=
  if data.length < headerSize then .error .shortHeader
  else if data.take 4 ≠ magic then .error .badMagic
  else .ok (ofLittleEndian (data.drop 4 |>.take 2))

def decodeContent : Decoder Content := do
  let tag ← Decoder.number 1
  match tag with
  | 0 => return .undocumented
  | 1 => return .authored (.bytes (← Decoder.blob))
  | 2 => return .hidden
  | _ => throw (.unknownContentTag tag)

/-- The items of a map whose keys are texts or atoms, with texts as keys. -/
def textKeyed? (items : Items) : Option Items :=
  items.mapM fun (key, value) => key.chars?.map fun t => (Term.text t, value)

/-- Reads the metadata of an entry. -/
def decodeMetadata : Decoder Items := do
  match ← Term.decode with
  | .map items =>
    match textKeyed? items with
    | some items => return items
    | none => throw .badMetadata
  | _ => throw .badMetadata

/-- Reads an entry. -/
def decodeEntry : Decoder Entry := do
  let code ← Decoder.number 1
  match EntityKind.ofCode? code with
  | none => throw (.unknownEntityKind code)
  | some kind =>
    let name ← Decoder.shortString
    let fixed ← Decoder.take 6
    let arity := ofLittleEndian (fixed.take 2)
    let line := ofLittleEndian (fixed.drop 2)
    let content ← decodeContent
    let metadata ← decodeMetadata
    return ⟨⟨kind, name, arity⟩, content, metadata, true, line⟩

/-- Reads `n` entries behind the entry of `previous?`. -/
def decodeEntries (previous? : Option EntityRef) (done : List Entry) :
    Nat → Decoder (List Entry)
  | 0 => return done.reverse
  | n + 1 => do
    let e ← decodeEntry
    if e.ref.kind = .module then throw .moduleRepeated
    else if previous?.any (fun previous => ! previous.precedes e.ref) then throw .notOrdered
    else decodeEntries (some e.ref) (e :: done) n

/-- Reads what follows the header. -/
def decodeBody (version : Nat) : Decoder Chunk := do
  let formatId ← Decoder.shortString
  let module ← decodeEntry
  if module.ref.kind ≠ .module then throw .firstEntryNotModule
  else
    let count ← Decoder.number 4
    let entries ← decodeEntries none [] count
    let left := (← get).remaining
    if left ≠ 0 then throw (.trailingBytes left.toNat)
    else return ⟨version, formatId, module, entries⟩

/-- The chunk that bytes write. -/
def decode (data : Bytes) : Except Refusal Chunk := do
  let version ← (peekVersion data).mapError .malformed
  if version ≠ currentVersion then .error (.unsupportedVersion version)
  else if ofLittleEndian (data.drop 6 |>.take 2) ≠ 0 then .error (.malformed .unsupportedFlags)
  else ((decodeBody version).run (Reader.ofBytes data headerSize)).1.mapError .malformed

end ModuleDocs.Chunk
