import ModuleDocs.Term.Order
import ModuleDocs.Text.Utf8
import ModuleDocs.Number.LittleEndian

/-!
# Terms as bytes: writing

A term is a tag byte and a body.  Lengths and counts stand in front of what they
count, numbers are little endian, and map items are in the order of their
encoded keys, so that equal maps have equal bytes.

| tag | body |
| --- | --- |
| 0, 1, 2 | none, false, true |
| 3 | integer: u16 length, two's complement |
| 4 | double |
| 5, 6, 7 | bytes, text, atom: u32 length, bytes |
| 8 | tagged bytes: u16 length, encoding, u32 length, bytes |
| 9, 10 | list, tuple: u32 count, terms |
| 11 | map: u32 count, pairs of terms |

Terms nest at most `Term.maxDepth` deep.  The depth of a map key is counted from
the key itself.  `Term.isStorable` is the test of whether a term can be written
that does not look at sizes and counts the depth of keys from the outermost term.
-/

namespace ModuleDocs

/-- Why a value cannot be written. -/
inductive EncodeError where
  | nestingTooDeep
  | notATerm (typeName : Text)
  | incomparable (pair : Incomparable)
  | unencodable (run : Utf8.Unencodable)
  | stringTooLong
  | blobTooLong
  | lengthOutOfRange
  | countOutOfRange
deriving DecidableEq, Repr

def EncodeError.message : EncodeError → Text
  | .nestingTooDeep => "term nesting too deep"
  | .notATerm name => ("cannot encode " : Text) ++ name ++ (" as a chunk term" : Text)
  | .incomparable pair => pair.message
  | .unencodable run => run.message
  | .stringTooLong => "string too long for a 16-bit length prefix"
  | .blobTooLong => "blob too long for a 32-bit length prefix"
  | .lengthOutOfRange => "ushort format requires 0 <= number <= 65535"
  | .countOutOfRange => "'I' format requires 0 <= number <= 4294967295"

/-! ## Length prefixes -/

/-- A text as UTF-8 bytes. -/
def encodeText (t : Text) : Except EncodeError Bytes := (Utf8.encode t).mapError .unencodable

/-- A short string: its length on two bytes and its UTF-8 bytes. -/
def encodeShortString (t : Text) : Except EncodeError Bytes := do
  let data ← encodeText t
  if 0xFFFF < data.length then .error .stringTooLong
  else return littleEndian 2 data.length ++ data

/-- A blob: its length on four bytes and its bytes. -/
def encodeBlob (data : Bytes) : Except EncodeError Bytes :=
  if 0xFFFFFFFF < data.length then .error .blobTooLong
  else .ok (littleEndian 4 data.length ++ data)

/-- A count on four bytes. -/
def encodeCount (n : Nat) : Except EncodeError Bytes :=
  if 0xFFFFFFFF < n then .error .countOutOfRange else .ok (littleEndian 4 n)

namespace Term

/-- The greatest depth at which a term is written or read. -/
def maxDepth : Nat := 64

/-! ## Map items -/

/-- A map item while its map is written: the bytes of the key, the value, and the
bytes of the value or why it has none. -/
structure EncodedItem where
  key : Bytes
  value : Term
  written : Except EncodeError Bytes

/-- Items are in the order of their encoded keys.  Only where two of these are the
same are values compared. -/
def EncodedItem.less (a b : EncodedItem) : Except EncodeError Bool :=
  if a.key = b.key then
    if same a.value b.value then .ok false else (Term.less a.value b.value).mapError .incomparable
  else .ok (decide (a.key < b.key))

/-- Items in the order in which they are written. -/
def EncodedItem.sort (items : List EncodedItem) : Except EncodeError (List EncodedItem) :=
  let sorted := items.mergeSort fun a b => decide (a.key ≤ b.key)
  if (sorted.zip (sorted.drop 1)).all fun (a, b) => a.key ≠ b.key then .ok sorted
  else Ascending.sort EncodedItem.less items

/-- The bytes of items one after the other. -/
def EncodedItem.join : List EncodedItem → Except EncodeError Bytes
  | [] => .ok []
  | item :: rest => do
    let value ← item.written
    return item.key ++ (value ++ (← join rest))

/-! ## Terms -/

mutual

/-- The bytes of a term that stands inside `depth` others. -/
def encodeAt (depth : Nat) (t : Term) : Except EncodeError Bytes :=
  if maxDepth < depth then .error .nestingTooDeep
  else
    match t with
    | .none => .ok [0]
    | .bool false => .ok [1]
    | .bool true => .ok [2]
    | .int i =>
      let width := signedWidth i
      if 0xFFFF < width then .error .lengthOutOfRange
      else .ok (3 :: (littleEndian 2 width ++ signedLittleEndian width i))
    | .float bits => .ok (4 :: littleEndian 8 bits.toNat)
    | .bytes data => return 5 :: (← encodeBlob data)
    | .text t => do return 6 :: (← encodeBlob (← encodeText t))
    | .atom t => do return 7 :: (← encodeBlob (← encodeText t))
    | .tagged data encoding => do
      let name ← encodeShortString encoding
      return 8 :: (name ++ (← encodeBlob data))
    | .list items => do
      let count ← encodeCount items.length
      return 9 :: (count ++ (← encodeAll (depth + 1) items))
    | .tuple items => do
      let count ← encodeCount items.length
      return 10 :: (count ++ (← encodeAll (depth + 1) items))
    | .map items => do
      let sorted ← EncodedItem.sort (← encodeItems (depth + 1) items)
      let count ← encodeCount sorted.length
      return 11 :: (count ++ (← EncodedItem.join sorted))
    | .funRef .. => .error (.notATerm t.typeName)
    | .foreign name => .error (.notATerm name)

/-- The bytes of terms one after the other. -/
def encodeAll (depth : Nat) : List Term → Except EncodeError Bytes
  | [] => .ok []
  | t :: rest => do
    let front ← encodeAt depth t
    return front ++ (← encodeAll depth rest)

/-- Map items with their bytes.  A key that cannot be written is an error at once, a
value only when its turn comes. -/
def encodeItems (depth : Nat) : Items → Except EncodeError (List EncodedItem)
  | [] => .ok []
  | (key, value) :: rest => do
    let front ← encodeAt 0 key
    return ⟨front, value, encodeAt depth value⟩ :: (← encodeItems depth rest)

end

/-- The bytes of a term. -/
def encode (t : Term) : Except EncodeError Bytes := encodeAt 0 t

mutual

/-- Whether a term that stands inside `depth` others can be stored. -/
def isStorableAt (depth : Nat) (t : Term) : Bool :=
  if maxDepth < depth then false
  else
    match t with
    | .list items => allStorableAt (depth + 1) items
    | .tuple items => allStorableAt (depth + 1) items
    | .map items => itemsStorableAt (depth + 1) items
    | .funRef .. => false
    | .foreign _ => false
    | _ => true

def allStorableAt (depth : Nat) : List Term → Bool
  | [] => true
  | t :: rest => isStorableAt depth t && allStorableAt depth rest

def itemsStorableAt (depth : Nat) : Items → Bool
  | [] => true
  | (key, value) :: rest =>
    isStorableAt depth key && isStorableAt depth value && itemsStorableAt depth rest

end

/-- Whether a term can be stored as metadata. -/
def isStorable (t : Term) : Bool := isStorableAt 0 t

end Term

end ModuleDocs
