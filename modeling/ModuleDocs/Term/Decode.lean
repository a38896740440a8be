import ModuleDocs.Term.Encode
import ModuleDocs.Term.Reader

/-!
# Terms as bytes: reading

`Term.decode` reads the format that `Term.encode` writes, and more: map items may
come in any order, integers may be longer than need be, and of several items
with equal keys the first key and the last value count.
-/

namespace ModuleDocs.Term

section

variable {m : Type → Type} [Monad m] [MonadLiftT Decoder m]

/-- Reads a map item. -/
@[specialize]
def decodeItem (read : m Term) : m (Term × Term) := do
  let key ← read
  let value ← read
  if key.isHashable then return (key, value)
  else (throw (.unhashableKey key.typeName) : Decoder (Term × Term))

/-- Reads a term of which at most `levels` stand inside each other.  Each of them is read
by way of `call`. -/
@[specialize]
def decodeBy (call : m Term → m Term) : Nat → m Term
  | 0 => call (throw .nestingTooDeep : Decoder Term)
  | levels + 1 => call do
    let tag ← Decoder.number 1
    match tag with
    | 0 => return .none
    | 1 => return .bool false
    | 2 => return .bool true
    | 3 => return .int (ofSignedLittleEndian (← Decoder.take (← Decoder.number 2)))
    | 4 => return .float (← Decoder.double)
    | 5 => return .bytes (← Decoder.blob)
    | 6 => return .text (← Decoder.longString)
    | 7 => return .atom (← Decoder.longString)
    | 8 =>
      let encoding ← Decoder.shortString
      return .tagged (← Decoder.blob) encoding
    | 9 => return .list (← Decoder.repeatRead (decodeBy call levels) [] (← Decoder.number 4))
    | 10 => return .tuple (← Decoder.repeatRead (decodeBy call levels) [] (← Decoder.number 4))
    | 11 =>
      let count ← Decoder.number 4
      return .map (Items.ofPairs
        (← Decoder.repeatRead (decodeItem (decodeBy call levels)) [] count))
    | _ => (do throw (.unknownTag tag ((← get).pos - 1)) : Decoder Term)

end

/-- Reads a term of which at most `levels` stand inside each other. -/
def decodeWithin (levels : Nat) : Decoder Term := decodeBy id levels

/-- Reads a term. -/
def decode : Decoder Term := decodeWithin (maxDepth + 1)

end ModuleDocs.Term
