import ModuleDocs.Text.Utf8
import ModuleDocs.Number.LittleEndian

/-!
# Reading bytes

A `Reader` is a position in a byte string.  Reading past the end is an error and
does not move the position; a field that was read before the error stays read.

A position below zero counts from the end.  A stretch of bytes that crosses zero comes
out short, and fields of fixed width refuse it.  `skip_ofBytes` says that a reader which
moves on is the one that starts there, and `within_of_nonneg` that from zero on nothing
comes out short.
-/

namespace ModuleDocs

/-- Why bytes are no term or no chunk. -/
inductive DecodeError where
  | unexpectedEnd (offset : Int) (need : Int)
  /-- A field of this many bytes has fewer. -/
  | shortField (width : Nat)
  | invalidUtf8 (fault : Utf8.Fault)
  | nestingTooDeep
  | unknownTag (tag : Nat) (offset : Int)
  | unhashableKey (typeName : Text)
  | shortHeader
  | badMagic
  | unsupportedFlags
  | unknownEntityKind (code : Nat)
  | unknownContentTag (tag : Nat)
  | badMetadata
  | firstEntryNotModule
  | moduleRepeated
  | notOrdered
  | trailingBytes (count : Nat)
deriving DecidableEq, Repr

def DecodeError.message : DecodeError → Text
  | .unexpectedEnd offset need =>
    ("unexpected end of data at offset " : Text) ++ Text.ofInt offset ++ (" (need " : Text)
      ++ Text.ofInt need ++ (" bytes)" : Text)
  | .shortField width =>
    ("unpack requires a buffer of " : Text) ++ Text.ofNat width ++ (" bytes" : Text)
  | .invalidUtf8 fault => ("invalid UTF-8 in string field: " : Text) ++ fault.reason
  | .nestingTooDeep => "term nesting too deep"
  | .unknownTag tag offset =>
    ("unknown term tag " : Text) ++ Text.ofNat tag ++ (" at offset " : Text) ++ Text.ofInt offset
  | .unhashableKey name => ("unhashable map key " : Text) ++ name
  | .shortHeader => "chunk shorter than its header"
  | .badMagic => "invalid documentation chunk magic"
  | .unsupportedFlags => "unsupported chunk flags"
  | .unknownEntityKind code => ("unknown entity kind " : Text) ++ Text.ofNat code
  | .unknownContentTag tag => ("unknown content tag " : Text) ++ Text.ofNat tag
  | .badMetadata => "entry metadata must be a map keyed by strings"
  | .firstEntryNotModule => "first entry must describe the module"
  | .moduleRepeated => "module entry repeated in entity list"
  | .notOrdered => "entries are not strictly ordered by (kind, name, arity)"
  | .trailingBytes count =>
    Text.ofNat count ++ (" trailing bytes after documentation chunk" : Text)

/-- A position in a byte string, and the bytes from there on. -/
structure Reader where
  data : Bytes
  size : Nat
  pos : Int
  rest : Bytes

/-- A reading step: it gives a value or an error, and the position after it. -/
abbrev Decoder := ExceptT DecodeError (StateM Reader)

namespace Reader

/-- The number of bytes before a position.  One below zero counts from the end, as far
as there are bytes. -/
def bytesBefore (size : Nat) (pos : Int) : Nat :=
  if pos < 0 then (size + pos).toNat else pos.toNat

/-- The reader of a byte string at a position. -/
def ofBytes (data : Bytes) (pos : Int) : Reader :=
  ⟨data, data.length, pos, data.drop (bytesBefore data.length pos)⟩

/-- The number of bytes left. -/
def remaining (r : Reader) : Int := (r.size : Int) - r.pos

/-- The number of bytes that lie between the position and one `n` further on. -/
def within (r : Reader) (n : Nat) : Nat :=
  bytesBefore r.size (r.pos + n) - bytesBefore r.size r.pos

/-- Moves on by `n`.  Where the position comes to zero the bytes start again. -/
def skip (r : Reader) (n : Nat) : Reader :=
  let rest :=
    if r.pos < 0 ∧ 0 ≤ r.pos + n then r.data.drop (r.pos + n).toNat else r.rest.drop (r.within n)
  { r with pos := r.pos + n, rest := rest }

/-- From a position that is not below zero on, `n` bytes are `n` bytes. -/
theorem within_of_nonneg {r : Reader} (h : 0 ≤ r.pos) (n : Nat) : r.within n = n := by
  simp only [within, bytesBefore, if_neg (show ¬ r.pos < 0 by omega),
    if_neg (show ¬ r.pos + n < 0 by omega)]
  omega

/-- Moving on in a byte string ends where one would have started. -/
theorem skip_ofBytes (data : Bytes) (pos : Int) (n : Nat) :
    (ofBytes data pos).skip n = ofBytes data (pos + n) := by
  simp only [skip, ofBytes, within, List.drop_drop, Reader.mk.injEq, true_and]
  split
  · rename_i crossed
    rw [bytesBefore, if_neg (by omega)]
  · congr 1
    unfold bytesBefore
    split <;> split <;> omega

end Reader

namespace Decoder

/-- The next `n` bytes. -/
def take (n : Nat) : Decoder Bytes := do
  let r ← get
  if r.size < r.pos + n then throw (.unexpectedEnd r.pos n)
  else
    set (r.skip n)
    return r.rest.take (r.within n)

/-- The next field of a fixed width. -/
def field (width : Nat) : Decoder Bytes := do
  let data ← take width
  if data.length = width then return data else throw (.shortField width)

/-- As many bytes as an integer says; there never are fewer than none. -/
def takeInt (n : Int) : Decoder Bytes := do
  if n < 0 then throw (.unexpectedEnd (← get).pos n) else take n.toNat

/-- A number on `width` bytes. -/
def number (width : Nat) : Decoder Nat := do return ofLittleEndian (← field width)

/-- The bits of a double. -/
def double : Decoder UInt64 := do return UInt64.ofNat (← number 8)

/-- Bytes with their length on four bytes in front. -/
def blob : Decoder Bytes := do take (← number 4)

/-- The text that bytes are in UTF-8. -/
def utf8 (data : Bytes) : Decoder Text :=
  match Utf8.decode data with
  | .ok t => return t
  | .error e => throw (.invalidUtf8 e.fault)

/-- A string with its length on two bytes in front. -/
def shortString : Decoder Text := do utf8 (← take (← number 2))

/-- A string with its length on four bytes in front. -/
def longString : Decoder Text := do utf8 (← blob)

/-- Reads a value `n` times.  `done` holds the values read so far, last first. -/
@[specialize]
def repeatRead {m : Type → Type} [Monad m] {α : Type} (read : m α) (done : List α) :
    Nat → m (List α)
  | 0 => return done.reverse
  | n + 1 => do repeatRead read ((← read) :: done) n

end Decoder

end ModuleDocs
