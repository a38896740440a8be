import ModuleDocs.Json.Basic
import ModuleDocs.Number.Binary64
import ModuleDocs.Number.Decimal
import ModuleDocs.Number.Digits

/-!
# Reading JSON

The reader takes standard JSON and, as numbers, the words `NaN`, `Infinity` and
`-Infinity`.  A text that is no value is refused with the position at which
reading stopped and the reason; so is an integer of too many digits.

`Json.read` reads a whole text.  The reader proper goes over a `Cursor`, and its
`fuel` bounds the values and separators read one inside or behind the other; there
are at most two for each code point, so `Json.read` never runs out.
-/

namespace ModuleDocs.Json

/-- Why a text is no JSON value. -/
inductive Cause where
  | byteOrderMark
  | expectingValue
  | expectingName
  | expectingColon
  | expectingComma
  | extraData
  | controlCharacter
  | unterminatedString
  | badEscape
  | badUnicodeEscape
  | integer (error : Decimal.TooLong)
deriving DecidableEq, Repr

def Cause.message : Cause → Text
  | .byteOrderMark => "Unexpected UTF-8 BOM (decode using utf-8-sig)"
  | .expectingValue => "Expecting value"
  | .expectingName => "Expecting property name enclosed in double quotes"
  | .expectingColon => "Expecting ':' delimiter"
  | .expectingComma => "Expecting ',' delimiter"
  | .extraData => "Extra data"
  | .controlCharacter => "Invalid control character at"
  | .unterminatedString => "Unterminated string starting at"
  | .badEscape => "Invalid \\escape"
  | .badUnicodeEscape => "Invalid \\uXXXX escape"
  | .integer error => error.message

/-- A reason and the number of code points before the place it is about. -/
structure ReadError where
  cause : Cause
  position : Nat
deriving DecidableEq, Repr

/-- The line of a text, counted from 1, on which a position lies. -/
def lineAt (source : Text) (position : Nat) : Nat :=
  (source.take position).count (CodePoint.ofChar '\n') + 1

/-- What is left to read and how many code points were read before it. -/
structure Cursor where
  position : Nat
  rest : Text

namespace Cursor

/-- Passes over `n` code points. -/
def advance (c : Cursor) (n : Nat) : Cursor := ⟨c.position + n, c.rest.drop n⟩

def isSpace (c : CodePoint) : Bool := c = ' ' || c = '\t' || c = '\n' || c = '\r'

/-- Passes over white space. -/
def skipSpace (c : Cursor) : Cursor := c.advance (c.rest.takeWhile isSpace).length

/-- Whether the next code point is the character `ch`. -/
def isAt (c : Cursor) (ch : Char) : Bool := c.rest.head? = some (CodePoint.ofChar ch)

/-- Refuses the text at this place. -/
def fail {α : Type} (c : Cursor) (cause : Cause) : Except ReadError α := .error ⟨cause, c.position⟩

end Cursor

/-! ## Strings -/

/-- The number that four hexadecimal digits write. -/
def hexUnit? (a b c d : CodePoint) : Option Nat := do
  return (← a.hexValue?) * 0x1000 + (← b.hexValue?) * 0x100 + (← c.hexValue?) * 0x10
    + (← d.hexValue?)

/-- What a one letter escape stands for. -/
def simpleEscape? (c : CodePoint) : Option CodePoint :=
  if c = '"' || c = '\\' || c = '/' then some c
  else if c = 'b' then some 0x08
  else if c = 'f' then some 0x0C
  else if c = 'n' then some 0x0A
  else if c = 'r' then some 0x0D
  else if c = 't' then some 0x09
  else none

/-- The code point of a surrogate pair. -/
def pairPoint (high low : Nat) : CodePoint :=
  .ofNat (0x10000 + (high - 0xD800) * 0x400 + (low - 0xDC00))

/-- Reads a string from inside its quotes to behind them.  `start` is the position
of the opening quote, `done` holds what was read, last first. -/
def stringBody (start position : Nat) (done : Text) : Text → Except ReadError (Text × Cursor)
  | [] => .error ⟨.unterminatedString, start⟩
  | c :: rest =>
    if c = '"' then .ok (done.reverse, ⟨position + 1, rest⟩)
    else if c.val < 0x20 then .error ⟨.controlCharacter, position⟩
    else if c ≠ '\\' then stringBody start (position + 1) (c :: done) rest
    else
      match rest with
      | [] => .error ⟨.unterminatedString, start⟩
      | d :: rest =>
        if d ≠ 'u' then
          match simpleEscape? d with
          | some e => stringBody start (position + 2) (e :: done) rest
          | none => .error ⟨.badEscape, position⟩
        else
          match rest with
          | h1 :: h2 :: h3 :: h4 :: after =>
            match hexUnit? h1 h2 h3 h4 with
            | none => .error ⟨.badUnicodeEscape, position + 1⟩
            | some n =>
              match after with
              | [] => .error ⟨.badUnicodeEscape, position + 1⟩
              | b :: u :: l1 :: l2 :: l3 :: l4 :: next :: tail =>
                if 0xD800 ≤ n ∧ n ≤ 0xDBFF ∧ b = '\\' ∧ u = 'u' then
                  match hexUnit? l1 l2 l3 l4 with
                  | none => .error ⟨.badUnicodeEscape, position + 7⟩
                  | some m =>
                    if 0xDC00 ≤ m ∧ m ≤ 0xDFFF then
                      stringBody start (position + 12) (pairPoint n m :: done) (next :: tail)
                    else
                      stringBody start (position + 6) (.ofNat n :: done)
                        (b :: u :: l1 :: l2 :: l3 :: l4 :: next :: tail)
                else
                  stringBody start (position + 6) (.ofNat n :: done)
                    (b :: u :: l1 :: l2 :: l3 :: l4 :: next :: tail)
              | other => stringBody start (position + 6) (.ofNat n :: done) other
          | _ => .error ⟨.badUnicodeEscape, position + 1⟩

/-- Reads a string from its opening quote. -/
def readString (c : Cursor) : Except ReadError (Text × Cursor) :=
  stringBody c.position (c.position + 1) [] c.rest.tail

/-! ## Numbers -/

/-- The decimal digits at the front. -/
def digitsOf (t : Text) : Text := t.takeWhile (·.isDigit)

/-- The number that ASCII digits write. -/
def digitsValue (digits : Text) : Nat := ofDigits 10 (digits.map fun c => c.val - 0x30)

/-- The digits of a fraction, if one stands at the front. -/
def fractionOf (t : Text) : Text :=
  match t with
  | c :: rest => if c = '.' then digitsOf rest else []
  | [] => []

/-- Length and value of an exponent, if one stands at the front. -/
def exponentOf (t : Text) : Option (Nat × Int) :=
  match t with
  | e :: rest =>
    if e = 'e' || e = 'E' then
      let sign : Text := (rest.take 1).filter fun c : CodePoint => c = '-' || c = '+'
      let digits := digitsOf (rest.drop sign.length)
      if digits.isEmpty then none
      else
        let n : Int := digitsValue digits
        some (1 + sign.length + digits.length, if sign = [CodePoint.ofChar '-'] then -n else n)
    else none
  | [] => none

/-- The integer that digits write. -/
def integerOf (negative : Bool) (digits : Text) : Except Decimal.TooLong Json := do
  Decimal.allow digits.length
  let n : Int := digitsValue digits
  return .int (if negative then -n else n)

/-- Length and value of a number, if one stands at the front. -/
def number? (t : Text) : Option (Nat × Except Decimal.TooLong Json) :=
  let negative := t.head? = some (CodePoint.ofChar '-')
  let body := if negative then t.tail else t
  let whole := if body.head? = some (CodePoint.ofChar '0') then body.take 1 else digitsOf body
  if whole.isEmpty then none
  else
    let fraction := fractionOf (body.drop whole.length)
    let dotted := if fraction.isEmpty then 0 else fraction.length + 1
    let signed := if negative then 1 else 0
    match exponentOf (body.drop (whole.length + dotted)) with
    | none =>
      if fraction.isEmpty then some (signed + whole.length, integerOf negative whole)
      else
        some (signed + whole.length + dotted,
          .ok (.float
            (Binary64.ofDecimal negative (digitsValue (whole ++ fraction)) (-fraction.length))))
    | some (length, exponent) =>
      some (signed + whole.length + dotted + length,
        .ok (.float (Binary64.ofDecimal negative (digitsValue (whole ++ fraction))
          (exponent - fraction.length))))

/-! ## Values -/

/-- The values that are written as words. -/
def words : List (Text × Json) :=
  [("null", .null), ("true", .bool true), ("false", .bool false),
    ("NaN", .float 0x7FF8000000000000), ("Infinity", .float 0x7FF0000000000000),
    ("-Infinity", .float 0xFFF0000000000000)]

/-- A word or a number. -/
def readScalar (c : Cursor) : Except ReadError (Json × Cursor) :=
  match words.find? fun w => w.1.isPrefixOf c.rest with
  | some (word, value) => .ok (value, c.advance word.length)
  | none =>
    match number? c.rest with
    | some (length, .ok value) => .ok (value, c.advance length)
    | some (_, .error e) => c.fail (.integer e)
    | none => c.fail .expectingValue

mutual

/-- Reads a value at the cursor. -/
def readValue : Nat → Cursor → Except ReadError (Json × Cursor)
  | 0, c => c.fail .expectingValue
  | fuel + 1, c =>
    if c.isAt '"' then do
      let (t, c) ← readString c
      return (.string t, c)
    else if c.isAt '[' then
      let c := (c.advance 1).skipSpace
      if c.isAt ']' then .ok (.array [], c.advance 1)
      else readItems fuel [] c
    else if c.isAt (Char.ofNat 0x7B) then
      let c := (c.advance 1).skipSpace
      if c.isAt (Char.ofNat 0x7D) then .ok (.object [], c.advance 1)
      else readMembers fuel [] c
    else readScalar c

/-- Reads the items of an array from one of them to behind the bracket. -/
def readItems : Nat → List Json → Cursor → Except ReadError (Json × Cursor)
  | 0, _, c => c.fail .expectingValue
  | fuel + 1, done, c => do
    let (item, c) ← readValue fuel c
    let c := c.skipSpace
    if c.isAt ']' then return (.array (item :: done).reverse, c.advance 1)
    else if c.isAt ',' then readItems fuel (item :: done) (c.advance 1).skipSpace
    else c.fail .expectingComma

/-- Reads the members of an object from one of them to behind the brace. -/
def readMembers : Nat → List (Text × Json) → Cursor → Except ReadError (Json × Cursor)
  | 0, _, c => c.fail .expectingValue
  | fuel + 1, done, c => do
    if ! c.isAt '"' then c.fail .expectingName
    else
      let (name, c) ← readString c
      let c := c.skipSpace
      if ! c.isAt ':' then c.fail .expectingColon
      else
        let (value, c) ← readValue fuel (c.advance 1).skipSpace
        let c := c.skipSpace
        if c.isAt (Char.ofNat 0x7D) then
          return (ofMembers ((name, value) :: done).reverse, c.advance 1)
        else if c.isAt ',' then readMembers fuel ((name, value) :: done) (c.advance 1).skipSpace
        else c.fail .expectingComma

end

/-- Reads a text that holds one value and white space around it. -/
def read (source : Text) : Except ReadError Json :=
  if source.head? = some 0xFEFF then .error ⟨.byteOrderMark, 0⟩
  else do
    let (value, c) ← readValue (2 * source.length + 2) (Cursor.mk 0 source).skipSpace
    let c := c.skipSpace
    if c.rest.isEmpty then return value else c.fail .extraData

end ModuleDocs.Json
