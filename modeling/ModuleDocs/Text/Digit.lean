import ModuleDocs.Number.Decimal

/-!
# Digits of all scripts

A decimal digit has a value from 0 to 9, and the ten decimal digits of a script
follow each other.  A digit in the wide sense may also be a superscript, a
circled digit or the like, which has no place in a decimal number.  The tables
are those of Unicode 14.

`Text.toNat?` reads the digits of any script, and `Text.toInt?` an integer as a
command line gives it.  `Text.decimalLength` counts the digits in front.
-/

namespace ModuleDocs

namespace CodePoint

/-- The digit zero of each script. -/
def decimalZeros : List Nat :=
  [
    0x30, 0x660, 0x6F0, 0x7C0, 0x966, 0x9E6, 0xA66, 0xAE6, 0xB66, 0xBE6, 0xC66, 0xCE6,
    0xD66, 0xDE6, 0xE50, 0xED0, 0xF20, 0x1040, 0x1090, 0x17E0, 0x1810, 0x1946, 0x19D0,
    0x1A80, 0x1A90, 0x1B50, 0x1BB0, 0x1C40, 0x1C50, 0xA620, 0xA8D0, 0xA900, 0xA9D0, 0xA9F0,
    0xAA50, 0xABF0, 0xFF10, 0x104A0, 0x10D30, 0x11066, 0x110F0, 0x11136, 0x111D0, 0x112F0,
    0x11450, 0x114D0, 0x11650, 0x116C0, 0x11730, 0x118E0, 0x11950, 0x11C50, 0x11D50,
    0x11DA0, 0x16A60, 0x16AC0, 0x16B50, 0x1D7CE, 0x1D7D8, 0x1D7E2, 0x1D7EC, 0x1D7F6,
    0x1E140, 0x1E2F0, 0x1E950, 0x1FBF0
  ]

/-- First and last code point of each range of digits that are not decimal. -/
def otherDigits : List (Nat × Nat) :=
  [
    (0xB2, 0xB3), (0xB9, 0xB9), (0x1369, 0x1371), (0x19DA, 0x19DA), (0x2070, 0x2070),
    (0x2074, 0x2079), (0x2080, 0x2089), (0x2460, 0x2468), (0x2474, 0x247C),
    (0x2488, 0x2490), (0x24EA, 0x24EA), (0x24F5, 0x24FD), (0x24FF, 0x24FF),
    (0x2776, 0x277E), (0x2780, 0x2788), (0x278A, 0x2792), (0x10A40, 0x10A43),
    (0x10E60, 0x10E68), (0x11052, 0x1105A), (0x1F100, 0x1F10A)
  ]

/-- First and last code point of each range of white space past ASCII. -/
def wideSpaces : List (Nat × Nat) :=
  [
    (0x85, 0x85), (0xA0, 0xA0), (0x1680, 0x1680), (0x2000, 0x200A), (0x2028, 0x2029),
    (0x202F, 0x202F), (0x205F, 0x205F), (0x3000, 0x3000)
  ]

/-- The value of a decimal digit. -/
def decimalValue? (c : CodePoint) : Option Nat :=
  (decimalZeros.find? fun first => first ≤ c.val && c.val < first + 10).map (c.val - ·)

/-- The code points that count as digits, decimal or not. -/
def isAnyDigit (c : CodePoint) : Bool :=
  c.decimalValue?.isSome || otherDigits.any fun (first, last) => first ≤ c.val && c.val ≤ last

/-- White space around a number: the ASCII kinds and the wide ones. -/
def isSpaceAroundNumber (c : CodePoint) : Bool :=
  c.val = 0x20 || (0x09 ≤ c.val && c.val ≤ 0x0D)
    || wideSpaces.any fun (first, last) => first ≤ c.val && c.val ≤ last

end CodePoint

namespace Text

/-- The number of decimal digits in front of anything else. -/
def decimalLength (t : Text) : Nat := (t.takeWhile (·.decimalValue?.isSome)).length

/-- The number that decimal digits write on from `value`. -/
def digitsFrom? (value : Nat) : Text → Option Nat
  | [] => some value
  | c :: rest => do digitsFrom? (value * 10 + (← c.decimalValue?)) rest

/-- The number that one or more decimal digits write. -/
def toNat? (t : Text) : Option Nat := if t.isEmpty then none else digitsFrom? 0 t

/-- Reads digits between two of which one underscore may stand. -/
def groupedFrom? (value : Nat) : Text → Option Nat
  | [] => some value
  | c :: rest =>
    if c = '_' then
      match rest with
      | [] => none
      | d :: rest => do groupedFrom? (value * 10 + (← d.decimalValue?)) rest
    else do groupedFrom? (value * 10 + (← c.decimalValue?)) rest

/-- The number that digits with single underscores between them write, if they are not
too many. -/
def grouped? (t : Text) : Option Nat :=
  if Decimal.maxDigits < t.countP (·.decimalValue?.isSome) then none
  else
    match t with
    | [] => none
    | c :: rest => do groupedFrom? (← c.decimalValue?) rest

/-- A text without the white space at its ends. -/
def trimNumber (t : Text) : Text :=
  ((t.dropWhile (·.isSpaceAroundNumber)).reverse.dropWhile (·.isSpaceAroundNumber)).reverse

/-- An integer: white space around it is dropped, one sign may stand before the
digits, and single underscores between them. -/
def toInt? (t : Text) : Option Int :=
  match trimNumber t with
  | [] => none
  | c :: rest =>
    if c = '-' then (grouped? rest).map fun n => -(n : Int)
    else if c = '+' then (grouped? rest).map fun n => (n : Int)
    else (grouped? (c :: rest)).map fun n => (n : Int)

end Text

end ModuleDocs
