/-!
# Texts and byte strings

A text is a list of Unicode code points.  Unlike `String` it can hold lone
surrogates, which a source file can write with an escape and which no
well-formed byte sequence decodes to.  A byte string is a list of bytes.

`Text.ofString` turns the fixed words of the program into texts, and
`Text.ofNat`, `Text.ofInt` and `Text.hexOfNat` write numbers.
-/

namespace ModuleDocs

/-- A Unicode code point.  Surrogates are included. -/
abbrev CodePoint := Fin 0x110000

/-- A sequence of code points. -/
abbrev Text := List CodePoint

/-- A sequence of bytes. -/
abbrev Bytes := List UInt8

namespace CodePoint

/-- The code point of a character. -/
def ofChar (c : Char) : CodePoint :=
  ⟨c.toNat, by
    have := c.valid
    simp only [Char.toNat, UInt32.isValidChar, Nat.isValidChar] at *
    omega⟩

instance : Coe Char CodePoint := ⟨ofChar⟩

/-- The code point with number `n`; a number past the last one gives the last one. -/
def ofNat (n : Nat) : CodePoint := ⟨min n 0x10FFFF, by omega⟩

/-- Surrogates are the code points that UTF-8 cannot write. -/
def isSurrogate (c : CodePoint) : Bool := 0xD800 ≤ c.val && c.val ≤ 0xDFFF

/-- The ASCII decimal digits. -/
def isDigit (c : CodePoint) : Bool := 0x30 ≤ c.val && c.val ≤ 0x39

/-- The ASCII lower case letters. -/
def isLower (c : CodePoint) : Bool := 0x61 ≤ c.val && c.val ≤ 0x7A

/-- The ASCII upper case letters. -/
def isUpper (c : CodePoint) : Bool := 0x41 ≤ c.val && c.val ≤ 0x5A

/-- The value of an ASCII hexadecimal digit, in either letter case. -/
def hexValue? (c : CodePoint) : Option Nat :=
  if c.isDigit then some (c.val - 0x30)
  else if 0x61 ≤ c.val && c.val ≤ 0x66 then some (c.val - 0x57)
  else if 0x41 ≤ c.val && c.val ≤ 0x46 then some (c.val - 0x37)
  else none

/-- Upper case ASCII letters become lower case and nothing else changes. -/
def toLower (c : CodePoint) : CodePoint :=
  if c.isUpper then ofNat (c.val + 0x20) else c

end CodePoint

namespace Text

/-- The text of a string. -/
def ofString (s : String) : Text := s.toList.map CodePoint.ofChar

instance : Coe String Text := ⟨ofString⟩

/-- A number in decimal digits, without sign or leading zeros. -/
def ofNat (n : Nat) : Text := (Nat.toDigits 10 n).map CodePoint.ofChar

/-- An integer in decimal digits, with a minus sign when it is negative. -/
def ofInt (i : Int) : Text :=
  if i < 0 then CodePoint.ofChar '-' :: ofNat i.natAbs else ofNat i.natAbs

/-- A number in lower case hexadecimal digits. -/
def hexOfNat (n : Nat) : Text := (Nat.toDigits 16 n).map CodePoint.ofChar

/-- A number in at least `width` lower case hexadecimal digits. -/
def hexPadded (width n : Nat) : Text :=
  let digits := hexOfNat n
  List.replicate (width - digits.length) (CodePoint.ofChar '0') ++ digits

/-- Two hexadecimal digits for each byte. -/
def hexOfBytes (data : Bytes) : Text := data.flatMap fun b => hexPadded 2 b.toNat

/-- ASCII letters in lower case. -/
def toLower (t : Text) : Text := t.map CodePoint.toLower

/-- The parts one after the other with a separator between two of them. -/
def join (separator : Text) (parts : List Text) : Text := separator.intercalate parts

/-- The text before the first occurrence of `c` and the text after it, if there is one. -/
def splitFirst? (c : CodePoint) : Text → Option (Text × Text)
  | [] => none
  | d :: rest =>
    if d = c then some ([], rest)
    else (splitFirst? c rest).map fun (before, after) => (d :: before, after)

/-- The text before the last occurrence of `c` and the text after it, if there is one. -/
def splitLast? (c : CodePoint) : Text → Option (Text × Text)
  | [] => none
  | d :: rest =>
    match splitLast? c rest with
    | some (before, after) => some (d :: before, after)
    | none => if d = c then some ([], rest) else none

/-- Lexicographic order by code point. -/
def le (a b : Text) : Bool := ! decide (b < a)

end Text

end ModuleDocs
