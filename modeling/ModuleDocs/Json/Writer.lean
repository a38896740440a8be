import ModuleDocs.Json.Basic
import ModuleDocs.Number.Shortest

/-!
# Writing JSON

A `Json.Style` fixes the separators, whether all but ASCII is escaped and
whether the value is spread over indented lines.  Quotes, backslashes and
control characters are always escaped.
-/

namespace ModuleDocs.Json

/-- How a value is written. -/
structure Style where
  /-- Characters past ASCII, and DEL, are escaped. -/
  asciiOnly : Bool
  itemSeparator : String
  nameSeparator : String
  /-- Columns by which each level of an array or object is indented on lines of its own. -/
  indent? : Option Nat

/-- Everything on one line, a blank after each separator, ASCII only. -/
def Style.plain : Style := ⟨true, ", ", ": ", none⟩

/-- Everything on one line, a blank after each separator. -/
def Style.readable : Style := ⟨false, ", ", ": ", none⟩

/-- No blanks. -/
def Style.compact : Style := ⟨false, ",", ":", none⟩

/-- No blanks, ASCII only. -/
def Style.compactAscii : Style := ⟨true, ",", ":", none⟩

/-- Each item on a line of its own, two columns per level, ASCII only. -/
def Style.indented : Style := ⟨true, ",", ": ", some 2⟩

/-- Numbers from 10 ^ -4 up to 10 ^ 16 are positional. -/
def floatLayout : Shortest.Layout := ⟨-3, 16, 2, "NaN", "Infinity"⟩

/-- A four digit escape of a UTF-16 unit. -/
def escapeUnit (n : Nat) : Text := ("\\u" : Text) ++ Text.hexPadded 4 n

/-- One code point of a string. -/
def writePoint (s : Style) (c : CodePoint) : Text :=
  if c = '"' then "\\\""
  else if c = '\\' then "\\\\"
  else if c = '\n' then "\\n"
  else if c = '\r' then "\\r"
  else if c = '\t' then "\\t"
  else if c.val = 0x0C then "\\f"
  else if c.val = 0x08 then "\\b"
  else if c.val < 0x20 then escapeUnit c.val
  else if ! s.asciiOnly || c.val < 0x7F then [c]
  else if c.val < 0x10000 then escapeUnit c.val
  else
    escapeUnit (0xD800 + (c.val - 0x10000) / 0x400) ++ escapeUnit (0xDC00 + c.val % 0x400)

/-- A string between its quotes. -/
def writeString (s : Style) (t : Text) : Text :=
  CodePoint.ofChar '"' :: (t.flatMap (writePoint s) ++ [CodePoint.ofChar '"'])

/-- A line break and the indentation of a level, for a style that has lines. -/
def lineBreak (s : Style) (level : Nat) : Text :=
  match s.indent? with
  | none => []
  | some n => CodePoint.ofChar '\n' :: List.replicate (n * level) (CodePoint.ofChar ' ')

/-- Parts between brackets. -/
def bracketed (s : Style) (level : Nat) (left right : Char) (parts : List Text) : Text :=
  if parts.isEmpty then [CodePoint.ofChar left, CodePoint.ofChar right]
  else
    CodePoint.ofChar left :: lineBreak s (level + 1)
      ++ Text.join (Text.ofString s.itemSeparator ++ lineBreak s (level + 1)) parts
      ++ lineBreak s level ++ [CodePoint.ofChar right]

mutual

/-- The text of a value inside `level` arrays and objects. -/
def writeAt (s : Style) (level : Nat) : Json → Text
  | .null => "null"
  | .bool true => "true"
  | .bool false => "false"
  | .int i => Text.ofInt i
  | .float bits => floatLayout.text bits
  | .string t => writeString s t
  | .array items => bracketed s level '[' ']' (writeItems s (level + 1) items)
  | .object members =>
    bracketed s level (Char.ofNat 0x7B) (Char.ofNat 0x7D) (writeMembers s (level + 1) members)

def writeItems (s : Style) (level : Nat) : List Json → List Text
  | [] => []
  | j :: rest => writeAt s level j :: writeItems s level rest

def writeMembers (s : Style) (level : Nat) : List (Text × Json) → List Text
  | [] => []
  | (name, j) :: rest =>
    (writeString s name ++ Text.ofString s.nameSeparator ++ writeAt s level j)
      :: writeMembers s level rest

end

/-- The text of a value. -/
def write (s : Style) (j : Json) : Text := writeAt s 0 j

end ModuleDocs.Json
