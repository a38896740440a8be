import ModuleDocs.Text.Printable

/-!
# Quoted texts

A text that an error message names as a value stands between quotes.  They are
single quotes, unless the text has a single quote and no double one.  The
backslash, the quote itself and all that is not printable are escaped.

Byte strings are quoted by the same rule with a `b` in front, where all but the
printable ASCII bytes are escaped.
-/

namespace ModuleDocs

/-- The quote that needs fewer escapes: the single one where both do. -/
def chooseQuote (t : Text) : CodePoint :=
  if t.contains (CodePoint.ofChar '\'') && ! t.contains (CodePoint.ofChar '"') then '"' else '\''

/-- A control character with an escape of its own. -/
def shortEscape? (c : CodePoint) : Option Text :=
  if c = '\n' then some "\\n"
  else if c = '\r' then some "\\r"
  else if c = '\t' then some "\\t"
  else none

/-- One code point between quotes. -/
def quotePoint (quote c : CodePoint) : Text :=
  if c = quote || c = '\\' then ['\\', c]
  else
    match shortEscape? c with
    | some escape => escape
    | none =>
      if c.isPrintable then [c]
      else if c.val < 0x100 then ("\\x" : Text) ++ Text.hexPadded 2 c.val
      else if c.val < 0x10000 then ("\\u" : Text) ++ Text.hexPadded 4 c.val
      else ("\\U" : Text) ++ Text.hexPadded 8 c.val

/-- A text between quotes. -/
def Text.quoted (t : Text) : Text :=
  let quote := chooseQuote t
  quote :: (t.flatMap (quotePoint quote) ++ [quote])

/-- One byte between quotes. -/
def quoteByte (quote c : CodePoint) : Text :=
  if c.val < 0x7F then quotePoint quote c else ("\\x" : Text) ++ Text.hexPadded 2 c.val

/-- A byte string between quotes. -/
def quotedBytes (data : Bytes) : Text :=
  let points : Text := data.map fun b => .ofNat b.toNat
  let quote := chooseQuote points
  'b' :: quote :: (points.flatMap (quoteByte quote) ++ [quote])

end ModuleDocs
