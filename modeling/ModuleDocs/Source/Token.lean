import ModuleDocs.Text.Quoted

/-!
# Tokens

A source is a sequence of tokens between white space and comments, which run from
a percent sign to the end of the line.  A token is found at its first character,
and is as long as its kind allows; no two kinds start with the same characters.

`Tokens.ofText` cuts a text into tokens up to the first place where none starts.
-/

namespace ModuleDocs.Source

/-- A line and a column, both counted from 1.  Only a line feed ends a line. -/
structure Position where
  line : Nat
  column : Nat
deriving DecidableEq, Repr

namespace Position

def first : Position := ⟨1, 1⟩

/-- The position behind a code point. -/
def next (p : Position) (c : CodePoint) : Position :=
  if c = '\n' then ⟨p.line + 1, 1⟩ else ⟨p.line, p.column + 1⟩

/-- The position behind a text. -/
def after (p : Position) (t : Text) : Position := t.foldl next p

end Position

inductive TokenKind where
  | name
  | quotedAtom
  | string
  | integer
  | leftParen
  | rightParen
  | minus
  | dot
  | slash
  | comma
  | leftBracket
  | rightBracket
  | leftBrace
  | rightBrace
  | openBinary
  | closeBinary
  | openMap
  | arrow
deriving DecidableEq, Repr

/-- The name of a kind in messages. -/
def TokenKind.label : TokenKind → Text
  | .name => "NAME"
  | .quotedAtom => "QATOM"
  | .string => "STRING"
  | .integer => "INT"
  | .leftParen => "LPAR"
  | .rightParen => "RPAR"
  | .minus => "MINUS"
  | .dot => "DOT"
  | .slash => "SLASH"
  | .comma => "COMMA"
  | .leftBracket => "LSQB"
  | .rightBracket => "RSQB"
  | .leftBrace => "LBRACE"
  | .rightBrace => "RBRACE"
  | .openBinary => "__ANON_0"
  | .closeBinary => "__ANON_1"
  | .openMap => "__ANON_2"
  | .arrow => "__ANON_3"

structure Token where
  kind : TokenKind
  text : Text
  position : Position
deriving DecidableEq, Repr

/-! ## Characters -/

def isSpace (c : CodePoint) : Bool :=
  c = ' ' || c = '\t' || c = '\r' || c = '\n' || c.val = 0x0C

/-- What a name may hold behind its first letter. -/
def isNamePart (c : CodePoint) : Bool :=
  c.isLower || c.isUpper || c.isDigit || c = '_' || c = '@'

/-- The length of a literal behind its opening quote, the closing one included.  A
backslash takes the next character with it, which may be no line feed. -/
def literalLength? (quote : CodePoint) (acrossLines : Bool) (length : Nat) : Text → Option Nat
  | [] => none
  | c :: rest =>
    if c = quote then some (length + 1)
    else if c = '\\' then
      match rest with
      | [] => none
      | d :: rest =>
        if d = '\n' then none else literalLength? quote acrossLines (length + 2) rest
    else if c = '\n' && ! acrossLines then none
    else literalLength? quote acrossLines (length + 1) rest

/-- The tokens of one character. -/
def single? (c : CodePoint) : Option TokenKind :=
  if c = '(' then some .leftParen
  else if c = ')' then some .rightParen
  else if c = '-' then some .minus
  else if c = '.' then some .dot
  else if c = '/' then some .slash
  else if c = ',' then some .comma
  else if c = '[' then some .leftBracket
  else if c = ']' then some .rightBracket
  else if c.val = 0x7B then some .leftBrace
  else if c.val = 0x7D then some .rightBrace
  else none

/-- The tokens of two characters. -/
def double? (c d : CodePoint) : Option TokenKind :=
  if c = '<' ∧ d = '<' then some .openBinary
  else if c = '>' ∧ d = '>' then some .closeBinary
  else if c = '#' ∧ d.val = 0x7B then some .openMap
  else if c = '=' ∧ d = '>' then some .arrow
  else none

/-- What starts at a code point: a token, or white space or a comment, and the number of
further code points it has. -/
def lexeme? (c : CodePoint) (rest : Text) : Option (Option TokenKind × Nat) :=
  if isSpace c then some (none, (rest.takeWhile isSpace).length)
  else if c = '%' then
    some (none, (rest.takeWhile fun d => d ≠ CodePoint.ofChar '\n').length)
  else if c.isLower then some (some .name, (rest.takeWhile isNamePart).length)
  else if c.isDigit then some (some .integer, (rest.takeWhile (·.isDigit)).length)
  else if c = '\'' then (literalLength? c false 0 rest).map fun n => (some .quotedAtom, n)
  else if c = '"' then (literalLength? c true 0 rest).map fun n => (some .string, n)
  else
    match single? c with
    | some kind => some (some kind, 0)
    | none =>
      match rest with
      | d :: _ => (double? c d).map fun kind => (some kind, 1)
      | [] => none

/-! ## Token lists -/

/-- The tokens of a text up to its end, or up to a code point at which none starts. -/
structure Tokens where
  tokens : List Token
  stop? : Option (CodePoint × Position)
deriving DecidableEq, Repr

namespace Tokens

/-- Reads on from a position.  `done` holds the tokens before it, last first. -/
def ofTextFrom (done : List Token) (at_ : Position) (t : Text) : Tokens :=
  match t with
  | [] => ⟨done.reverse, none⟩
  | c :: rest =>
    match lexeme? c rest with
    | none => ⟨done.reverse, some (c, at_)⟩
    | some (kind?, n) =>
      let text := c :: rest.take n
      let done :=
        match kind? with
        | some kind => ⟨kind, text, at_⟩ :: done
        | none => done
      ofTextFrom done (at_.after text) (rest.drop n)
termination_by t.length
decreasing_by simp only [List.length_cons, List.length_drop]; omega

/-- The tokens of a text. -/
def ofText (t : Text) : Tokens := ofTextFrom [] .first t

end Tokens

end ModuleDocs.Source
