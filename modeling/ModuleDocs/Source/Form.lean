import ModuleDocs.Number.Decimal
import ModuleDocs.Number.Digits
import ModuleDocs.Source.Syntax
import ModuleDocs.Term.Basic
import ModuleDocs.Text.Utf8

/-!
# Forms

A form is the name and the value of an attribute.  Strings and quoted atoms are
read with their escapes: letters such as `\n`, two hexadecimal digits as in `\x41`
and any number of them in braces.  A backslash before any other character stands
for that character.  The characters of a binary are bytes.  Integers and arities have as
many digits as `Decimal.allow` lets be read.

`Form.ofText` reads a whole source.
-/

namespace ModuleDocs.Source

/-- Why a value that is well written stands for nothing. -/
inductive ValueError where
  | badEscape (digits : Text) (at_ : Position)
  | notBytes (at_ : Position)
  | badKey (at_ : Position)
  | tooLong (error : Decimal.TooLong) (at_ : Position)
deriving DecidableEq, Repr

namespace ValueError

def position : ValueError → Position
  | .badEscape _ at_ => at_
  | .notBytes at_ => at_
  | .badKey at_ => at_
  | .tooLong _ at_ => at_

def message : ValueError → Text
  | .badEscape digits _ =>
    ("escape \\x\x7b" : Text) ++ digits ++ ("\x7d is not a valid code point" : Text)
  | .notBytes _ =>
    "binary literal characters must be bytes (<= \\xff); use \\xHH escapes for encoded text"
  | .badKey _ => "map keys must be atoms, strings, numbers or tuples"
  | .tooLong error _ => error.message

end ValueError

/-! ## Escapes -/

/-- What a one letter escape stands for. -/
def letterEscape (c : CodePoint) : CodePoint :=
  if c = 'n' then .ofNat 0x0A
  else if c = 't' then .ofNat 0x09
  else if c = 'r' then .ofNat 0x0D
  else if c = 's' then .ofNat 0x20
  else if c = 'b' then .ofNat 0x08
  else if c = 'f' then .ofNat 0x0C
  else if c = 'v' then .ofNat 0x0B
  else if c = 'e' then .ofNat 0x1B
  else if c = '0' then .ofNat 0x00
  else c

def isHex (c : CodePoint) : Bool := c.hexValue?.isSome

/-- The number that hexadecimal digits write. -/
def hexNumber (digits : Text) : Nat := ofDigits 16 (digits.map fun c => c.hexValue?.getD 0)

/-- The digits behind `\x` and the number of code points they take with their braces. -/
def hexEscape? (t : Text) : Option (Text × Nat) :=
  match t with
  | [] => none
  | c :: rest =>
    let digits := rest.takeWhile isHex
    if c.val = 0x7B ∧ ! digits.isEmpty ∧ (rest.drop digits.length).head? = some (.ofNat 0x7D) then
      some (digits, digits.length + 2)
    else
      match rest with
      | d :: _ => if isHex c ∧ isHex d then some ([c, d], 2) else none
      | [] => none

/-- Replaces escapes.  `done` holds what was read before, last first.  An escape that is
no code point is given back as its digits. -/
def unescapeFrom (done : Text) (t : Text) : Except Text Text :=
  match t with
  | [] => .ok done.reverse
  | c :: rest =>
    if c ≠ '\\' then unescapeFrom (c :: done) rest
    else
      match rest with
      | [] => .ok (c :: done).reverse
      | d :: after =>
        match if d = 'x' then hexEscape? after else none with
        | none => unescapeFrom (letterEscape d :: done) after
        | some (digits, n) =>
          let code := hexNumber digits
          if h : code < 0x110000 then unescapeFrom (⟨code, h⟩ :: done) (after.drop n)
          else .error digits
termination_by t.length
decreasing_by all_goals simp only [List.length_cons, List.length_drop]; omega

/-- The characters of a string or quoted atom. -/
def Token.contents (t : Token) : Except ValueError Text :=
  (unescapeFrom [] (t.text.drop 1).dropLast).mapError fun digits => .badEscape digits t.position

/-- The characters of strings that stand side by side. -/
def contentsOf : List Token → Except ValueError Text
  | [] => .ok []
  | t :: rest => do
    let front ← t.contents
    return front ++ (← contentsOf rest)

/-- The number that a token of digits writes, unless there are too many of them. -/
def Token.number (t : Token) : Except ValueError Nat := do
  (Decimal.allow t.text.length).mapError fun e => .tooLong e t.position
  return ofDigits 10 (t.text.map fun c => c.val - 0x30)

/-! ## Values -/

namespace Node

mutual

/-- What a value stands for. -/
def value : Node → Except ValueError Term
  | .string parts => do return .text (← contentsOf parts)
  | .binary at_ parts encoding? => do
    match Utf8.toLatin1? (← contentsOf parts) with
    | some data => return .tagged data ((encoding?.map (·.text)).getD "utf8")
    | none => .error (.notBytes at_)
  | .funRef first arity => do return .funRef first.text (← arity.number)
  | .name token => .ok (.atom token.text)
  | .quoted token => do return .atom (← token.contents)
  | .integer token => do return .int (← token.number)
  | .negative _ token => do return .int (-(← token.number : Nat))
  | .list _ items => do return .list (← values items)
  | .tuple _ items => do return .tuple (← values items)
  | .map _ pairs => do return .map (Items.ofPairs (← items pairs))

/-- What values stand for. -/
def values : List Node → Except ValueError (List Term)
  | [] => .ok []
  | node :: rest => do
    let front ← value node
    return front :: (← values rest)

/-- The items of a map as they are written. -/
def items : List (Node × Node) → Except ValueError Items
  | [] => .ok []
  | (keyNode, valueNode) :: rest => do
    let key ← value keyNode
    let t ← value valueNode
    if key.isHashable then return (key, t) :: (← items rest)
    else .error (.badKey keyNode.position)

end

end Node

/-! ## Forms -/

/-- An attribute of a source: its name, its value, and where its minus sign is. -/
structure Form where
  name : Text
  value : Term
  at_ : Position
  file? : Option Text
deriving DecidableEq, Repr

/-- Why a text is no source. -/
inductive SourceError where
  | badSyntax (error : SyntaxError)
  | badValue (error : ValueError)
deriving DecidableEq, Repr

namespace SourceError

def position : SourceError → Position
  | .badSyntax error => error.position
  | .badValue error => error.position

def message : SourceError → Text
  | .badSyntax error => error.message
  | .badValue error => error.message

end SourceError

namespace Form

/-- The forms that written forms stand for. -/
def ofNodes (file? : Option Text) : List FormNode → Except ValueError (List Form)
  | [] => .ok []
  | node :: rest => do
    let value ← node.value.value
    return ⟨node.name.text, value, node.at_, file?⟩ :: (← ofNodes file? rest)

/-- The forms of a source. -/
def ofText (t : Text) (file? : Option Text) : Except SourceError (List Form) :=
  match Forms.ofText t with
  | .error e => .error (.badSyntax e)
  | .ok nodes => (ofNodes file? nodes).mapError .badValue

end Form

end ModuleDocs.Source
