import ModuleDocs.Term.Basic
import ModuleDocs.Number.Decimal
import ModuleDocs.Number.Shortest
import ModuleDocs.Text.Quoted

/-!
# Terms in messages

`Term.display` writes a term so that its type can be told: texts are quoted,
atoms and tagged bytes are named.  `Term.plain` writes a text or an atom as it is
and any other term as `Term.display` does.  A term with an integer of too many digits
cannot be written.
-/

namespace ModuleDocs.Term

/-- Numbers from 10 ^ -4 up to 10 ^ 16 are positional. -/
def floatLayout : Shortest.Layout := ⟨-3, 16, 2, "nan", "inf"⟩

mutual

/-- A term as a message names it. -/
def display : Term → Except Decimal.TooLong Text
  | .none => .ok "None"
  | .bool true => .ok "True"
  | .bool false => .ok "False"
  | .int i => Decimal.write i
  | .float bits => .ok (floatLayout.text bits)
  | .bytes data => .ok (quotedBytes data)
  | .text t => .ok t.quoted
  | .atom t => .ok (("Atom(" : Text) ++ t.quoted ++ (")" : Text))
  | .tagged data encoding =>
    .ok (("EncodedBytes(data=" : Text) ++ quotedBytes data ++ (", encoding=" : Text)
      ++ Text.quoted encoding ++ (")" : Text))
  | .list items => do
    return ("[" : Text) ++ Text.join ", " (← displayAll items) ++ ("]" : Text)
  | .tuple items => do
    let parts ← displayAll items
    return ("(" : Text) ++ Text.join ", " parts
      ++ (if parts.length = 1 then Text.ofString ",)" else Text.ofString ")")
  | .map items => do
    return ("\x7b" : Text) ++ Text.join ", " (← displayItems items) ++ ("\x7d" : Text)
  | .funRef name arity => do
    return ("FunRef(name=" : Text) ++ Text.quoted name ++ (", arity=" : Text)
      ++ (← Decimal.write arity) ++ (")" : Text)
  | .foreign name => .ok (("<" : Text) ++ name ++ (">" : Text))

def displayAll : List Term → Except Decimal.TooLong (List Text)
  | [] => .ok []
  | t :: rest => do
    let first ← display t
    return first :: (← displayAll rest)

def displayItems : Items → Except Decimal.TooLong (List Text)
  | [] => .ok []
  | (key, value) :: rest => do
    let name ← display key
    let shown ← display value
    return (name ++ (": " : Text) ++ shown) :: (← displayItems rest)

end

/-- A term as running text. -/
def plain (t : Term) : Except Decimal.TooLong Text :=
  match t.chars? with
  | some chars => .ok chars
  | Option.none => t.display

end ModuleDocs.Term
