import ModuleDocs.Term.Basic
import ModuleDocs.Order.Ascending

/-!
# The order of terms

Numbers are ordered by exact value, texts and atoms by code point, byte strings
by byte, lists and tuples by their first unlike part, sets by inclusion.  No other
two terms can be compared.
-/

namespace ModuleDocs

/-- Two values of types that have no order between them. -/
structure Incomparable where
  left : Text
  right : Text
deriving DecidableEq, Repr

def Incomparable.message (e : Incomparable) : Text :=
  ("'<' not supported between instances of '" : Text) ++ e.left ++ ("' and '" : Text) ++ e.right
    ++ ("'" : Text)

namespace Term

/-- A number, or one of the two infinities. -/
inductive Quantity where
  | nan
  | negativeInfinity
  | exact (value : Rat)
  | positiveInfinity

/-- The value of a term that is a number. -/
def quantity? : Term → Option Quantity
  | .bool b => some (.exact (if b then 1 else 0))
  | .int i => some (.exact i)
  | .float bits =>
    match Binary64.classify bits with
    | .nan => some .nan
    | .infinite true => some .negativeInfinity
    | .infinite false => some .positiveInfinity
    | .finite .. => (Binary64.toRat? bits).map .exact
  | _ => Option.none

def Quantity.less : Quantity → Quantity → Bool
  | .nan, _ => false
  | _, .nan => false
  | .negativeInfinity, .negativeInfinity => false
  | .negativeInfinity, _ => true
  | .exact _, .negativeInfinity => false
  | .exact a, .exact b => a < b
  | .exact _, .positiveInfinity => true
  | .positiveInfinity, _ => false

mutual

/-- Equality of values, under which maps need not have their items in one order. -/
def same : Term → Term → Bool
  | .list as, .list bs => sameAll as bs
  | .tuple as, .tuple bs => sameAll as bs
  | .map as, .map bs => as.length = bs.length && sameItems as bs
  | a, b => keyEq a b

def sameAll : List Term → List Term → Bool
  | [], [] => true
  | a :: as, b :: bs => same a b && sameAll as bs
  | _, _ => false

def sameItems : Items → Items → Bool
  | [], _ => true
  | (key, value) :: rest, items =>
    (match Items.get? key items with
      | some other => same value other
      | Option.none => false) && sameItems rest items

end

/-- Types of sets.  Only empty ones arise, none of which is part of another. -/
def setTypes : List Text := ["set"]

/-- Whether a term is a set. -/
def isSet : Term → Bool
  | .foreign name => setTypes.contains name
  | _ => false

/-- Whether one term without parts is before another, if they can be compared. -/
def lessWhole (a b : Term) : Except Incomparable Bool :=
  match a.quantity?, b.quantity? with
  | some x, some y => .ok (x.less y)
  | _, _ =>
    match a.chars?, b.chars? with
    | some s, some t => .ok (decide (s < t))
    | _, _ =>
      match a.byteString?, b.byteString? with
      | some s, some t => .ok (decide (s < t))
      | _, _ => if a.isSet && b.isSet then .ok false else .error ⟨a.typeName, b.typeName⟩

mutual

/-- Whether one term is before another, if they can be compared. -/
def less : Term → Term → Except Incomparable Bool
  | .list as, .list bs => lessAll as bs
  | .tuple as, .tuple bs => lessAll as bs
  | a, b => lessWhole a b

def lessAll : List Term → List Term → Except Incomparable Bool
  | [], [] => .ok false
  | [], _ :: _ => .ok true
  | _ :: _, [] => .ok false
  | a :: as, b :: bs => if same a b then lessAll as bs else less a b

end

end Term

end ModuleDocs
