import ModuleDocs.Text.Basic

/-!
# Double precision numbers

A floating point number is its 64 bits.  `Binary64.classify` reads them as an
exact dyadic value, and `Binary64.ofDecimal` rounds a decimal number to the
nearest one, a tie to the even neighbour.  All arithmetic is on natural numbers.
-/

namespace ModuleDocs.Binary64

/-- What the bits stand for.  A finite value is `mantissa * 2 ^ exponent`. -/
inductive Value where
  | nan
  | infinite (negative : Bool)
  | finite (negative : Bool) (mantissa : Nat) (exponent : Int)
deriving DecidableEq, Repr

/-- The number of fractions between a power of two and the next one. -/
def fractions : Nat := 1 <<< 52

/-- The value that bits stand for: the sign bit, eleven bits of the exponent, and the
fraction. -/
def classify (bits : UInt64) : Value :=
  let n := bits.toNat
  let negative : Bool := n >>> 63 = 1
  let field : Nat := (n >>> 52) % 2048
  let fraction : Nat := n % fractions
  if field = 2047 then
    if fraction = 0 then .infinite negative else .nan
  else if field = 0 then .finite negative fraction (-1074)
  else .finite negative (fraction + fractions) ((field : Int) - 1075)

/-- A value that is no number is equal to none, itself included. -/
def isNaN (bits : UInt64) : Bool := classify bits = .nan

/-- Zero, of either sign. -/
def isZero (bits : UInt64) : Bool :=
  match classify bits with
  | .finite _ m _ => m = 0
  | _ => false

/-- The integer that a value without fractional part is. -/
def toInt? (bits : UInt64) : Option Int :=
  match classify bits with
  | .finite negative m q =>
    let sign : Int := if negative then -1 else 1
    let whole : Nat := if 0 ≤ q then m <<< q.toNat else m >>> (-q).toNat
    if 0 ≤ q ∨ whole <<< (-q).toNat = m then some (sign * whole) else none
  | _ => none

/-- The exact value of finite bits. -/
def toRat? (bits : UInt64) : Option Rat :=
  match classify bits with
  | .finite negative m q =>
    let sign : Int := if negative then -1 else 1
    some (mkRat (sign * (m <<< q.toNat : Nat)) (1 <<< (-q).toNat))
  | _ => none

/-- The bits of zero and of infinity with a sign. -/
def signed (negative : Bool) (magnitude : Nat) : UInt64 :=
  UInt64.ofNat (magnitude + if negative then 1 <<< 63 else 0)

/-- The bits of infinity without its sign. -/
def infinityBits : Nat := 2047 * fractions

/-- `num / den` to the nearest natural number, a tie to the even one. -/
def roundDiv (num den : Nat) : Nat :=
  let down := num / den
  let rest := num % den
  if 2 * rest < den then down
  else if den < 2 * rest then down + 1
  else if down % 2 = 0 then down
  else down + 1

/-- The magnitude bits nearest to `num / den`, for positive `num` and `den`. -/
def roundMagnitude (num den : Nat) : Nat :=
  let guess : Int := (Nat.log2 num : Int) - Nat.log2 den
  let log : Int :=
    if 0 ≤ guess then (if num < den <<< guess.toNat then guess - 1 else guess)
    else (if num <<< (-guess).toNat < den then guess - 1 else guess)
  let exponent : Int := max (log - 52) (-1074)
  let mantissa :=
    if 0 ≤ exponent then roundDiv num (den <<< exponent.toNat)
    else roundDiv (num <<< (-exponent).toNat) den
  min infinityBits (mantissa + (exponent + 1074).toNat * fractions)

/-- A whole number that is not above the binary logarithm of `10 ^ exponent`, and one that
is not below it.  The power `10 ^ 10000` lies between `2 ^ 33219` and `2 ^ 33220`. -/
def logOfTen (exponent : Int) : Int × Int :=
  let a := exponent * 33219 / 10000
  let b := exponent * 33220 / 10000
  (min a b, max a b + 1)

/-- The bits nearest to `digits * 10 ^ exponent`.  A number far outside the range
is settled by its size alone. -/
def ofDecimal (negative : Bool) (digits : Nat) (exponent : Int) : UInt64 :=
  if digits = 0 then signed negative 0
  else
    let log : Int := Nat.log2 digits
    let (low, high) := logOfTen exponent
    if 1024 < log + low then signed negative infinityBits
    else if log + 1 + high < -1080 then signed negative 0
    else if 0 ≤ exponent then signed negative (roundMagnitude (digits * Nat.pow 10 exponent.toNat) 1)
    else signed negative (roundMagnitude digits (Nat.pow 10 (-exponent).toNat))

end ModuleDocs.Binary64
