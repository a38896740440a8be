import ModuleDocs.Number.Binary64

/-!
# The shortest decimal that reads back

A double precision number is written with the fewest significant digits that
read back as the same number; of the decimals with that many digits it is the
nearest, and of two equally near the one with the even last digit.

`Shortest.digits` finds them in exact arithmetic: for one digit, two digits and
so on it tries the two points next to the value on the decimal grid.
`Shortest.layout` puts them in positional or exponent form.
-/

namespace ModuleDocs.Shortest

/-- The open or closed interval of reals that round to a value, all three times
`unit`, a power of two: `low`, the value and `high`. -/
structure Interval where
  low : Nat
  value : Nat
  high : Nat
  closed : Bool
  /-- The numbers above are multiples of `num / den`. -/
  num : Nat
  den : Nat

/-- The interval around `m * 2 ^ q`.  Below a power of two the spacing halves. -/
def interval (m : Nat) (q : Int) : Interval :=
  let below := if m = Binary64.fractions ∧ -1074 < q then 1 else 2
  { low := 4 * m - below, value := 4 * m, high := 4 * m + 2, closed := m % 2 = 0
    num := 1 <<< (q - 2).toNat, den := 1 <<< (2 - q).toNat }

/-- Whether the decimal `digits * 10 ^ exponent` lies in the interval. -/
def Interval.holds (i : Interval) (digits : Nat) (exponent : Int) : Bool :=
  let point := digits * Nat.pow 10 exponent.toNat * i.den
  let scale := Nat.pow 10 (-exponent).toNat * i.num
  if i.closed then i.low * scale ≤ point && point ≤ i.high * scale
  else i.low * scale < point && point < i.high * scale

/-- The greatest `d` with `d * 10 ^ exponent` not above the value, and twice the
part of the value that is left over, compared with one step of the grid. -/
def Interval.below (i : Interval) (exponent : Int) : Nat × Ordering :=
  let num := i.value * i.num * Nat.pow 10 (-exponent).toNat
  let den := i.den * Nat.pow 10 exponent.toNat
  (num / den, compare (2 * (num % den)) den)

/-- The digits on the grid of step `10 ^ exponent`, if one of its points near the
value lies in the interval. -/
def Interval.onGrid? (i : Interval) (exponent : Int) : Option Nat :=
  let (d, side) := i.below exponent
  match i.holds d exponent, i.holds (d + 1) exponent with
  | true, true =>
    match side with
    | .lt => some d
    | .gt => some (d + 1)
    | .eq => some (if d % 2 = 0 then d else d + 1)
  | true, false => some d
  | false, true => some (d + 1)
  | false, false => none

/-- The number `places` of decimal digits before the point of the value, or less
the number of zeros after it. -/
def Interval.places (i : Interval) : Int :=
  let num := i.value * i.num
  if i.den ≤ num then (Nat.toDigits 10 (num / i.den)).length
  else 1 - (Nat.toDigits 10 ((i.den + num - 1) / num - 1)).length

/-- The digits of the first grid that holds a point of the interval, of at most
`grids` grids from step `10 ^ exponent` downwards, with its exponent. -/
def Interval.search (i : Interval) (exponent : Int) : Nat → Nat × Int
  | 0 => ((i.below exponent).1, exponent)
  | grids + 1 =>
    match i.onGrid? exponent with
    | some d => (d, exponent)
    | none => i.search (exponent - 1) grids

/-- Drops zeros from the end of a number that has at most `fuel` digits. -/
def dropZeros (n : Nat) (exponent : Int) : Nat → Nat × Int
  | 0 => (n, exponent)
  | fuel + 1 => if n % 10 = 0 ∧ n ≠ 0 then dropZeros (n / 10) (exponent + 1) fuel else (n, exponent)

/-- The shortest decimal for `m * 2 ^ q` with positive `m`: its digits, the last of
which is not zero, and its exponent of ten. -/
def digits (m : Nat) (q : Int) : Nat × Int :=
  let i := interval m q
  let (n, exponent) := i.search (i.places - 1) 18
  dropZeros n exponent 20

/-- How numbers are laid out. -/
structure Layout where
  /-- Positional form is used when the point stands after at least this many digits … -/
  fewestPlaces : Int
  /-- … and at most this many. -/
  mostPlaces : Int
  /-- The exponent has at least this many digits. -/
  exponentWidth : Nat
  nan : String
  infinity : String

/-- A sign, the digits `n` and a point so that the number is `n * 10 ^ exponent`. -/
def Layout.finite (l : Layout) (n : Nat) (exponent : Int) : Text :=
  let digits := Text.ofNat n
  let places : Int := digits.length + exponent
  let zeros (k : Int) : Text := List.replicate k.toNat '0'
  if places < l.fewestPlaces || l.mostPlaces < places then
    let e := places - 1
    let size := Text.ofNat e.natAbs
    let tail : Text := if digits.length = 1 then [] else CodePoint.ofChar '.' :: digits.drop 1
    let mark : Text := if e < 0 then "e-" else "e+"
    digits.take 1 ++ tail ++ mark
      ++ List.replicate (l.exponentWidth - size.length) (CodePoint.ofChar '0') ++ size
  else if places ≤ 0 then ("0." : Text) ++ zeros (-places) ++ digits
  else if digits.length ≤ places then digits ++ zeros (places - digits.length) ++ (".0" : Text)
  else digits.take places.toNat ++ CodePoint.ofChar '.' :: digits.drop places.toNat

/-- The text of a double precision number. -/
def Layout.text (l : Layout) (bits : UInt64) : Text :=
  match Binary64.classify bits with
  | .nan => Text.ofString l.nan
  | .infinite negative => if negative then '-' :: Text.ofString l.infinity else l.infinity
  | .finite negative m q =>
    let size := if m = 0 then l.finite 0 0 else l.finite (digits m q).1 (digits m q).2
    if negative then '-' :: size else size

end ModuleDocs.Shortest
