import ModuleDocs.Text.Basic

/-!
# Decimal integers

An integer may be of any size, but only so many decimal digits are read or written,
as the work of it grows with the square of their number.  Hexadecimal and binary
forms have no such limit.
-/

namespace ModuleDocs.Decimal

/-- The greatest number of digits that are read or written. -/
def maxDigits : Nat := 4300

/-- An integer of too many digits.  Of one that was to be read their number is known,
leading zeros included. -/
inductive TooLong where
  | read (digits : Nat)
  | written
deriving DecidableEq, Repr

def TooLong.message (e : TooLong) : Text :=
  let found : Text :=
    match e with
    | .read digits => (": value has " : Text) ++ Text.ofNat digits ++ (" digits" : Text)
    | .written => []
  ("Exceeds the limit (" : Text) ++ Text.ofNat maxDigits
    ++ (" digits) for integer string conversion" : Text) ++ found
    ++ ("; use sys.set_int_max_str_digits() to increase the limit" : Text)

/-- Lets a number of digits be read. -/
def allow (digits : Nat) : Except TooLong Unit :=
  if maxDigits < digits then .error (.read digits) else .ok ()

/-- An integer in decimal digits. -/
def write (i : Int) : Except TooLong Text :=
  if i.natAbs < Nat.pow 10 maxDigits then .ok (Text.ofInt i) else .error .written

end ModuleDocs.Decimal
