import ClonePrint.Text.Digits

/-!
# Decimal numbers

A decimal number has digits, perhaps a point among them and perhaps an exponent.
Whether it is finite as a floating point number of 64 bits is decided without
rounding: the limit lies half a step above the largest such number.
-/
namespace ClonePrint

/-- A decimal number without a sign: its digits, read as if there were no point, of which some
places stand behind the point. -/
structure Decimal where
  digits : Nat
  places : Nat := 0
  exponent : Int := 0
deriving Repr, DecidableEq

namespace Decimal

def exponent? (t : Text) : Option Int :=
  match t with
  | '-' :: digits => (Text.readDigits? 10 digits).map fun n => -(n : Int)
  | '+' :: digits => (Text.readDigits? 10 digits).map Int.ofNat
  | digits => (Text.readDigits? 10 digits).map Int.ofNat

/-- Read a number. At least on one side of the point there is a digit. -/
def read? (t : Text) : Option Decimal :=
  let whole := t.takeWhile Text.isDigit
  let rest := t.dropWhile Text.isDigit
  let (fraction, rest) : Text × Text :=
    match rest with
    | '.' :: more => (more.takeWhile Text.isDigit, more.dropWhile Text.isDigit)
    | rest => ([], rest)
  match Text.readDigits? 10 (whole ++ fraction) with
  | none => none
  | some digits =>
      match rest with
      | [] => some { digits, places := fraction.length }
      | c :: more =>
          if c = 'e' || c = 'E' then
            (exponent? more).map fun exponent => { digits, places := fraction.length, exponent }
          else none

/-- The least number that is rounded to infinity. -/
def limit : Nat := Nat.pow 2 1024 - Nat.pow 2 970

/-- Whether a number is finite with 64 bits. -/
def isFinite (d : Decimal) : Bool :=
  let power := d.exponent - d.places
  if d.digits = 0 then true
  else if 0 ≤ power then
    -- a larger power of ten alone exceeds the limit
    power ≤ 310 && d.digits * Nat.pow 10 power.toNat < limit
  else
    -- a number with no more digits than places is below one
    (Text.decimal d.digits).length ≤ (-power).toNat ||
      d.digits < limit * Nat.pow 10 (-power).toNat

end Decimal

end ClonePrint
