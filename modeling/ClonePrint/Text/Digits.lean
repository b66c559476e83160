import ClonePrint.Text

/-!
# Numbers in text

Natural numbers are written in decimal without leading zeros. Reading takes
digits of any base up to sixteen, in either case.
-/
namespace ClonePrint.Text

def digit (n : Nat) : Char := Char.ofNat (48 + n % 10)

def decimal (n : Nat) : Text :=
  if n < 10 then [digit n] else decimal (n / 10) ++ [digit n]

/-- The lower-case hexadecimal digit of a number below sixteen. -/
def hexDigit (n : Nat) : Char := Char.ofNat (if n < 10 then 48 + n else 87 + n)

/-- The value of a digit in bases up to sixteen. -/
def digitValue? (c : Char) : Option Nat :=
  let n := c.toNat
  if 48 ≤ n ∧ n ≤ 57 then some (n - 48)
  else if 97 ≤ n ∧ n ≤ 102 then some (n - 87)
  else if 65 ≤ n ∧ n ≤ 70 then some (n - 55)
  else none

def digitBelow? (base : Nat) (c : Char) : Option Nat :=
  (digitValue? c).filter (· < base)

/-- The number that a non-empty row of digits stands for. -/
def readDigits? (base : Nat) (t : Text) : Option Nat :=
  if t.isEmpty then none
  else t.foldlM (fun n c => (digitBelow? base c).map (n * base + ·)) 0

def isDigit (c : Char) : Bool := (digitBelow? 10 c).isSome

end ClonePrint.Text
