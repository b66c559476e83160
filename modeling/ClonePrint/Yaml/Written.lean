import ClonePrint.Decimal
import ClonePrint.Yaml.Value

/-!
# Writing YAML scalars

A text is written as a scalar that reads back as this text. It is written plain
unless that would mean something else; then it is quoted, or becomes a block if
it has several lines. Whatever cannot be shown needs double quotes and escapes.
-/
namespace ClonePrint.Yaml

/-! ## Texts that look like something else -/

/-- The number behind a minus sign. A mark for the base stands behind the sign. -/
def negative? (t : Text) : Option Nat :=
  match t with
  | '-' :: digits => if isPadded t then none else magnitude? digits
  | _ => none

/-- A text that would be read as a whole number of at most 128 bits. -/
def isInteger (t : Text) : Bool :=
  (natural? t).any (· < Nat.pow 2 128) || (negative? t).any (· ≤ Nat.pow 2 127)

def specialNumbers : List String :=
  [".inf", ".Inf", ".INF", "+.inf", "+.Inf", "+.INF", "-.inf", "-.Inf", "-.INF",
   ".nan", ".NaN", ".NAN"]

/-- A text that would be read as a number with a point or an exponent. -/
def isReal (t : Text) : Bool :=
  specialNumbers.any (·.toList == t) || (Decimal.read? (dropSign t)).any Decimal.isFinite

/-- A text that would not be read as text, were it written plain. -/
def looksSpecial (t : Text) : Bool :=
  t.isEmpty || isNull t || isTruth t || isInteger t || isPadded t || isReal t

/-! ## The choice of a style -/

def someNeighbours (p : Char → Char → Bool) : Text → Bool
  | a :: b :: t => p a b || someNeighbours p (b :: t)
  | _ => false

/-- A space, a tab, a line break or nothing. -/
def isGap (c? : Option Char) : Bool := c?.all fun c => isSpace c || c = '\r' || c.toNat = 0x85

def opensWrong (t : Text) : Bool :=
  match t with
  | [] => false
  | c :: more =>
      "#,[]\x7b\x7d&*!|>'\"%@\x60".toList.contains c || ("?:-".toList.contains c && isGap more.head?) ||
        "---".toList.isPrefixOf t || "...".toList.isPrefixOf t

def endsEarly (t : Text) : Bool :=
  someNeighbours (fun a b => (a = ':' && isGap (some b)) || (isGap (some a) && b = '#')) t ||
    (1 < t.length && t.getLast? = some ':')

def allowsPlain (t : Text) : Bool :=
  !opensWrong t && !endsEarly t && !t.any isBreak && t.head? != some ' ' && t.getLast? != some ' '

def needsEscapes (t : Text) : Bool :=
  t.any (!isPrintable ·) || someNeighbours (fun a b => a = ' ' && isBreak b) t

def allowsSingle (t : Text) : Bool := !someNeighbours (fun a b => isBreak a && b = ' ') t

/-! ## Writing -/

/-- A number with a fixed count of hexadecimal digits, in upper case. -/
def hex (width n : Nat) : Text :=
  match width with
  | 0 => []
  | width + 1 => hex width (n / 16) ++ [(Text.hexDigit (n % 16)).toUpper]

def escape (c : Char) : Text :=
  let n := c.toNat
  if isPrintable c && !isBreak c && c != '"' && c != '\\' then [c]
  else
    '\\' ::
      if n = 0 then ['0']
      else if n = 7 then ['a']
      else if n = 8 then ['b']
      else if n = 9 then ['t']
      else if n = 10 then ['n']
      else if n = 11 then ['v']
      else if n = 12 then ['f']
      else if n = 13 then ['r']
      else if n = 27 then ['e']
      else if n = 34 || n = 92 then [c]
      else if n = 0x85 then ['N']
      else if n = 0x2028 then ['L']
      else if n = 0x2029 then ['P']
      else if n ≤ 0xFF then 'x' :: hex 2 n
      else if n ≤ 0xFFFF then 'u' :: hex 4 n
      else 'U' :: hex 8 n

def double (t : Text) : Text := '"' :: t.flatMap escape ++ ['"']

/-- The inside of a scalar of several lines. Every line but the first starts
with the indentation, unless it is empty. -/
def indentLines (indent : Nat) (afterBreak : Bool) : Text → Text
  | [] => []
  | c :: t =>
      if isBreak c then c :: indentLines indent true t
      else (if afterBreak then List.replicate indent ' ' else []) ++ c :: indentLines indent false t

def single (indent : Nat) (t : Text) : Text :=
  let inside := indentLines indent false t
  let doubled := inside.flatMap fun c => if c = '\'' then ['\'', '\''] else [c]
  '\'' :: doubled ++
    (if t.getLast?.any isBreak then List.replicate indent ' ' else []) ++ ['\'']

/-- How a block says what becomes of its last line breaks. -/
def chompMark (t : Text) : Text :=
  match t.reverse with
  | [] => ['-']
  | c :: more =>
      if !isBreak c then ['-']
      else if more.head?.all isBreak then ['+'] else []

/-- A literal block below an entry whose lines are indented by `indent`. A first
line that looks indented is told apart by a number. -/
def block (indent : Nat) (t : Text) : Text :=
  let hint := if t.head?.any fun c => c = ' ' || isBreak c then ['2'] else []
  '|' :: hint ++ chompMark t ++ '\n' :: indentLines indent true t

/-- A text as the value of an entry whose further lines are indented. The text
ends with its line. -/
def write (indent : Nat) (t : Text) : Text :=
  let written :=
    if needsEscapes t then double t
    else if t.contains '\n' then if t.getLast? = some ' ' then double t else block indent t
    else if !looksSpecial t && allowsPlain t then t
    else if allowsSingle t then single indent t
    else double t
  if written.getLast?.any isBreak then written else written ++ ['\n']

end ClonePrint.Yaml
