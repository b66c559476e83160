import ClonePrint.Json

/-!
# Reading JSON

The grammar of JSON, read from the front of a text. Blanks between tokens are
space, tab, line feed and carriage return; numbers have no leading zeros; control
characters have to be escaped inside strings.
-/
namespace ClonePrint.Json

def isGap (c : Char) : Bool := c == ' ' || c == '\n' || c == '\t' || c == '\r'

def skipGap (t : Text) : Text := t.dropWhile isGap

def shortEscape? : Char → Option Nat
  | '"' => some 0x22
  | '\\' => some 0x5C
  | '/' => some 0x2F
  | 'b' => some 0x08
  | 'f' => some 0x0C
  | 'n' => some 0x0A
  | 'r' => some 0x0D
  | 't' => some 0x09
  | _ => none

/-- The code points of a string up to its closing quote. Halves of surrogate
pairs count as code points here. -/
def readUnits? : Text → Option (List Nat × Text)
  | [] => none
  | '"' :: t => some ([], t)
  | '\\' :: 'u' :: a :: b :: c :: d :: t =>
      (Text.readDigits? 16 [a, b, c, d]).bind fun unit =>
        (readUnits? t).map fun more => (unit :: more.1, more.2)
  | '\\' :: c :: t =>
      (shortEscape? c).bind fun unit => (readUnits? t).map fun more => (unit :: more.1, more.2)
  | c :: t =>
      if c = '\\' ∨ c.toNat < 0x20 then none
      else (readUnits? t).map fun more => (c.toNat :: more.1, more.2)

/-- The characters that code points stand for, if the surrogates pair up. -/
def joinUnits? : List Nat → Option Text
  | [] => some []
  | high :: low :: units =>
      if 0xD800 ≤ high ∧ high < 0xDC00 then
        if 0xDC00 ≤ low ∧ low < 0xE000 then
          (joinUnits? units).map
            (Char.ofNat (0x10000 + (high - 0xD800) * 0x400 + (low - 0xDC00)) :: ·)
        else none
      else if 0xDC00 ≤ high ∧ high < 0xE000 then none
      else (joinUnits? (low :: units)).map (Char.ofNat high :: ·)
  | [unit] => if 0xD800 ≤ unit ∧ unit < 0xE000 then none else some [Char.ofNat unit]

/-- A string whose opening quote has been read. -/
def readString? (t : Text) : Option (Option Text × Text) :=
  (readUnits? t).map fun read => (joinUnits? read.1, read.2)

def readRow? (t : Text) : Option (Text × Text) :=
  match t.takeWhile Text.isDigit with
  | [] => none
  | digits => some (digits, t.dropWhile Text.isDigit)

/-- The whole part of a number: a zero, or digits that do not start with one. -/
def readWhole? : Text → Option (Text × Text)
  | '0' :: t => some (['0'], t)
  | t => readRow? t

def readFraction? : Text → Option (Text × Text)
  | '.' :: t => (readRow? t).map fun row => ('.' :: row.1, row.2)
  | t => some ([], t)

def readExponent? : Text → Option (Text × Text)
  | c :: t =>
      if c = 'e' ∨ c = 'E' then
        match t with
        | '+' :: t => (readRow? t).map fun row => (c :: '+' :: row.1, row.2)
        | '-' :: t => (readRow? t).map fun row => (c :: '-' :: row.1, row.2)
        | t => (readRow? t).map fun row => (c :: row.1, row.2)
      else some ([], c :: t)
  | [] => some ([], [])

def readUnsigned? (t : Text) : Option (Text × Text) :=
  (readWhole? t).bind fun whole =>
    (readFraction? whole.2).bind fun fraction =>
      (readExponent? fraction.2).map fun exponent =>
        (whole.1 ++ fraction.1 ++ exponent.1, exponent.2)

def readNumber? : Text → Option (Text × Text)
  | '-' :: t => (readUnsigned? t).map fun number => ('-' :: number.1, number.2)
  | t => readUnsigned? t

mutual

/-- A value at the front of a text, nested no deeper than the first argument. -/
def readValue? : Nat → Text → Option (Json × Text)
  | 0, _ => none
  | depth + 1, t =>
      match skipGap t with
      | 'n' :: 'u' :: 'l' :: 'l' :: t => some (.null, t)
      | 't' :: 'r' :: 'u' :: 'e' :: t => some (.bool true, t)
      | 'f' :: 'a' :: 'l' :: 's' :: 'e' :: t => some (.bool false, t)
      | '"' :: t => (readString? t).map fun read => (.string read.1, read.2)
      | '[' :: t =>
          match skipGap t with
          | ']' :: t => some (.array [], t)
          | t => (readItems? depth t).map fun read => (.array read.1, read.2)
      | '{' :: t =>
          match skipGap t with
          | '}' :: t => some (.object [], t)
          | t => (readFields? depth t).map fun read => (.object read.1, read.2)
      | t => (readNumber? t).map fun read => (.number read.1, read.2)

def readItems? : Nat → Text → Option (List Json × Text)
  | 0, _ => none
  | depth + 1, t =>
      (readValue? depth t).bind fun item =>
        match skipGap item.2 with
        | ',' :: t => (readItems? depth t).map fun more => (item.1 :: more.1, more.2)
        | ']' :: t => some ([item.1], t)
        | _ => none

def readFields? : Nat → Text → Option (List (Option Text × Json) × Text)
  | 0, _ => none
  | depth + 1, t =>
      match skipGap t with
      | '"' :: t =>
          (readString? t).bind fun key =>
            match skipGap key.2 with
            | ':' :: t =>
                (readValue? depth t).bind fun value =>
                  match skipGap value.2 with
                  | ',' :: t =>
                      (readFields? depth t).map fun more => ((key.1, value.1) :: more.1, more.2)
                  | '}' :: t => some ([(key.1, value.1)], t)
                  | _ => none
            | _ => none
      | _ => none

end

/-- The value that a whole text holds. A value is never nested deeper than its
text is long. -/
def read? (t : Text) : Option Json :=
  (readValue? (2 * t.length + 1) t).bind fun read =>
    if (skipGap read.2).isEmpty then some read.1 else none

end ClonePrint.Json
