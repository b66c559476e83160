import ClonePrint.Text

/-!
# YAML source text

A YAML text may hold printable characters, tabs and line breaks. The usual line
breaks are the same to every rule, so they are unified first. After that each
character is given its place, because layout carries the structure.
-/
namespace ClonePrint.Yaml

/-- A line break, once the usual ones are unified. -/
def isBreak (c : Char) : Bool := c = '\n' || c.toNat = 0x2028 || c.toNat = 0x2029

def isBlank (c : Char) : Bool := c = ' ' || c = '\t'

def isSpace (c : Char) : Bool := isBlank c || isBreak c

def byteOrderMark : Char := Char.ofNat 0xFEFF

/-- A character that may be written without an escape, tabs and some breaks apart. -/
def isPrintable (c : Char) : Bool :=
  let n := c.toNat
  n = 0x0A || (0x20 ≤ n && n ≤ 0x7E) || (0xA0 ≤ n && n ≤ 0xFFFD && c != byteOrderMark) ||
    0x10000 ≤ n

def isReadable (c : Char) : Bool :=
  isPrintable c || c = '\t' || c = '\r' || c.toNat = 0x85

/-- Write every usual line break the same way. -/
def unifyBreaks : Text → Text
  | [] => []
  | c :: t =>
      if c = '\r' then
        match t with
        | '\n' :: _ => unifyBreaks t
        | _ => '\n' :: unifyBreaks t
      else if c.toNat = 0x85 then '\n' :: unifyBreaks t
      else c :: unifyBreaks t

/-- A character with its place. -/
structure Spot where
  char : Char
  index : Nat
  line : Nat
  column : Nat
deriving Repr, DecidableEq

def placeFrom (index line column : Nat) : Text → List Spot
  | [] => []
  | c :: t =>
      ⟨c, index, line, column⟩ ::
        if isBreak c then placeFrom (index + 1) (line + 1) 0 t
        else placeFrom (index + 1) line (column + 1) t

/-- The characters of a text with their places, if all of them may stand there.
A byte order mark in front is skipped. -/
def spots? (t : Text) : Option (List Spot) :=
  let body := if t.head? = some byteOrderMark then t.tail else t
  if body.all isReadable then some (placeFrom 0 0 0 (unifyBreaks body)) else none

def charsOf (spots : List Spot) : Text := spots.map Spot.char

/-- No further character of a word follows. -/
def atWordEnd : List Spot → Bool
  | [] => true
  | s :: _ => isSpace s.char

/-- A mark of three equal characters at the start of a line, on its own. -/
def startsMark (mark : Char) : List Spot → Bool
  | a :: b :: c :: more =>
      a.column = 0 && a.char = mark && b.char = mark && c.char = mark && atWordEnd more
  | _ => false

def startsAnyMark (spots : List Spot) : Bool := startsMark '-' spots || startsMark '.' spots

/-- Divide at the first character without a property. -/
def spanChars (p : Char → Bool) (spots : List Spot) : Text × List Spot :=
  (charsOf (spots.takeWhile fun s => p s.char), spots.dropWhile fun s => p s.char)

def skipBlanks (spots : List Spot) : List Spot := spots.dropWhile fun s => isBlank s.char

/-- Go behind the rest of a line that holds nothing but blanks and a comment. -/
def endLine? (spots : List Spot) : Option (List Spot) :=
  let rest := skipBlanks spots
  let rest :=
    if rest.head?.map Spot.char = some '#' then rest.dropWhile fun s => !isBreak s.char else rest
  match rest with
  | [] => some []
  | s :: more => if isBreak s.char then some more else none

def isWordChar (c : Char) : Bool := c.isAlphanum || c = '-' || c = '_'

end ClonePrint.Yaml
