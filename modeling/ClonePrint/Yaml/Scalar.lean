import ClonePrint.Text.Digits
import ClonePrint.Yaml.Source

/-!
# YAML scalars

A scalar is a text in one of several styles. Plain and quoted scalars may run
over several lines, and then the breaks between their words are folded. Block
scalars keep their lines, or fold those that are not indented further.
-/
namespace ClonePrint.Yaml

/-- How a scalar is written. -/
inductive Style where
  | plain
  | quoted
  | literal
  | folded
deriving Repr, DecidableEq

def prepend {α : Type} (front : Text) (found : Text × α) : Text × α := (front ++ found.1, found.2)

/-- What breaks between two words amount to: one break counts as a space, of
several the first one is dropped. A break of the unusual kind is kept. -/
def foldBreaks : Text → Text
  | [] => []
  | ['\n'] => [' ']
  | '\n' :: more => more
  | breaks => breaks

/-- White space between two words of a scalar. It is escaped if it starts with a line break that
an escape takes away. -/
structure Gap where
  escaped : Bool := false
  spots : List Spot := []
deriving Repr, DecidableEq

namespace Gap

def push (s : Spot) (g : Gap) : Gap := { g with spots := g.spots ++ [s] }

def breaks (g : Gap) : Text := (charsOf g.spots).filter isBreak

/-- Whether the gap goes over the end of a line. -/
def brokeLine (g : Gap) : Bool := g.escaped || !g.breaks.isEmpty

def text (g : Gap) : Text :=
  if g.escaped then g.breaks
  else if g.breaks.isEmpty then charsOf g.spots
  else foldBreaks g.breaks

end Gap

/-! ## Plain scalars -/

def isFlowMark (c : Char) : Bool := ",[]\x7b\x7d".toList.contains c

/-- A colon that cannot be part of a plain scalar in a flow collection. -/
def isStrayColon (s : Spot) (more : List Spot) : Bool :=
  s.char = ':' &&
    match more with
    | [] => false
    | next :: _ => isFlowMark next.char || next.char = '?'

def endsPlain (flow : Bool) (s : Spot) (more : List Spot) : Bool :=
  (s.char = ':' && atWordEnd more) || (flow && isFlowMark s.char)

def endsBeforeWord (flow : Bool) (floor : Nat) (s : Spot) (more : List Spot) : Bool :=
  (!flow && s.column < floor) || startsAnyMark (s :: more) || s.char = '#'

/-- Read a plain scalar whose lines must start at column `floor` or later. The
answer says whether it was left behind the end of its line. -/
def readPlain? (flow : Bool) (floor : Nat) (gap : Gap) :
    List Spot → Option (Text × Bool × List Spot)
  | [] => some ([], gap.brokeLine, [])
  | s :: more =>
      if isSpace s.char then
        if s.char = '\t' && gap.brokeLine && s.column < floor then none
        else readPlain? flow floor (gap.push s) more
      else if !gap.spots.isEmpty && endsBeforeWord flow floor s more then
        some ([], gap.brokeLine, s :: more)
      else if flow && isStrayColon s more then none
      else if endsPlain flow s more then some ([], gap.brokeLine, s :: more)
      else (readPlain? flow floor {} more).map (prepend (gap.text ++ [s.char]))

/-! ## Quoted scalars -/

/-- Where a reader of a double-quoted scalar stands. -/
inductive QuoteState where
  | outside
  | escape
  | code (left value : Nat)
deriving Repr, DecidableEq

/-- The character an escape stands for, for those that have no digits. -/
def escaped? (c : Char) : Option Char :=
  match c with
  | '0' => some (Char.ofNat 0)
  | 'a' => some (Char.ofNat 7)
  | 'b' => some (Char.ofNat 8)
  | 't' | '\t' => some '\t'
  | 'n' => some '\n'
  | 'v' => some (Char.ofNat 11)
  | 'f' => some (Char.ofNat 12)
  | 'r' => some '\r'
  | 'e' => some (Char.ofNat 27)
  | ' ' => some ' '
  | '"' => some '"'
  | '/' => some '/'
  | '\\' => some '\\'
  | 'N' => some (Char.ofNat 0x85)
  | '_' => some (Char.ofNat 0xA0)
  | 'L' => some (Char.ofNat 0x2028)
  | 'P' => some (Char.ofNat 0x2029)
  | _ => none

/-- How many digits follow an escape that holds a character code. -/
def codeLength? (c : Char) : Option Nat :=
  match c with
  | 'x' => some 2
  | 'u' => some 4
  | 'U' => some 8
  | _ => none

def charOfCode? (n : Nat) : Option Char := if n.isValidChar then some (Char.ofNat n) else none

def readDouble? (gap : Gap) : QuoteState → List Spot → Option (Text × List Spot)
  | _, [] => none
  | .outside, s :: more =>
      if isSpace s.char then readDouble? (gap.push s) .outside more
      else if startsAnyMark (s :: more) then none
      else if s.char = '"' then some (gap.text, more)
      else if s.char = '\\' then (readDouble? {} .escape more).map (prepend gap.text)
      else (readDouble? {} .outside more).map (prepend (gap.text ++ [s.char]))
  | .escape, s :: more =>
      if isBreak s.char then readDouble? { escaped := true } .outside more
      else
        match escaped? s.char, codeLength? s.char with
        | some c, _ => (readDouble? {} .outside more).map (prepend [c])
        | none, some left => readDouble? {} (.code left 0) more
        | none, none => none
  | .code left value, s :: more =>
      match Text.digitValue? s.char with
      | none => none
      | some d =>
          if 1 < left then readDouble? {} (.code (left - 1) (value * 16 + d)) more
          else
            match charOfCode? (value * 16 + d) with
            | none => none
            | some c => (readDouble? {} .outside more).map (prepend [c])

/-- Read the rest of a single-quoted scalar. The flag says that the character
before was a quote; two of them stand for one. -/
def readSingle? (gap : Gap) : Bool → List Spot → Option (Text × List Spot)
  | true, [] => some ([], [])
  | false, [] => none
  | true, s :: more =>
      if s.char = '\'' then (readSingle? {} false more).map (prepend ['\''])
      else some ([], s :: more)
  | false, s :: more =>
      if isSpace s.char then readSingle? (gap.push s) false more
      else if startsAnyMark (s :: more) then none
      else if s.char = '\'' then (readSingle? {} true more).map (prepend gap.text)
      else (readSingle? {} false more).map (prepend (gap.text ++ [s.char]))

/-! ## Block scalars -/

/-- What becomes of the line breaks at the end of a block. -/
inductive Chomp where
  | strip
  | clip
  | keep
deriving Repr, DecidableEq

/-- The line breaks behind a line of a block, not yet put anywhere: the one that ends the line,
and those of the empty lines behind it. -/
structure Pending where
  first : Text := []
  more : Text := []
  indented : Bool := false
deriving Repr, DecidableEq

/-- What the breaks in front of a further line amount to. -/
def Pending.between (fold indented : Bool) (p : Pending) : Text :=
  if fold && p.first = ['\n'] && !p.indented && !indented then
    if p.more.isEmpty then [' '] else p.more
  else p.first ++ p.more

def Pending.atEnd (chomp : Chomp) (p : Pending) : Text :=
  match chomp with
  | .strip => []
  | .clip => p.first
  | .keep => p.first ++ p.more

/-- The indentation of a block that does not say it: that of the first line that
is not empty, and at least `least`. No tab may stand there. -/
def indentation? (least : Nat) : List Spot → Option Nat
  | [] => some least
  | s :: more =>
      if s.char = ' ' then indentation? least more
      else if s.char = '\t' then none
      else if isBreak s.char then (indentation? least more).map (max s.column)
      else some (max s.column least)

/-- Read the lines of a block. The flag says that a line has begun. -/
def readLines? (fold : Bool) (chomp : Chomp) (indent : Nat) :
    Bool → Pending → List Spot → Option (Text × List Spot)
  | _, pending, [] => some (pending.atEnd chomp, [])
  | true, pending, s :: more =>
      if isBreak s.char then
        readLines? fold chomp indent false { pending with first := [s.char], more := [] } more
      else (readLines? fold chomp indent true pending more).map (prepend [s.char])
  | false, pending, s :: more =>
      if s.char = ' ' && s.column < indent then readLines? fold chomp indent false pending more
      else if s.char = '\t' && s.column < indent then none
      else if isBreak s.char then
        readLines? fold chomp indent false { pending with more := pending.more ++ [s.char] } more
      else if s.column = indent then
        (readLines? fold chomp indent true { indented := isBlank s.char } more).map
          (prepend (pending.between fold (isBlank s.char) ++ [s.char]))
      else some (pending.atEnd chomp, s :: more)

/-- What the head of a block says: what becomes of the last breaks, and how far
the block is indented. -/
def blockHead? (spots : List Spot) : Option (Chomp × Option Nat × List Spot) :=
  let chomp? (l : List Spot) : Option (Chomp × List Spot) :=
    match l with
    | [] => none
    | s :: more =>
        if s.char = '+' then some (.keep, more)
        else if s.char = '-' then some (.strip, more) else none
  let digit? (l : List Spot) : Option (Nat × List Spot) :=
    match l with
    | [] => none
    | s :: more => (Text.digitBelow? 10 s.char).map fun d => (d, more)
  let (chomp, indent, rest) : Chomp × Option Nat × List Spot :=
    match chomp? spots with
    | some (chomp, rest) =>
        match digit? rest with
        | some (d, rest) => (chomp, some d, rest)
        | none => (chomp, none, rest)
    | none =>
        match digit? spots with
        | none => (.clip, none, spots)
        | some (d, rest) =>
            match chomp? rest with
            | some (chomp, rest) => (chomp, some d, rest)
            | none => (.clip, some d, rest)
  if indent = some 0 then none else (endLine? rest).map fun rest => (chomp, indent, rest)

/-- Read a block scalar behind its indicator, inside a block whose entries start
at column `floor` or later. -/
def readBlock? (fold : Bool) (floor : Nat) (spots : List Spot) : Option (Text × List Spot) := do
  let (chomp, said, rest) ← blockHead? spots
  let indent ←
    match said with
    | some n => some (floor - 1 + n)
    | none => indentation? (max floor 1) rest
  readLines? fold chomp indent false {} rest

end ClonePrint.Yaml
