import ClonePrint.Yaml.Scalar

/-!
# YAML tokens

A text is divided into tokens from left to right. Indentation becomes tokens of
its own: a block starts where an entry is indented further than the entries
around it, and ends in front of the first token that is indented less. A key
without an indicator is found out only at its colon, so every place where one
could have started is remembered until its line ends, and the missing tokens are
inserted there. Sequences are not supported: what would belong to one is no
token.
-/
namespace ClonePrint.Yaml

inductive Token where
  | version (major minor : Nat)
  | handle (name expansion : Text)
  | documentStart
  | documentEnd
  | blockStart
  | blockEnd
  | flowStart
  | flowEnd
  | comma
  | key
  | value
  | aliasOf (name : Text)
  | anchor (name : Text)
  | tag (handle rest : Text)
  | scalar (style : Style) (text : Text)
deriving Repr, DecidableEq

abbrev Found := Token × List Spot

namespace Token

/-! ## Names -/

def atNameEnd (spots : List Spot) : Bool :=
  atWordEnd spots ||
    match spots with
    | [] => true
    | s :: _ => "?:,]\x7d%@\x60".toList.contains s.char

def readName? (spots : List Spot) : Option (Text × List Spot) :=
  let (name, rest) := spanChars isWordChar spots
  if name.isEmpty || !atNameEnd rest then none else some (name, rest)

/-- A character of a tag. The brackets and the comma need a tag in full form. -/
def isTagChar (full : Bool) (c : Char) : Bool :=
  isWordChar c || ";/?:@&=+$.!~*'()".toList.contains c || (full && ",[]".toList.contains c)

/-- Where a reader of a tag stands inside an escaped byte. -/
inductive ByteState where
  | outside
  | first
  | second (high : Nat)
deriving Repr, DecidableEq

/-- How many bytes follow the first byte of a character. -/
def bytesBehind? (byte : Nat) : Option Nat :=
  if byte < 0x80 then some 0
  else if byte < 0xC0 then none
  else if byte < 0xE0 then some 1
  else if byte < 0xF0 then some 2
  else if byte < 0xF8 then some 3
  else none

/-- Read characters of a tag. `left` bytes of an escaped character are missing.
Only escapes of single bytes are told apart; the bytes of a longer character stand
for themselves. -/
def readTagChars? (full : Bool) (left : Nat) : ByteState → List Spot → Option (Text × List Spot)
  | .outside, [] => if left = 0 then some ([], []) else none
  | _, [] => none
  | .outside, s :: more =>
      if s.char = '%' then readTagChars? full left .first more
      else if left != 0 then none
      else if isTagChar full s.char then
        (readTagChars? full 0 .outside more).map (prepend [s.char])
      else some ([], s :: more)
  | .first, s :: more =>
      match Text.digitValue? s.char with
      | none => none
      | some high => readTagChars? full left (.second high) more
  | .second high, s :: more =>
      match Text.digitValue? s.char with
      | none => none
      | some low =>
          let byte := 16 * high + low
          let left? := if left = 0 then bytesBehind? byte
            else if byte / 64 = 2 then some (left - 1) else none
          match left? with
          | none => none
          | some left => (readTagChars? full left .outside more).map (prepend [Char.ofNat byte])

def readTag? (flow : Bool) (spots : List Spot) : Option Found := do
  let (token, rest) ←
    match spots with
    | s :: more =>
        if s.char = '<' then do
          let (name, rest) ← readTagChars? true 0 .outside more
          match rest with
          | [] => none
          | close :: rest =>
              if close.char = '>' && !name.isEmpty then some (tag [] name, rest) else none
        else
          let (word, rest) := spanChars isWordChar spots
          if rest.head?.map Spot.char = some '!' then do
            let (name, rest) ← readTagChars? false 0 .outside rest.tail
            if name.isEmpty then none else some (tag ('!' :: word ++ ['!']) name, rest)
          else do
            let (name, rest) ← readTagChars? false 0 .outside rest
            let name := word ++ name
            some (if name.isEmpty then tag [] ['!'] else tag ['!'] name, rest)
    | [] => some (tag [] ['!'], [])
  if atWordEnd rest || (flow && rest.head?.map Spot.char = some ',') then some (token, rest)
  else none

/-! ## Directives -/

/-- Read a number of at most nine digits. -/
def readVersionPart? (spots : List Spot) : Option (Nat × List Spot) :=
  let (digits, rest) := spanChars Text.isDigit spots
  if 9 < digits.length then none else (Text.readDigits? 10 digits).map fun n => (n, rest)

def readVersion? (spots : List Spot) : Option Found := do
  let (major, rest) ← readVersionPart? spots
  match rest with
  | [] => none
  | dot :: rest =>
      if dot.char = '.' then
        (readVersionPart? rest).map fun (minor, rest) => (version major minor, rest)
      else none

def readHandle? (spots : List Spot) : Option Found :=
  match spots with
  | [] => none
  | s :: more =>
      if s.char != '!' then none
      else do
        let (word, rest) := spanChars isWordChar more
        let (name, rest) ←
          if rest.head?.map Spot.char = some '!' then some ('!' :: word ++ ['!'], rest.tail)
          else if word.isEmpty then some (['!'], rest)
          else none
        if !(rest.head?.any fun s => isBlank s.char) then none
        else do
          let (expansion, rest) ← readTagChars? true 0 .outside (skipBlanks rest)
          if expansion.isEmpty || !atWordEnd rest then none
          else some (handle name expansion, rest)

def readDirective? (spots : List Spot) : Option Found := do
  let (name, rest) := spanChars isWordChar spots
  if !atWordEnd rest then none
  let (token, rest) ←
    if name = "YAML".toList then readVersion? (skipBlanks rest)
    else if name = "TAG".toList then readHandle? (skipBlanks rest)
    else none
  (endLine? rest).map fun rest => (token, rest)

end Token

/-! ## From text to tokens -/

/-- A place where a key may have started, behind `position` tokens. A required one may hold
nothing else. -/
structure KeyPlace where
  position : Nat
  index : Nat
  line : Nat
  column : Nat
  required : Bool
deriving Repr, DecidableEq

/-- How far a text has been divided. The blocks are known by their columns, innermost first. The
places of the current keys are listed for the open flow collections from the innermost out, and
last for the blocks around them. -/
structure Lexer where
  rest : List Spot
  tokens : List Token := []
  blocks : List Nat := []
  keys : List (Option KeyPlace) := [none]
  keyAllowed : Bool := true

namespace Lexer

def inFlow (x : Lexer) : Bool := 1 < x.keys.length

/-- The first column that belongs inside the innermost block. -/
def floor (x : Lexer) : Nat :=
  match x.blocks with
  | [] => 0
  | column :: _ => column + 1

def emit (found : Found) (x : Lexer) : Lexer :=
  { x with tokens := x.tokens ++ [found.1], rest := found.2 }

def allow (keyAllowed : Bool) (x : Lexer) : Lexer := { x with keyAllowed }

/-- Drop white space and comments. In a block a line break lets a key start, and
no tab may stand where one may start. -/
def skipSpace (flow comment allowed : Bool) : List Spot → Bool × List Spot
  | [] => (allowed, [])
  | s :: more =>
      if isBreak s.char then skipSpace flow false (allowed || !flow) more
      else if comment then skipSpace flow true allowed more
      else if s.char = ' ' || (s.char = '\t' && (flow || !allowed)) then
        skipSpace flow false allowed more
      else if s.char = '#' then skipSpace flow true allowed more
      else (allowed, s :: more)

def advance (x : Lexer) : Lexer :=
  let (keyAllowed, rest) := skipSpace x.inFlow false x.keyAllowed x.rest
  { x with keyAllowed, rest }

/-- Whether a place can no longer be that of a key: it is on an earlier line or
too far away. -/
def isStale (s : Spot) (k : KeyPlace) : Bool := k.line < s.line || k.index + 1024 < s.index

def forgetStale? (s : Spot) (x : Lexer) : Option Lexer := do
  let keys ← x.keys.mapM fun
    | none => some none
    | some k => if !isStale s k then some (some k) else if k.required then none else some none
  return { x with keys }

def forgetKey? (x : Lexer) : Option Lexer :=
  match x.keys with
  | some k :: outer => if k.required then none else some { x with keys := none :: outer }
  | _ => some x

def rememberKey? (s : Spot) (x : Lexer) : Option Lexer :=
  if x.keyAllowed then
    x.forgetKey?.map fun x =>
      { x with
        keys := some
          { position := x.tokens.length, index := s.index, line := s.line, column := s.column
            required := !x.inFlow && x.floor = s.column + 1 } :: x.keys.tail }
  else some x

/-- Start a block, if the column lies inside the innermost one. -/
def openBlock (column position : Nat) (x : Lexer) : Lexer :=
  if !x.inFlow && x.floor ≤ column then
    { x with
      blocks := column :: x.blocks
      tokens := x.tokens.take position ++ .blockStart :: x.tokens.drop position }
  else x

/-- End the blocks that satisfy a property, from the innermost out. -/
def closeBlocks (p : Nat → Bool) (x : Lexer) : Lexer :=
  if x.inFlow then x
  else
    { x with
      blocks := x.blocks.dropWhile p
      tokens := x.tokens ++ (x.blocks.takeWhile p).map fun _ => .blockEnd }

/-- Leave all blocks, in front of something that stands outside of them. -/
def leaveBlocks? (x : Lexer) : Option Lexer :=
  ((x.closeBlocks fun _ => true).forgetKey?).map (allow false)

/-- A mark that says that a key or a value follows, without a key in front of it
on the same line. -/
def indicator? (token : Token) (s : Spot) (more : List Spot) (x : Lexer) : Option Lexer :=
  if !x.inFlow && !x.keyAllowed then none
  else
    let x := x.openBlock s.column x.tokens.length
    (x.forgetKey?).map fun x => (x.emit (token, more)).allow !x.inFlow

def value? (s : Spot) (more : List Spot) (x : Lexer) : Option Lexer :=
  match x.keys with
  | some k :: outer =>
      let tokens := x.tokens.take k.position ++ .key :: x.tokens.drop k.position
      let x := { x with tokens, keys := none :: outer }.openBlock k.column k.position
      some ((x.emit (.value, more)).allow false)
  | _ => x.indicator? .value s more

/-- Something with which a key can start. -/
def node? (s : Spot) (found : Option Found) (x : Lexer) : Option Lexer := do
  let x ← x.rememberKey? s
  return (x.emit (← found)).allow false

def flowStart? (s : Spot) (more : List Spot) (x : Lexer) : Option Lexer :=
  (x.rememberKey? s).map fun x =>
    ({ x with keys := none :: x.keys }.emit (.flowStart, more)).allow true

def flowEnd? (more : List Spot) (x : Lexer) : Option Lexer :=
  x.forgetKey?.map fun x =>
    ({ x with keys := if x.inFlow then x.keys.tail else x.keys }.emit (.flowEnd, more)).allow false

def block? (style : Style) (more : List Spot) (x : Lexer) : Option Lexer := do
  let x ← x.forgetKey?
  let (text, rest) ← readBlock? (style = .folded) x.floor more
  return (x.emit (.scalar style text, rest)).allow true

def startsPlain (flow : Bool) (s : Spot) (more : List Spot) : Bool :=
  if s.char = '-' then !more.head?.any fun next => isBlank next.char
  else if s.char = '?' || s.char = ':' then !flow && !atWordEnd more
  else !(isSpace s.char || ",[]\x7b\x7d#&*!|>'\"%@\x60".toList.contains s.char)

def plain? (s : Spot) (more : List Spot) (x : Lexer) : Option Lexer := do
  let x ← x.rememberKey? s
  let (text, brokeLine, rest) ← readPlain? x.inFlow x.floor {} (s :: more)
  return (x.emit (.scalar .plain text, rest)).allow brokeLine

/-- The next token, which starts with `s`. -/
def token? (s : Spot) (more : List Spot) (x : Lexer) : Option Lexer :=
  let alone := x.inFlow || atWordEnd more
  let quoted := Option.map fun (text, rest) => (Token.scalar .quoted text, rest)
  if s.column = 0 && s.char = '%' then do
    return (← x.leaveBlocks?).emit (← Token.readDirective? more)
  else if startsMark '-' (s :: more) then
    x.leaveBlocks?.map (emit (.documentStart, more.drop 2))
  else if startsMark '.' (s :: more) then
    x.leaveBlocks?.map (emit (.documentEnd, more.drop 2))
  else
    match s.char with
    | '[' | ']' => none
    | '\x7b' => x.flowStart? s more
    | '\x7d' => x.flowEnd? more
    | ',' => x.forgetKey?.map fun x => (x.emit (.comma, more)).allow true
    | '*' =>
        x.node? s ((Token.readName? more).map fun (name, rest) => (.aliasOf name, rest))
    | '&' =>
        x.node? s ((Token.readName? more).map fun (name, rest) => (.anchor name, rest))
    | '!' => x.node? s (Token.readTag? x.inFlow more)
    | '\'' => x.node? s (quoted (readSingle? {} false more))
    | '"' => x.node? s (quoted (readDouble? {} .outside more))
    | c =>
        if c = '-' && atWordEnd more then none
        else if c = '?' && alone then x.indicator? .key s more
        else if c = ':' && alone then x.value? s more
        else if c = '|' && !x.inFlow then x.block? .literal more
        else if c = '>' && !x.inFlow then x.block? .folded more
        else if startsPlain x.inFlow s more then x.plain? s more
        else none

/-- The end of the text: no required key may be missing. -/
def finish? (x : Lexer) : Option (List Token) :=
  if x.keys.any fun k => k.any KeyPlace.required then none
  else some (x.closeBlocks fun _ => true).tokens

def run? : Nat → Lexer → Option (List Token)
  | 0, _ => none
  | fuel + 1, x =>
      let x := x.advance
      match x.rest with
      | [] => x.finish?
      | s :: more => do
          let x ← x.forgetStale? s
          let x ← (x.closeBlocks (s.column < ·)).token? s more
          run? fuel x

end Lexer

/-- The tokens of a text, if it can be divided. Every token takes at least one
character. -/
def tokens? (t : Text) : Option (List Token) :=
  (spots? t).bind fun spots => Lexer.run? (spots.length + 1) { rest := spots }

end ClonePrint.Yaml
