import ClonePrint.Parser
import ClonePrint.Syntax.Survey

/-!
# Parsing through syntax trees

A text is parsed strictly: one broken node in its tree and it has no result. A
chunk with closed edges is parsed as it stands. A chunk that ends inside an item
is parsed up to the last item that is certainly complete, and the rest is handed
back. A chunk that starts inside an item is handed back whole, and so is a piece
of a larger file that does not parse, because its edges may be to blame.
-/
namespace ClonePrint

/-- The settings of a parser that works on syntax trees. -/
structure TokenTree where
  grammar : Grammar
  frontEnd : Text → SyntaxTree
  limits : Thresholds := {}

namespace TokenTree

def syntaxError (file : String) (line : Nat) : Error :=
  .parse ("syntax error in " ++ file ++ " at line " ++ toString line)

/-- The functions of a text without errors. -/
def parseStrict (p : TokenTree) (file : String) (text : Text) (lineOffset : Nat) :
    Except Error (List Fingerprint) :=
  let tree := p.frontEnd text
  if tree.label.hasError then
    .error (syntaxError file ((tree.firstErrorRow?).getD 0 + 1 + lineOffset))
  else
    .ok (({ grammar := p.grammar, source := text, file, limits := p.limits, lineOffset } :
      Survey).run tree)

/-- An offset that is not the boundary of a character. -/
def offBoundary (offset : Nat) : Failure :=
  .crash ⟨"byte index " ++ toString offset ++ " is not a char boundary"⟩

def parseClosed (p : TokenTree) (c : Chunk) : Except Failure Outcome :=
  match p.parseStrict c.file c.text c.lineOffset with
  | .ok found => .ok (.resolved found)
  | .error cause => if c.provisional then .ok (.deferred c.reopened) else .error (.error cause)

/-- Parse the complete items of a chunk that ends inside one. -/
def parseOpenEnd (p : TokenTree) (c : Chunk) : Except Failure Outcome :=
  let offset := (p.frontEnd c.text).holdBackPoint
  match c.tailFrom? offset, Text.cut? offset c.text with
  | some rest, some (front, _) =>
      if offset = 0 then .ok (.deferred rest)
      else
        match p.parseStrict c.file front c.lineOffset with
        | .ok found => .ok { found, remainder := some rest }
        | .error cause =>
            if c.provisional then .ok (.deferred c.reopened)
            else
              .ok
                { remainder := some rest
                  warnings := ["Error while parsing chunk " ++ toString c.id ++ " of " ++ c.file ++
                    ", skipping its resolved part: " ++ cause.message] }
  | _, _ => .error (offBoundary offset)

/-- Parse a chunk as far as its edges allow. -/
def outcome (p : TokenTree) (c : Chunk) : Except Failure Outcome :=
  if c.isClosed then p.parseClosed c
  else if c.openStart then .ok (.deferred c)
  else p.parseOpenEnd c

/-- Drop the idle front ends if asked to. -/
def settle (clear : Bool) (m : Memory) : Memory := if clear then m.cleared else m

def toParser (p : TokenTree) : Parser Memory where
  language := p.grammar.language
  splits := true
  parseFile file text clear m :=
    { value := (p.parseStrict file text 0).mapError .error
      memory := settle clear m.afterParse }
  parseChunk c clear m :=
    { value := p.outcome c
      memory := settle clear (if c.openStart then m else m.afterParse) }
  itemStarts text m := { value := (p.frontEnd text).itemStarts?, memory := m.afterParse }
  clear := Memory.cleared

end TokenTree

end ClonePrint
