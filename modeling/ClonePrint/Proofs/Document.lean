import ClonePrint.Proofs.Escaping
import ClonePrint.Sketch

/-!
# Well-formed exports

A document is an export as a tree. It is written out after an XML declaration and
inside one unit. Its functions, their lines and their bodies are read off the tree.
-/
namespace ClonePrint

/-- What stands inside an element: runs of text and further elements in turn. -/
inductive Content where
  | last (text : Text)
  | element (text name attributes : Text) (inner rest : Content)
  | empty (text name attributes : Text) (rest : Content)
  | comment (text attributes : Text) (inner rest : Content)
deriving Repr, DecidableEq

def startTag (name attributes : Text) : Text := '<' :: (name ++ (attributes ++ ['>']))

def endTag (name : Text) : Text := startTag ('/' :: name) []

def emptyTag (name attributes : Text) : Text := startTag name (attributes ++ ['/'])

/-- The name of an element. Comments have a name of their own. -/
def isElementName (name : Text) : Bool :=
  !name.isEmpty && name.all (fun c => [' ', '\t', '\r', '\n', '<', '>', '/'].all (c != ·)) &&
    !"comment".toList.isPrefixOf name

/-- The attributes stand apart from the name and hold no closing bracket. -/
def areAttributes (attributes : Text) : Bool :=
  attributes.head?.all TagStream.endsName && !attributes.contains '>'

def isUnslashed (t : Text) : Bool := t.getLast? != some '/'

namespace Content

def isCommentFree : Content → Bool
  | last _ => true
  | element _ _ _ inner rest => inner.isCommentFree && rest.isCommentFree
  | empty _ _ _ rest => rest.isCommentFree
  | comment .. => false

/-- Names and attributes can be told from what stands around them. No attributes end in a
slash. For tags that open an element outside comments this is judged by the given test. -/
def isWellFormed (unslashed : Text → Bool) : Content → Bool
  | last _ => true
  | element _ name attributes inner rest =>
      isElementName name && areAttributes attributes && unslashed attributes &&
        inner.isWellFormed unslashed && rest.isWellFormed unslashed
  | empty _ name attributes rest =>
      isElementName name && name != "function".toList && areAttributes attributes &&
        isUnslashed attributes && rest.isWellFormed unslashed
  | comment _ attributes inner rest =>
      areAttributes attributes && unslashed attributes && inner.isCommentFree &&
        inner.isWellFormed isUnslashed && rest.isWellFormed unslashed

def render : Content → Text
  | last text => Text.escape text
  | element text name attributes inner rest =>
      Text.escape text ++ (startTag name attributes ++ (inner.render ++ (endTag name ++ rest.render)))
  | empty text name attributes rest =>
      Text.escape text ++ (emptyTag name attributes ++ rest.render)
  | comment text attributes inner rest =>
      Text.escape text ++ (startTag "comment".toList attributes ++
        (inner.render ++ (endTag "comment".toList ++ rest.render)))

/-- What counts in a function: its runs of text and the functions nested in it. A run has no
blanks. It comes with the element it stands in and the innermost one around it that is not a
name. -/
inductive Piece where
  | run (tag above text : Text)
  | nested
deriving Repr, DecidableEq

def Piece.token : Piece → Text
  | run tag above text =>
      if tag ≠ "name".toList ∨ above = "type".toList then text
      else if above = "call".toList then Placeholder.callee.text
      else if above = "function".toList then Placeholder.ownName.text
      else Placeholder.other.text
  | nested => Placeholder.nested.text

/-- The name that a piece gives to the function. -/
def Piece.ownName? : Piece → Option Text
  | run tag above text =>
      if tag = "name".toList ∧ above = "function".toList then some text else none
  | nested => none

/-- Blank runs do not count. -/
def runs (tag above text : Text) : List Piece :=
  if (Text.stripBlanks text).isEmpty then [] else [.run tag above (Text.stripBlanks text)]

/-- The element around what stands in an element, unless the latter is a name. -/
def around (name above : Text) : Text := if name = "name".toList then above else name

/-- The pieces inside an element, given the innermost element around that is not a name. -/
def pieces (tag above : Text) : Content → List Piece
  | last text => runs tag above text
  | element text name _ inner rest =>
      runs tag above text ++
        ((if name = "function".toList then [.nested] else inner.pieces name (around name above)) ++
          rest.pieces tag above)
  | empty text _ _ rest | comment text _ _ rest => runs tag above text ++ rest.pieces tag above

end Content

/-- A function of a document, with what stands between the unit tag and the end of its opening
tag, and of its closing tag. -/
structure FunctionElement where
  content : Content
  opened : Text
  closed : Text
deriving Repr, DecidableEq

namespace FunctionElement

def pieces (f : FunctionElement) : List Content.Piece :=
  f.content.pieces "function".toList "function".toList

def body (f : FunctionElement) : Text := f.pieces.flatMap Content.Piece.token

/-- The last name counts. -/
def name (f : FunctionElement) : Text := (f.pieces.filterMap Content.Piece.ownName?).getLast?.getD []

def firstLine (f : FunctionElement) : Nat := 1 + Text.lineBreaks f.opened

def lastLine (f : FunctionElement) : Nat := 1 + Text.lineBreaks f.closed

def record (file : String) (f : FunctionElement) : Fingerprint :=
  ⟨Digest.ofText f.body, file, String.ofList f.name, f.firstLine, f.lastLine⟩

def isLarge (limits : Thresholds) (f : FunctionElement) : Bool :=
  limits.minChars ≤ f.body.length && limits.minLines ≤ f.lastLine - f.firstLine

/-- The records of functions that are large enough. -/
def recordsOf (file : String) (limits : Thresholds) (functions : List FunctionElement) :
    List Fingerprint :=
  (functions.filter (·.isLarge limits)).map (·.record file)

end FunctionElement

/-- The functions outside comments in the order in which they are closed, given what
stands in front. -/
def Content.functions (front : Text) : Content → List FunctionElement
  | last _ => []
  | element text name attributes inner rest =>
      let opened := front ++ (Text.escape text ++ startTag name attributes)
      let closed := opened ++ (inner.render ++ endTag name)
      inner.functions opened ++
        ((if name = "function".toList then [⟨inner, opened, closed⟩] else []) ++
          rest.functions closed)
  | empty text name attributes rest =>
      rest.functions (front ++ (Text.escape text ++ emptyTag name attributes))
  | comment text attributes inner rest =>
      rest.functions (front ++ (Text.escape text ++ (startTag "comment".toList attributes ++
        (inner.render ++ endTag "comment".toList))))

/-- An export with an XML declaration and one unit. There are blanks in front of the unit and
behind it. -/
structure Document where
  declaration : Text
  gap : Text
  attributes : Text
  content : Content
  tail : Text
deriving Repr, DecidableEq

namespace Document

def isWellFormed (unslashed : Text → Bool) (d : Document) : Bool :=
  areAttributes (d.declaration ++ ['?']) && Text.isAllBlank d.gap && areAttributes d.attributes &&
    isUnslashed d.attributes && d.content.isWellFormed unslashed && Text.isAllBlank d.tail

def render (d : Document) : Text :=
  startTag "?xml".toList (d.declaration ++ ['?']) ++ (d.gap ++
    (startTag "unit".toList d.attributes ++ (d.content.render ++ (endTag "unit".toList ++ d.tail))))

def functions (d : Document) : List FunctionElement := d.content.functions []

end Document

end ClonePrint
