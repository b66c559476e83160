import ClonePrint.Language
import ClonePrint.Syntax.Tree

/-!
# Grammars

A grammar sorts the nodes of a syntax tree: which open a function and where its
name stands, which call one and who is called, which are identifiers or types,
and which are taken as one token or left out.
-/
namespace ClonePrint

/-- How the nodes of one language are to be understood. Identifiers below a type are kept as they
are, an atomic node is one token whatever is below it, and an idle literal, which is a statement
on its own, leaves no trace in a body. -/
structure Grammar where
  language : Language
  isFunction : SyntaxTree → Bool
  functionName? : SyntaxTree → Option SyntaxTree
  isCall : SyntaxTree → Bool
  callee? : SyntaxTree → Option SyntaxTree
  isIdentifier : SyntaxTree → Bool
  isType : SyntaxTree → Bool
  isAtomic : SyntaxTree → Bool
  isComment : SyntaxTree → Bool
  isIdleLiteral : SyntaxTree → Bool

namespace Grammar

/-- What is called through `field`: the identifier there, or the last part of an
access to a member. -/
def calleeAt? (field access part : String) (call : SyntaxTree) : Option SyntaxTree :=
  (call.child? field).bind fun callee =>
    if callee.kind = "identifier" then some callee
    else if callee.kind = access then callee.child? part
    else none

def isPythonString (t : SyntaxTree) : Bool :=
  t.kind == "string" || t.kind == "concatenated_string"

/-- Python. A statement that is nothing but a string is a documentation string
or has no effect, so it is left out. -/
def python : Grammar where
  language := .python
  isFunction t := t.kind == "function_definition"
  functionName? t := t.child? "name"
  isCall t := t.kind == "call"
  callee? := calleeAt? "function" "attribute" "attribute"
  isIdentifier t := t.kind == "identifier"
  isType t := t.kind == "type"
  isAtomic := isPythonString
  isComment t := t.kind == "comment"
  isIdleLiteral t :=
    t.kind == "expression_statement" &&
      match t.namedChildren with
      | [only] => isPythonString only
      | _ => false

def javaScriptFunctions : List String :=
  ["function_declaration", "function_expression", "function", "generator_function",
   "generator_function_declaration", "arrow_function", "method_definition"]

def javaScriptIdentifiers : List String :=
  ["identifier", "property_identifier", "private_property_identifier",
   "shorthand_property_identifier", "shorthand_property_identifier_pattern"]

/-- JavaScript. The keyword `function` has the kind of an old sort of function,
so only named nodes open one. -/
def javaScript : Grammar where
  language := .javaScript
  isFunction t := t.label.named && javaScriptFunctions.contains t.kind
  functionName? t := t.child? "name"
  isCall t := t.kind == "call_expression" || t.kind == "new_expression"
  callee? t :=
    calleeAt? (if t.kind = "new_expression" then "constructor" else "function")
      "member_expression" "property" t
  isIdentifier t := javaScriptIdentifiers.contains t.kind
  isType _ := false
  isAtomic t := t.kind == "string" || t.kind == "template_string" || t.kind == "regex"
  isComment t := t.kind == "comment" || t.kind == "html_comment"
  isIdleLiteral _ := false

end Grammar

end ClonePrint
