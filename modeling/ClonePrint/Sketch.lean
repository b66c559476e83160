import ClonePrint.Fingerprint

/-!
# Sketches of functions

While a function is read, its tokens are collected in a sketch. Identifiers do
not go in as they are written but as one of four placeholders, which is what
makes the digest survive renaming.
-/
namespace ClonePrint

/-- What stands in a canonical body for something that is not kept: the function's own name, the
name of a called function, any other identifier, or a whole function nested inside. -/
inductive Placeholder where
  | ownName
  | callee
  | other
  | nested
deriving Repr, DecidableEq

def Placeholder.text : Placeholder → Text
  | ownName => "funcname".toList
  | callee => "funccall".toList
  | other => "var".toList
  | nested => "funcdef".toList

/-- The body of a function so far and the name found for it. -/
structure Sketch where
  body : Text := []
  name : Option Text := none
deriving Repr, DecidableEq

namespace Sketch

def push (token : Text) (s : Sketch) : Sketch := { s with body := s.body ++ token }

def mark (p : Placeholder) (s : Sketch) : Sketch := s.push p.text

/-- Take note of the function's name; a later name replaces an earlier one. -/
def setName (name : Text) (s : Sketch) : Sketch := { s with name := some name }

def nameText (s : Sketch) : Text := s.name.getD []

/-- The body without its white space. -/
def canonicalBody (s : Sketch) : Text := Text.stripBlanks s.body

/-- The report on the finished function, if it is large enough. -/
def finish (s : Sketch) (file : String) (first last : Nat) (limits : Thresholds) :
    Option Fingerprint :=
  let body := s.canonicalBody
  if limits.admits body first last then
    some (.ofLines (Digest.ofText body) file (String.ofList s.nameText) first last)
  else none

end Sketch

/-- A function of a syntax tree that has been entered and not yet left. -/
structure OpenFunction where
  sketch : Sketch := {}
  startLine : Nat
  nameNode : Option Nat
deriving Repr, DecidableEq

/-- Whether a node holds the name of this function, and no name is known yet. -/
def OpenFunction.isNameSlot (f : OpenFunction) (node : Nat) : Bool :=
  f.nameNode == some node && f.sketch.name.isNone

end ClonePrint
