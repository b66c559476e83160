import ClonePrint.Yaml.Node

/-!
# What YAML scalars mean

A plain scalar may be a number, a truth value or nothing at all; every other
scalar is text. A number is read only from a plain scalar, or from a literal
block that is tagged as a number. Text is accepted from every scalar.
-/
namespace ClonePrint.Yaml

def nullTag : Text := "tag:yaml.org,2002:null".toList

def intTag : Text := "tag:yaml.org,2002:int".toList

def isNull (t : Text) : Bool := ["null", "Null", "NULL", "~"].any (·.toList == t)

def isTruth (t : Text) : Bool :=
  ["true", "True", "TRUE", "false", "False", "FALSE"].any (·.toList == t)

def isSign (c : Char) : Bool := c = '+' || c = '-'

def dropSign (t : Text) : Text :=
  match t with
  | c :: more => if isSign c then more else t
  | [] => []

/-- Digits that are no number, because the first of several is a zero. -/
def isPadded (t : Text) : Bool :=
  match dropSign t with
  | '0' :: d :: more => (d :: more).all Text.isDigit
  | _ => false

/-- The digits behind a mark for their base. -/
def basedDigits? (t : Text) : Option (Nat × Text) :=
  match t with
  | '0' :: 'x' :: digits => some (16, digits)
  | '0' :: 'o' :: digits => some (8, digits)
  | '0' :: 'b' :: digits => some (2, digits)
  | _ => none

/-- The number without a sign that a text stands for. -/
def magnitude? (t : Text) : Option Nat :=
  match basedDigits? t with
  | some (base, digits) => Text.readDigits? base digits
  | none => Text.readDigits? 10 t

/-- The natural number that a plain scalar stands for. One plus sign is allowed. -/
def natural? (t : Text) : Option Nat :=
  let digits := if t.head? = some '+' then t.tail else t
  if isPadded t then none else magnitude? digits

namespace Node

/-- The value of an optional field. It is missing where nothing is written or a
plain scalar stands for nothing. -/
def optional? (n : Node) : Option (Option Node) :=
  match n with
  | .scalar ⟨text, .plain, none⟩ =>
      if text.isEmpty || isNull text then some none else some (some n)
  | .scalar ⟨text, .plain, some tag⟩ =>
      if tag != nullTag then some (some n) else if isNull text then some none else none
  | _ => some (some n)

def natBelow? (bound : Nat) (n : Node) : Option Nat :=
  match n with
  | .scalar s =>
      if s.style = .plain || (s.style = .literal && s.tag = some intTag) then
        (natural? s.text).filter (· < bound)
      else none
  | .mapping _ => none

def text? : Node → Option Text
  | .scalar s => some s.text
  | .mapping _ => none

/-- The fields of a mapping, each of which must be known and occur once. Nothing
at all counts as a mapping without fields. -/
def fields? (known : List String) (n : Node) : Option (List (Text × Node)) :=
  match n with
  | .scalar s => if s.text.isEmpty && s.style = .plain then some [] else none
  | .mapping entries => do
      let fields ← entries.mapM fun (key, value) => key.text?.map fun name => (name, value)
      let names := fields.map Prod.fst
      if names.all (fun name => known.any (·.toList == name)) && names.eraseDups == names then
        some fields
      else none

end Node

def field? {α : Type} (name : String) (read : Node → Option α) (fields : List (Text × Node)) :
    Option (Option α) :=
  match fields.find? fun entry => entry.1 == name.toList with
  | none => some none
  | some (_, node) =>
      match node.optional? with
      | none => none
      | some none => some none
      | some (some node) => (read node).map some

end ClonePrint.Yaml
