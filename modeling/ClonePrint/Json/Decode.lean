import ClonePrint.Decimal
import ClonePrint.Json

/-!
# Decoding JSON values

A structure is written as an object, or as an array of its fields in order. Keys
that it does not know are passed over; a key that it knows may stand only once.
A variant with content is written under the keys `kind` and `data`, or as an
array of the two. Content that comes before its kind has to be set aside, which
asks a little more of it: every string is text, every number is finite, and the
nesting is bounded.
-/
namespace ClonePrint.Json

def maxWord : Nat := 4294967295

def maxLong : Nat := 18446744073709551615

/-- A natural number up to `most`, written without point or exponent. -/
def toNat? (most : Nat) : Json → Option Nat
  | .number literal => (Text.readDigits? 10 literal).filter (· ≤ most)
  | _ => none

def toText? : Json → Option Text
  | .string content => content
  | _ => none

def toString? (j : Json) : Option String := j.toText?.map String.ofList

def toBool? : Json → Option Bool
  | .bool b => some b
  | _ => none

def toList? {α : Type} (item : Json → Option α) : Json → Option (List α)
  | .array items => items.mapM item
  | _ => none

/-- The fields of an object, if every key is text. -/
def namedFields? (fields : List (Option Text × Json)) : Option (List (Text × Json)) :=
  fields.mapM fun field => field.1.map (·, field.2)

def valuesOf (key : String) (fields : List (Text × Json)) : List Json :=
  (fields.filter fun field => field.1 == key.toList).map Prod.snd

/-- The values of the named columns of a structure, where each may be missing. -/
def columns? (names : List String) : Json → Option (List (Option Json))
  | .array items =>
      if items.length ≤ names.length then
        some ((List.range names.length).map fun i => items[i]?)
      else none
  | .object fields =>
      (namedFields? fields).bind fun named =>
        if names.all fun name => (valuesOf name named).length ≤ 1 then
          some (names.map fun name => (valuesOf name named).head?)
        else none
  | _ => none

def objectColumns? (names : List String) : Json → Option (List (Option Json))
  | .object fields => columns? names (.object fields)
  | _ => none

/-- A bare variant, written as its name or as an object that maps it to nothing. -/
def toVariant? {α : Type} (variants : List (String × α)) (j : Json) : Option α :=
  let named (name : Text) := (variants.find? fun v => v.1.toList == name).map Prod.snd
  match j with
  | .string (some name) => named name
  | .object [(some name, .null)] => named name
  | _ => none

def isFinite (literal : Text) : Bool :=
  let unsigned := if literal.head? = some '-' then literal.tail else literal
  (Decimal.read? unsigned).all Decimal.isFinite

mutual

/-- A value that can be set aside, nested at most so deep. -/
def isSound : Nat → Json → Bool
  | _, .null | _, .bool _ => true
  | _, .number literal => isFinite literal
  | _, .string content => content.isSome
  | 0, .array _ | 0, .object _ => false
  | depth + 1, .array items => areSound depth items
  | depth + 1, .object fields => areSoundFields depth fields
termination_by structural _ j => j

def areSound : Nat → List Json → Bool
  | _, [] => true
  | depth, item :: items => isSound depth item && areSound depth items
termination_by structural _ items => items

def isSoundField : Nat → Option Text × Json → Bool
  | depth, (key, value) => key.isSome && isSound depth value
termination_by structural _ field => field

def areSoundFields : Nat → List (Option Text × Json) → Bool
  | _, [] => true
  | depth, field :: fields => isSoundField depth field && areSoundFields depth fields
termination_by structural _ fields => fields

end

/-- How deep content that comes before its kind may be nested. -/
def contentDepth : Nat := 126

/-- Find the kind and the content among the fields of an object, given those
found so far. -/
def pairOf? (kind content : Option Json) : List (Text × Json) → Option (Json × Option Json)
  | [] => kind.map (·, content)
  | (key, value) :: fields =>
      if key = "kind".toList then
        if kind.isSome then none else pairOf? (some value) content fields
      else if key = "data".toList then
        if content.isSome || (kind.isNone && !isSound contentDepth value) then none
        else pairOf? kind (some value) fields
      else pairOf? kind content fields

def toPair? : Json → Option (Json × Option Json)
  | .array [kind, content] => some (kind, some content)
  | .object fields => (namedFields? fields).bind (pairOf? none none)
  | _ => none

end ClonePrint.Json
