import ClonePrint.Text.Digits

/-!
# JSON values

Messages between the pool and its workers are JSON. A value keeps the order of
its fields and every repetition of a key, and a number keeps its digits, so that
whoever reads a message decides what to accept. Text whose escapes stand for no
character cannot be read but can be passed over.
-/
namespace ClonePrint

/-- A JSON value. A number stays as it is written, and a string is missing if its escapes leave
half a surrogate pair over. -/
inductive Json where
  | null
  | bool (b : Bool)
  | number (literal : Text)
  | string (content : Option Text)
  | array (items : List Json)
  | object (fields : List (Option Text × Json))

namespace Json

def ofText (t : Text) : Json := .string (some t)

def ofNat (n : Nat) : Json := .number (Text.decimal n)

def ofFields (fields : List (String × Json)) : Json :=
  .object (fields.map fun field => (some field.1.toList, field.2))

/-- How a control character without a short escape is written. -/
def controlEscape (c : Char) : Text :=
  "\\u00".toList ++ [Text.hexDigit (c.toNat / 16), Text.hexDigit (c.toNat % 16)]

def escapeChar (c : Char) : Text :=
  if c = '"' then ['\\', '"']
  else if c = '\\' then ['\\', '\\']
  else if c = '\n' then ['\\', 'n']
  else if c = '\r' then ['\\', 'r']
  else if c = '\t' then ['\\', 't']
  else if c.toNat = 0x08 then ['\\', 'b']
  else if c.toNat = 0x0C then ['\\', 'f']
  else if c.toNat < 0x20 then controlEscape c
  else [c]

def writeText (t : Text) : Text := '"' :: (t.flatMap escapeChar ++ ['"'])

mutual

/-- The shortest layout of a value: no blanks, and fields in their order. -/
def write : Json → Text
  | .null => "null".toList
  | .bool b => if b then "true".toList else "false".toList
  | .number literal => literal
  | .string content => writeText (content.getD [])
  | .array [] => ['[', ']']
  | .array (item :: items) => '[' :: (write item ++ writeItems items)
  | .object [] => ['{', '}']
  | .object (field :: fields) => '{' :: (writeField field ++ writeFields fields)
termination_by structural j => j

/-- The items after the first one and the end of an array. -/
def writeItems : List Json → Text
  | [] => [']']
  | item :: items => ',' :: (write item ++ writeItems items)
termination_by structural items => items

def writeField : Option Text × Json → Text
  | (key, value) => writeText (key.getD []) ++ ':' :: write value
termination_by structural field => field

/-- The fields after the first one and the end of an object. -/
def writeFields : List (Option Text × Json) → Text
  | [] => ['}']
  | field :: fields => ',' :: (writeField field ++ writeFields fields)
termination_by structural fields => fields

end

end Json

end ClonePrint
