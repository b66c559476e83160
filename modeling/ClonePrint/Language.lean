import ClonePrint.Path
import ClonePrint.Text.Lower

/-!
# Source languages

Python and JavaScript are read through syntax trees. C++, C# and Java are read
through a tagged export of the source.
-/
namespace ClonePrint

inductive Language where
  | python
  | javaScript
  | cpp
  | cSharp
  | java
deriving Repr, DecidableEq

namespace Language

/-- Every language, in the order in which a session works through them. -/
def all : List Language := [python, javaScript, cpp, cSharp, java]

def name : Language → String
  | python => "python"
  | javaScript => "javascript"
  | cpp => "cpp"
  | cSharp => "csharp"
  | java => "java"

/-- The name the export tool knows a language by. -/
def exportName : Language → String
  | python => "Python"
  | javaScript => "JavaScript"
  | cpp => "C++"
  | cSharp => "C#"
  | java => "Java"

def usesExport : Language → Bool
  | python | javaScript => false
  | cpp | cSharp | java => true

/-- The language of a file extension, in any case. -/
def ofExtension? (extension : Text) : Option Language :=
  match String.ofList (Text.lower extension) with
  | "py" => some python
  | "js" => some javaScript
  | "cpp" => some cpp
  | "cs" => some cSharp
  | "java" => some java
  | _ => none

def ofPath? (path : String) : Option Language :=
  (Path.extension? path.toList).bind ofExtension?

/-- The language a user calls by some name, in any case. -/
def ofName? (name : String) : Option Language :=
  match String.ofList (Text.lower name.toList) with
  | "python" | "py" => some python
  | "javascript" | "js" => some javaScript
  | "cpp" | "c++" => some cpp
  | "csharp" | "c#" | "cs" => some cSharp
  | "java" => some java
  | _ => none

end Language

end ClonePrint
