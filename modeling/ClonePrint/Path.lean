import ClonePrint.Text

/-!
# Paths

A path is a text with slashes between its components. Empty components and
single dots name nothing; two dots name the directory above and never a file.
-/
namespace ClonePrint.Path

/-- The pieces between slashes, empty ones included. -/
def pieces : Text → List Text
  | [] => [[]]
  | c :: t =>
      match pieces t with
      | piece :: more => if c = '/' then [] :: piece :: more else (c :: piece) :: more
      | [] => [[c]]

/-- The components that name something. -/
def components (path : Text) : List Text :=
  (pieces path).filter fun piece => !(piece.isEmpty || piece == ['.'])

/-- The last component, unless it points upwards. -/
def fileName? (path : Text) : Option Text :=
  match (components path).getLast? with
  | none => none
  | some name => if name = ['.', '.'] then none else some name

/-- What follows the last dot of a file name that does not start with it. -/
def extensionOf? (name : Text) : Option Text :=
  match (name.reverse.takeWhile (· != '.')).reverse,
      (name.reverse.dropWhile (· != '.')).reverse with
  | _, [] => none
  | _, ['.'] => none
  | extension, _ => some extension

def extension? (path : Text) : Option Text := (fileName? path).bind extensionOf?

end ClonePrint.Path
