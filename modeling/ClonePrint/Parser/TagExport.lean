import ClonePrint.Export.Reader
import ClonePrint.Parser

/-!
# Parsing through exports

An exporter turns a source file into text with tags. When its tool is missing
this is remembered and reported once, and later files are passed over.

A call works in three steps, each of which happens at one moment: it looks at
the mark that says the tool is missing, it asks the exporter, and if that failed
for want of the tool it sets the mark. Calls of several workers may interleave
between these steps. Run without interruption they make up `parseFile`.
-/
namespace ClonePrint

/-- Turns the source of a named file into a tagged export. An empty export says
that the tool ran and found nothing. -/
abbrev Exporter := Language → String → Text → Except Error Text

/-- How starting an external program ended. It is unavailable if it does not exist or may not be
run. -/
inductive Launch where
  | unavailable (reason : String)
  | failed (reason : String)
  | finished (success : Bool) (output : Text)

def Exporter.arguments (language : Language) (file : String) : List String :=
  ["-l", language.exportName, "--filename", file]

/-- Export by starting a program that reads the source and writes the export. A
program that reports failure counts as having found nothing. -/
def Exporter.ofProgram (program : String) (start : List String → Text → Launch) : Exporter :=
  fun language file source =>
    match start (arguments language file) source with
    | .unavailable reason => .error (.frontEndUnavailable (program ++ ": " ++ reason))
    | .failed reason => .error (.io reason)
    | .finished success output => .ok (if success then output else [])

structure TagExport where
  language : Language
  exporter : Exporter
  limits : Thresholds := {}

namespace TagExport

def unavailableWarning : String :=
  "structural export unavailable, later files of this language are skipped"

/-- A call in progress. It has not looked at the mark yet, or believes that the tool is there, or
knows that it is missing and is about to set the mark. -/
inductive Call where
  | entered
  | exporting
  | marking (cause : Error)
  | returned (result : Except Failure (List Fingerprint))

def readExport (p : TagExport) (file : String) (text : Text) :
    Except Failure (List Fingerprint) :=
  match Reading.ofExport? file p.limits text with
  | none => .error (.crash ⟨"index out of bounds"⟩)
  | some (.error cause) => .error (.error cause)
  | some (.ok reading) => .ok reading.found

/-- One step of a call. The memory of the answer is the mark after it. -/
def step (p : TagExport) (file : String) (text : Text) (unavailable : Bool) :
    Call → Answer Bool Call
  | .entered =>
      { value := if unavailable then .returned (.ok []) else .exporting, memory := unavailable }
  | .exporting =>
      { value := match p.exporter p.language file text with
          | .ok made => .returned (p.readExport file made)
          | .error (.frontEndUnavailable detail) => .marking (.frontEndUnavailable detail)
          | .error cause => .returned (.error (.error cause))
        memory := unavailable
        notices := [.exported p.language file] }
  | .marking cause =>
      { value := .returned (.error (.error cause))
        memory := true
        notices := if unavailable then [] else [.warning unavailableWarning] }
  | .returned result => { value := .returned result, memory := unavailable }

def steps (p : TagExport) (file : String) (text : Text) :
    Nat → Answer Bool Call → Answer Bool Call
  | 0, a => a
  | n + 1, a =>
      let b := p.step file text a.memory a.value
      steps p file text n { b with notices := a.notices ++ b.notices }

def parseFile (p : TagExport) (file : String) (text : Text) (_clear : Bool) (m : Memory) :
    Answer Memory (Except Failure (List Fingerprint)) :=
  let a := p.steps file text 3 { value := .entered, memory := m.unavailable }
  { value := match a.value with
      | .returned result => result
      | _ => .ok []
    memory := { m with unavailable := a.memory }
    notices := a.notices }

def toParser (p : TagExport) : Parser Memory where
  language := p.language
  splits := false
  parseFile := p.parseFile
  parseChunk := Parser.chunkAsFile p.parseFile
  itemStarts _ m := { value := none, memory := m }
  clear := id

end TagExport

end ClonePrint
