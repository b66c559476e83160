import ClonePrint.CommandLine
import ClonePrint.Session
import ClonePrint.Settings.Reading
import ClonePrint.Worker
import ClonePrint.Workspace

/-!
# The program

The program fingerprints the files of a workspace, or serves jobs that arrive as
lines. It writes one line per fingerprint or reply. A command line that cannot be
understood ends it with one exit code, every other failure with another one.
-/
namespace ClonePrint

/-- What the program works with. -/
structure World where
  workspace : Workspace
  build : Language → Text → SyntaxTree
  start : String → List String → Text → Launch
  processors : Nat := 4

/-- How the program ended, and the lines it wrote, each with its line break. -/
structure Ending where
  code : Nat
  output : List Text := []
deriving Repr, DecidableEq

namespace Program

/-- The end of a run that could not do its work. -/
def failed (output : List Text) : Ending := ⟨1, output⟩

/-- The end of a run that broke one of its own rules. -/
def crashed (output : List Text) : Ending := ⟨101, output⟩

def frontEnds (world : World) (settings : Settings) : FrontEnds :=
  ⟨world.build, .ofProgram settings.exportProgram (world.start settings.exportProgram)⟩

/-- The settings of a run: the defaults, or what a file says. -/
def settings? (world : World) (config : Option String) : Option Settings :=
  let defaults : Settings := { threadCount := max world.processors 1 }
  match config with
  | none => some defaults
  | some path => do
      let text ← world.workspace.readText? path
      (Settings.read defaults text).toOption

/-- Add the files under a path whose language is known and that are text. -/
def collect (world : World) (path : String) (session : Session Memory) : Session Memory :=
  (world.workspace.filesUnder path).foldl
    (fun session file =>
      match String.fromUTF8? ⟨file.content.toArray⟩ with
      | none => session
      | some text => (session.add? ⟨file.name, text.toList⟩).getD session)
    session

def parse (world : World) (settings : Settings) (path : String) (sequential : Bool) : Ending :=
  let session := collect world path (.ofFrontEnds settings (frontEnds world settings))
  let answer := if sequential then session.runInOrder else session.run
  match answer.value with
  | .ok findings => ⟨0, findings.found.map Wire.encodeLine⟩
  | .error (.error _) => failed []
  | .error (.crash _) => crashed []

def serve (world : World) (settings : Settings) (language : String) (input : List UInt8) :
    Ending :=
  match Language.ofName? language with
  | none => failed []
  | some language =>
      let parser := Parser.ofLanguage (frontEnds world settings) settings.thresholds language
      let served := Worker.serve parser settings.batchSize {} (Worker.decodeLines input)
      match served.failure with
      | none => ⟨0, served.output⟩
      | some (.error _) => failed served.output
      | some (.crash _) => crashed served.output

def carryOut (world : World) (line : CommandLine) (input : List UInt8) : Ending :=
  match settings? world line.config with
  | none => failed []
  | some settings =>
      match line.command with
      | .parse path threads sequential =>
          let settings := { settings with threadCount := threads.getD settings.threadCount }
          match settings.validate with
          | .error _ => failed []
          | .ok _ => parse world settings path sequential
      | .worker language => serve world settings language input

def readsInput (arguments : List String) : Bool :=
  match CommandLine.ofArguments arguments with
  | .ok line =>
      match line.command with
      | .worker _ => true
      | .parse .. => false
  | .error _ => false

def run (world : World) (arguments : List String) (input : List UInt8) : Ending :=
  match CommandLine.ofArguments arguments with
  | .error .usage => ⟨2, []⟩
  | .error .help => ⟨0, []⟩
  | .ok line => carryOut world line input

end Program

end ClonePrint
