import ClonePrint.Backlog
import ClonePrint.Parser.Default
import ClonePrint.Settings

/-!
# Sessions

A session sorts files into the backlogs of their languages and parses all of
them, one language after the other. A run that fails ends at once: the files of
the failed language and of those before it are gone, the others still wait.
-/
namespace ClonePrint

variable {σ : Type}

/-- What a run came to, with the files in the order in which they were added. -/
structure Findings where
  files : List String
  found : List Fingerprint
deriving Repr, DecidableEq

/-- Files of all languages that wait to be parsed. There is one backlog for each language, and the
names are those of all files. -/
structure Session (σ : Type) where
  settings : Settings
  backlogs : List (Backlog σ)
  names : List String := []

namespace Session

def ofParsers (settings : Settings) (parserOf : Language → Parser σ) (memory : σ) : Session σ :=
  { settings
    backlogs := Language.all.map fun language => { parser := parserOf language, memory } }

def ofFrontEnds (settings : Settings) (fronts : FrontEnds) : Session Memory :=
  ofParsers settings (Parser.ofLanguage fronts settings.thresholds) {}

def isFor (language : Language) (b : Backlog σ) : Bool := b.parser.language == language

/-- Replace the parser of its language. The backlog starts anew. -/
def withParser (parser : Parser σ) (memory : σ) (s : Session σ) : Session σ :=
  { s with
    backlogs := s.backlogs.map fun b =>
      if isFor parser.language b then { parser, memory } else b }

def add? (file : SourceFile) (s : Session σ) : Option (Session σ) :=
  (Language.ofPath? file.name).map fun language =>
    { s with
      backlogs := s.backlogs.map fun b => if isFor language b then b.add file else b
      names := s.names ++ [file.name] }

/-- How many files the next run reports. -/
def fileCount (s : Session σ) : Nat := s.names.length

abbrev Parse (σ : Type) := Backlog σ → Answer (Backlog σ) (Except Failure (List Fingerprint))

/-- Parse the backlogs that hold files. The first failure ends the run. -/
def parseAll (parse : Parse σ) :
    List (Backlog σ) → Answer (List (Backlog σ)) (Except Failure (List Fingerprint))
  | [] => ⟨.ok [], [], []⟩
  | b :: more =>
      let first := if b.isEmpty then ⟨.ok [], b, []⟩ else parse b
      match first.value with
      | .error cause => ⟨.error cause, first.memory :: more, first.notices⟩
      | .ok found =>
          let rest := parseAll parse more
          ⟨rest.value.map (found ++ ·), first.memory :: rest.memory, first.notices ++ rest.notices⟩

/-- Run all backlogs. The names are used up only by a run that succeeds. -/
def runWith (parse : Parse σ) (s : Session σ) :
    Answer (Session σ) (Except Failure Findings) :=
  let answer := parseAll parse s.backlogs
  match answer.value with
  | .error cause => ⟨.error cause, { s with backlogs := answer.memory }, answer.notices⟩
  | .ok found =>
      ⟨.ok ⟨s.names, found⟩, { s with backlogs := answer.memory, names := [] }, answer.notices⟩

/-- Parse everything through worker pools, of which each goes on with the job numbers where the
pools before it ended. -/
def run (s : Session σ) (counterOf : Language → JobCounter := fun _ => {}) :
    Answer (Session σ) (Except Failure Findings) :=
  let c := s.settings
  s.runWith fun b =>
    b.parseParallel c.threadCount c.batchSize c.chunkSize (counterOf b.parser.language)

def runInOrder (s : Session σ) : Answer (Session σ) (Except Failure Findings) :=
  s.runWith (Backlog.parse s.settings.batchSize)

end Session

end ClonePrint
