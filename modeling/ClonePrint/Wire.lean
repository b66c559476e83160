import ClonePrint.Json.Decode
import ClonePrint.Json.Read
import ClonePrint.Message
import ClonePrint.Text.Blank

/-!
# The line format of messages

Every message is one JSON value on a line of its own. Strings escape their line
breaks, so a line break ends a message and nothing else does.
-/
namespace ClonePrint.Wire

/-- A value that can be sent as a line. -/
class Encoded (α : Type) where
  toJson : α → Json
  ofJson? : Json → Option α

def encodeLine {α : Type} [Encoded α] (a : α) : Text := (Encoded.toJson a).write ++ ['\n']

/-- The value of a line, with or without what ends it. -/
def decodeLine? {α : Type} [Encoded α] (line : Text) : Option α :=
  (Json.read? (Text.trimEnd line)).bind Encoded.ofJson?

def fingerprintJson (f : Fingerprint) : Json :=
  .ofFields
    [("hash", .ofText f.hash.toList), ("fileName", .ofText f.file.toList),
     ("functionName", .ofText f.function.toList), ("lineStart", .ofNat f.lineStart),
     ("lineEnd", .ofNat f.lineEnd)]

def fingerprint? (j : Json) : Option Fingerprint :=
  match j.columns? ["hash", "fileName", "functionName", "lineStart", "lineEnd"] with
  | some [some hash, some file, some function, some lineStart, some lineEnd] => do
      return ⟨← hash.toString?, ← file.toString?, ← function.toString?,
        ← lineStart.toNat? Json.maxWord, ← lineEnd.toNat? Json.maxWord⟩
  | _ => none

def chunkJson (c : Chunk) : Json :=
  .ofFields
    [("fileName", .ofText c.file.toList), ("text", .ofText c.text), ("chunkId", .ofNat c.id),
     ("byteOffset", .ofNat c.byteOffset), ("lineOffset", .ofNat c.lineOffset),
     ("openStart", .bool c.openStart), ("openEnd", .bool c.openEnd),
     ("partial", .bool c.provisional)]

/-- Read a chunk. Only the last column may be missing. -/
def chunk? (j : Json) : Option Chunk :=
  match j.columns? ["fileName", "text", "chunkId", "byteOffset", "lineOffset", "openStart",
      "openEnd", "partial"] with
  | some [some file, some text, some id, some byteOffset, some lineOffset, some openStart,
      some openEnd, provisional] => do
      return ⟨← file.toString?, ← text.toText?, ← id.toNat? Json.maxWord,
        ← byteOffset.toNat? Json.maxLong, ← lineOffset.toNat? Json.maxWord,
        ← openStart.toBool?, ← openEnd.toBool?, ← (provisional.getD (.bool false)).toBool?⟩
  | _ => none

def jobJson (job : Job Chunk) : Json :=
  .ofFields [("payload", chunkJson job.payload), ("jobId", .ofNat job.id)]

def job? (j : Json) : Option (Job Chunk) :=
  match j.columns? ["payload", "jobId"] with
  | some [some payload, some id] => do return ⟨← chunk? payload, ← id.toNat? Json.maxLong⟩
  | _ => none

def bareJson (kind : String) : Json := .ofFields [("kind", .ofText kind.toList)]

def variantJson (kind : String) (content : Json) : Json :=
  .ofFields [("kind", .ofText kind.toList), ("data", content)]

/-- The content of a variant that has none: it is absent or null. -/
def isBare : Option Json → Bool
  | none | some .null => true
  | _ => false

def dispatchJson : Dispatch → Json
  | .job job => variantJson "JOB" (jobJson job)
  | .noJob => bareJson "NO_JOB"
  | .close => bareJson "CLOSE"

inductive DispatchKind where
  | job
  | noJob
  | close
deriving DecidableEq

def dispatch? (j : Json) : Option Dispatch := do
  let (kind, content) ← j.toPair?
  match ← kind.toVariant? [("JOB", DispatchKind.job), ("NO_JOB", .noJob), ("CLOSE", .close)] with
  | .job => return .job (← content.bind job?)
  | .noJob => if isBare content then return .noJob else none
  | .close => if isBare content then return .close else none

def levelName : LogLevel → String
  | .debug => "debug"
  | .info => "info"
  | .warn => "warn"
  | .error => "error"

def levels : List (String × LogLevel) :=
  [LogLevel.debug, .info, .warn, .error].map fun level => (levelName level, level)

def replyJson : Reply → Json
  | .result file found =>
      variantJson "RESULT"
        (.ofFields [("fileName", .ofText file.toList), ("records", .array (found.map fingerprintJson))])
  | .remainder chunk => variantJson "REMAINDER" (chunkJson chunk)
  | .log level line =>
      variantJson "LOG"
        (.ofFields [("level", .ofText (levelName level).toList), ("line", .ofText line.toList)])
  | .idle => bareJson "IDLE"

inductive ReplyKind where
  | result
  | remainder
  | log
  | idle
deriving DecidableEq

/-- Read the content of a result, which is always an object. -/
def result? (j : Json) : Option Reply :=
  match j.objectColumns? ["fileName", "records"] with
  | some [some file, some found] => do
      return .result (← file.toString?) (← found.toList? fingerprint?)
  | _ => none

/-- Read the content of a log line, which is always an object. -/
def log? (j : Json) : Option Reply :=
  match j.objectColumns? ["level", "line"] with
  | some [some level, some line] => do return .log (← level.toVariant? levels) (← line.toString?)
  | _ => none

def reply? (j : Json) : Option Reply := do
  let (kind, content) ← j.toPair?
  match ← kind.toVariant? [("RESULT", ReplyKind.result), ("REMAINDER", .remainder),
      ("LOG", .log), ("IDLE", .idle)] with
  | .result => content.bind result?
  | .remainder => return .remainder (← content.bind chunk?)
  | .log => content.bind log?
  | .idle => if isBare content then return .idle else none

instance : Encoded Fingerprint := ⟨fingerprintJson, fingerprint?⟩

instance : Encoded Chunk := ⟨chunkJson, chunk?⟩

instance : Encoded Dispatch := ⟨dispatchJson, dispatch?⟩

instance : Encoded Reply := ⟨replyJson, reply?⟩

end ClonePrint.Wire
