import ClonePrint.Settings
import ClonePrint.Yaml.Value

/-!
# Reading settings

A settings file is a YAML document with a version and four sections. Everything
but the version may be left out and keeps its default. Nothing unknown and
nothing twice is accepted, and the settings must be valid.
-/
namespace ClonePrint.Settings

open Yaml (Node field?)

def versions : List Nat := [1]

def word (n : Node) : Option Nat := n.natBelow? (Nat.pow 2 64)

def halfWord (n : Node) : Option Nat := n.natBelow? (Nat.pow 2 32)

/-- What a settings file says, section by section, as a change of the settings there are. -/
structure File where
  version : Option Nat := none
  change : Settings → Settings := id

def thresholdSection? (n : Node) : Option (Settings → Settings) := do
  let fields ← n.fields? ["min_function_chars", "min_method_lines"]
  let chars ← field? "min_function_chars" word fields
  let lines ← field? "min_method_lines" halfWord fields
  return fun s =>
    { s with
      minFunctionChars := chars.getD s.minFunctionChars
      minMethodLines := lines.getD s.minMethodLines }

def parallelSection? (n : Node) : Option (Settings → Settings) := do
  let fields ← n.fields? ["thread_count", "batch_size", "progress_interval"]
  let threads ← field? "thread_count" word fields
  let batch ← field? "batch_size" word fields
  let progress ← field? "progress_interval" word fields
  return fun s =>
    { s with
      threadCount := threads.getD s.threadCount
      batchSize := batch.getD s.batchSize
      progressInterval := progress.getD s.progressInterval }

def chunkSection? (n : Node) : Option (Settings → Settings) := do
  let fields ← n.fields? ["chunk_size"]
  let size ← field? "chunk_size" word fields
  return fun s => { s with chunkSize := size.getD s.chunkSize }

def frontEndSection? (n : Node) : Option (Settings → Settings) := do
  let fields ← n.fields? ["srcml_binary"]
  let program ← field? "srcml_binary" Node.text? fields
  return fun s => { s with exportProgram := (program.map String.ofList).getD s.exportProgram }

def ofNode? (n : Node) : Option File := do
  let fields ← n.fields? ["version", "thresholds", "parallel", "chunking", "front_end"]
  let version ← field? "version" halfWord fields
  let thresholds ← field? "thresholds" thresholdSection? fields
  let parallel ← field? "parallel" parallelSection? fields
  let chunking ← field? "chunking" chunkSection? fields
  let frontEnd ← field? "front_end" frontEndSection? fields
  return {
    version
    change := fun s =>
      [thresholds, parallel, chunking, frontEnd].foldl (fun s change => change.getD id s) s }

/-- What a settings file says, if it has the right form. -/
def ofYaml? (t : Text) : Option File := do
  match ← Yaml.read? t with
  | none => some {}
  | some n => ofNode? n

/-- Read settings. What the file leaves out is taken from `defaults`. -/
def read (defaults : Settings) (t : Text) : Except SettingsError Settings :=
  match ofYaml? t with
  | none => .error (.yaml "not a settings document")
  | some file =>
      match file.version with
      | none => .error .missingVersion
      | some version =>
          if !versions.contains version then .error (.unsupportedVersion version versions)
          else
            let settings := file.change defaults
            settings.validate.map fun _ => settings

end ClonePrint.Settings
