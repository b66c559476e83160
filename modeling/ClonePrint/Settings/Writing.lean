import ClonePrint.Settings
import ClonePrint.Yaml.Written

/-!
# Writing settings

Settings are written as a complete document: the version, then every section
with every field. Such a document does not depend on any default.
-/
namespace ClonePrint.Settings

def heading (name : String) : Text := name.toList ++ ":\n".toList

def numberField (name : String) (n : Nat) : Text :=
  "  ".toList ++ name.toList ++ ": ".toList ++ Text.decimal n ++ ['\n']

def textField (name : String) (t : Text) : Text :=
  "  ".toList ++ name.toList ++ ": ".toList ++ Yaml.write 4 t

/-- The settings as a YAML document. -/
def toYaml (s : Settings) : Text :=
  "version: 1\n".toList ++
    heading "thresholds" ++
    numberField "min_function_chars" s.minFunctionChars ++
    numberField "min_method_lines" s.minMethodLines ++
    heading "parallel" ++
    numberField "thread_count" s.threadCount ++
    numberField "batch_size" s.batchSize ++
    numberField "progress_interval" s.progressInterval ++
    heading "chunking" ++
    numberField "chunk_size" s.chunkSize ++
    heading "front_end" ++
    textField "srcml_binary" s.exportProgram.toList

end ClonePrint.Settings
