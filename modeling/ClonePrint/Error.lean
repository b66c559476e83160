/-!
# Errors

Failures of one file are recoverable: they are reported and the file counts as
empty. Failures of the worker pool, of the wire format and of the settings end
the whole run.
-/
namespace ClonePrint

inductive SettingsError where
  | range (field : String) (value least most : Nat) (hint : String)
  | missingVersion
  | unsupportedVersion (found : Nat) (supported : List Nat)
  | io (detail : String)
  | yaml (detail : String)
deriving Repr, DecidableEq

/-- Everything that can go wrong. A front end finds no clean tree, a tagged export does not begin
as one, the export tool cannot be started, two chunks that do not belong together are to be
joined, or a line of the worker protocol cannot be read. -/
inductive Error where
  | io (detail : String)
  | parse (detail : String)
  | malformedTagStream (file : String) (line : Nat)
  | frontEndUnavailable (detail : String)
  | chunk (detail : String)
  | pool (detail : String)
  | workerCrashed (worker : Nat) (detail : String)
  | protocol (detail : String)
  | settings (cause : SettingsError)
deriving Repr, DecidableEq

namespace SettingsError

def message : SettingsError → String
  | range field value least most hint =>
      "Invalid range for field '" ++ field ++ "': " ++ toString value ++ " not in " ++
        toString least ++ "..=" ++ toString most ++ ". " ++ hint
  | missingVersion =>
      "Missing 'version' field in configuration file. " ++
        "Add 'version: 1' to the top of your YAML file."
  | unsupportedVersion found supported =>
      "Unsupported configuration version " ++ toString found ++ ". Supported versions: " ++
        ", ".intercalate (supported.map toString)
  | io detail => "IO error: " ++ detail
  | yaml detail => "YAML parsing error: " ++ detail

end SettingsError

namespace Error

def message : Error → String
  | io detail => "IO error: " ++ detail
  | parse detail => "Parse error: " ++ detail
  | malformedTagStream file line =>
      "Malformed tag stream in " ++ file ++ " on line " ++ toString line
  | frontEndUnavailable detail => "Front-end unavailable: " ++ detail
  | chunk detail => "Chunk error: " ++ detail
  | pool detail => "Worker pool error: " ++ detail
  | workerCrashed worker detail => "Worker " ++ toString worker ++ " crashed: " ++ detail
  | protocol detail => "Protocol error: " ++ detail
  | settings cause => "Configuration error: " ++ cause.message

/-- Whether only the file at hand is affected. -/
def isRecoverable : Error → Bool
  | io _ | parse _ | malformedTagStream .. | frontEndUnavailable _ => true
  | _ => false

end Error

end ClonePrint
