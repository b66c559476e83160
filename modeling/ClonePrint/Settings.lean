import ClonePrint.Error
import ClonePrint.Fingerprint

/-!
# Settings

The settings say which functions are large enough to be reported, how files are
batched and split, and how many workers take part. They are checked before they
are used, one rule after the other.
-/
namespace ClonePrint

/-- Everything a user can choose. Files of more than `chunkSize` bytes are split, and a report on
the progress comes after every `progressInterval` results. -/
structure Settings where
  minFunctionChars : Nat := 0
  minMethodLines : Nat := 0
  batchSize : Nat := 10
  chunkSize : Nat := 15360
  progressInterval : Nat := 10
  threadCount : Nat := 4
  exportProgram : String := "srcml"
deriving Repr, DecidableEq

namespace Settings

def thresholds (s : Settings) : Thresholds := ⟨s.minFunctionChars, s.minMethodLines⟩

def most : Nat := Nat.pow 2 64 - 1

/-- Splitting below this many bytes is refused. -/
def leastChunkSize : Nat := 64

def checkLeast (field : String) (value least : Nat) (hint : String) : Except SettingsError Unit :=
  if value < least then .error (.range field value least most hint) else .ok ()

/-- Check every rule; the first one that is broken is reported. -/
def validate (s : Settings) : Except SettingsError Unit := do
  checkLeast "batch_size" s.batchSize 1 "A batch must hold at least one file."
  checkLeast "chunk_size" s.chunkSize leastChunkSize
    "Tiny chunks split almost every function; use the default of 15360."
  checkLeast "progress_interval" s.progressInterval 1
    "Set a positive number of results between progress lines."
  checkLeast "thread_count" s.threadCount 1 "At least one worker is required."

end Settings

end ClonePrint
