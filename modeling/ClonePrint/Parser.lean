import ClonePrint.Chunk
import ClonePrint.Fingerprint
import ClonePrint.Language

/-!
# Parsers of source files

A parser turns a file, or a chunk of one, into fingerprints. It may keep
something in mind between calls and it may report what happens meanwhile, so an
answer carries both beside its value. A parser that cannot treat chunks on their
own treats each of them as a whole file.
-/
namespace ClonePrint

inductive Notice where
  | warning (text : String)
  | exported (language : Language) (file : String)
deriving Repr, DecidableEq

/-- A value, what is kept in mind after it, and what was reported. -/
structure Answer (σ α : Type) where
  value : α
  memory : σ
  notices : List Notice := []

def Answer.map {σ α β : Type} (f : α → β) (a : Answer σ α) : Answer σ β :=
  { a with value := f a.value }

/-- The end of a program that broke one of its own rules. -/
structure Crash where
  reason : String
deriving Repr, DecidableEq

inductive Failure where
  | error (cause : Error)
  | crash (crash : Crash)
deriving Repr, DecidableEq

/-- What a chunk was turned into. The remainder cannot be understood without the neighbouring
chunks, and a warning tells of a part that was given up. -/
structure Outcome where
  found : List Fingerprint := []
  remainder : Option Chunk := none
  warnings : List String := []
deriving Repr, DecidableEq

def Outcome.resolved (found : List Fingerprint) : Outcome := { found }

def Outcome.deferred (remainder : Chunk) : Outcome := { remainder := some remainder }

/-- A parser for one language. The flag of `parseFile` and `parseChunk` asks it to drop whatever
it keeps for speed, as `clear` does, and `itemStarts` answers if the top-level items of a text are
known. -/
structure Parser (σ : Type) where
  language : Language
  splits : Bool
  parseFile : String → Text → Bool → σ → Answer σ (Except Failure (List Fingerprint))
  parseChunk : Chunk → Bool → σ → Answer σ (Except Failure Outcome)
  itemStarts : Text → σ → Answer σ (Option (List Nat))
  clear : σ → σ

namespace Parser

/-- Treat a chunk as a whole file and move what is found to its lines. -/
def chunkAsFile {σ : Type}
    (parseFile : String → Text → Bool → σ → Answer σ (Except Failure (List Fingerprint)))
    (c : Chunk) (clear : Bool) (memory : σ) : Answer σ (Except Failure Outcome) :=
  (parseFile c.file c.text clear memory).map fun result =>
    result.map fun found => .resolved (found.map (Fingerprint.shifted c.lineOffset))

end Parser

/-- What the built-in parsers keep in mind: how many front ends are ready to be used again, and
whether the export tool turned out to be missing. -/
structure Memory where
  idle : Nat := 0
  unavailable : Bool := false
deriving Repr, DecidableEq

/-- A front end was taken, made if none was idle, and put back. -/
def Memory.afterParse (m : Memory) : Memory := { m with idle := max m.idle 1 }

def Memory.cleared (m : Memory) : Memory := { m with idle := 0 }

end ClonePrint
