import ClonePrint.Digest
import ClonePrint.Text.Blank

/-!
# Fingerprints

A fingerprint names a function, the lines it spans and the digest of its
canonical body. Thresholds decide which functions are large enough to get one.
-/
namespace ClonePrint

/-- The smallest functions that are reported: characters of the canonical body, and lines between
the first and the last one. -/
structure Thresholds where
  minChars : Nat := 0
  minLines : Nat := 0
deriving Repr, DecidableEq

/-- Whether a body that spans the lines from `first` to `last` is large enough. -/
def Thresholds.admits (limits : Thresholds) (body : Text) (first last : Nat) : Bool :=
  limits.minChars ≤ body.length && first ≤ last && limits.minLines ≤ last - first

structure Fingerprint where
  hash : String
  file : String
  function : String
  lineStart : Nat
  lineEnd : Nat
deriving Repr, DecidableEq

namespace Fingerprint

/-- A report whose first line never lies behind its last one. -/
def ofLines (hash file function : String) (first last : Nat) : Fingerprint :=
  ⟨hash, file, function, min first last, last⟩

def lineSpan (f : Fingerprint) : Nat := f.lineEnd - f.lineStart

/-- The same function further down its file, where lines are still words of 32 bits. -/
def shifted (lines : Nat) (f : Fingerprint) : Fingerprint :=
  { f with lineStart := f.lineStart + lines, lineEnd := f.lineEnd + lines }

/-- Moving a function leaves its span alone. -/
theorem lineSpan_shifted (lines : Nat) (f : Fingerprint) :
    (f.shifted lines).lineSpan = f.lineSpan := by
  simp only [lineSpan, shifted, Nat.add_sub_add_right]

end Fingerprint

end ClonePrint
