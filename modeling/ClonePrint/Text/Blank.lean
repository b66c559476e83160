import ClonePrint.Text

/-!
# White space

Blank characters are those with the Unicode property White_Space. Canonical
bodies hold none of them, so layout never reaches a fingerprint.
-/
namespace ClonePrint

/-- The code points with the property White_Space, as closed ranges. -/
def Text.blankRanges : List (Nat × Nat) :=
  [(0x09, 0x0D), (0x20, 0x20), (0x85, 0x85), (0xA0, 0xA0), (0x1680, 0x1680),
   (0x2000, 0x200A), (0x2028, 0x2029), (0x202F, 0x202F), (0x205F, 0x205F),
   (0x3000, 0x3000)]

def Text.isBlank (c : Char) : Bool :=
  blankRanges.any fun range => range.1 ≤ c.toNat && c.toNat ≤ range.2

namespace Text

/-- Remove every blank character, also inside literals. -/
def stripBlanks (t : Text) : Text := t.filter fun c => !isBlank c

def trimStart (t : Text) : Text := t.dropWhile isBlank

def trimEnd (t : Text) : Text := (t.reverse.dropWhile isBlank).reverse

def trim (t : Text) : Text := trimEnd (trimStart t)

def isAllBlank (t : Text) : Bool := t.all isBlank

/-- Stripping works piece by piece. -/
theorem stripBlanks_append (a b : Text) :
    stripBlanks (a ++ b) = stripBlanks a ++ stripBlanks b := List.filter_append ..

end Text

end ClonePrint
