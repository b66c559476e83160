import ClonePrint.Text

/-!
# Lower case

Names and extensions are compared without regard to case, and always with
words of ASCII letters. Beside the ASCII capitals only two characters have a
lower case that holds an ASCII letter: the Kelvin sign and the dotted capital
I. Every other character is left alone, which no comparison with an ASCII word
can notice.
-/
namespace ClonePrint.Text

/-- The lower case of one character, as far as ASCII words can show it. -/
def lowerChar (c : Char) : Text :=
  if c.toNat = 0x212A then ['k']
  else if c.toNat = 0x130 then ['i', Char.ofNat 0x307]
  else [c.toLower]

def lower (t : Text) : Text := t.flatMap lowerChar

end ClonePrint.Text
