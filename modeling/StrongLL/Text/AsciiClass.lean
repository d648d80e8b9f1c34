import StrongLL.Text.CharSet

/-!
# StrongLL.Text.AsciiClass

The named classes of ASCII characters.
-/

namespace StrongLL.Text

namespace Ascii

def upper : CharSet := ⟨[(0x41, 0x5A)]⟩

def lower : CharSet := ⟨[(0x61, 0x7A)]⟩

def letter : CharSet := ⟨[(0x41, 0x5A), (0x61, 0x7A)]⟩

def digit : CharSet := ⟨[(0x30, 0x39)]⟩

def hexDigit : CharSet := ⟨[(0x30, 0x39), (0x41, 0x46), (0x61, 0x66)]⟩

def alphanumeric : CharSet := ⟨[(0x30, 0x39), (0x41, 0x5A), (0x61, 0x7A)]⟩

def wordCharacter : CharSet := ⟨[(0x30, 0x39), (0x41, 0x5A), (0x5F, 0x5F), (0x61, 0x7A)]⟩

/-- White space that may end a line, too. -/
def space : CharSet := ⟨[(0x09, 0x0D), (0x20, 0x20)]⟩

/-- White space within a line. -/
def blank : CharSet := ⟨[(0x09, 0x09), (0x20, 0x20)]⟩

def control : CharSet := ⟨[(0x00, 0x1F), (0x7F, 0x7F)]⟩

def visible : CharSet := ⟨[(0x21, 0x7E)]⟩

def printable : CharSet := ⟨[(0x20, 0x7E)]⟩

def punctuation : CharSet := ⟨[(0x21, 0x2F), (0x3A, 0x40), (0x5B, 0x60), (0x7B, 0x7E)]⟩

def all : CharSet := ⟨[(0x00, 0x7F)]⟩

end Ascii

/-- The class of a name. -/
def asciiClass? : String → Option CharSet
  | "alnum" => some Ascii.alphanumeric
  | "alpha" => some Ascii.letter
  | "ascii" => some Ascii.all
  | "blank" => some Ascii.blank
  | "cntrl" => some Ascii.control
  | "digit" => some Ascii.digit
  | "graph" => some Ascii.visible
  | "lower" => some Ascii.lower
  | "print" => some Ascii.printable
  | "punct" => some Ascii.punctuation
  | "space" => some Ascii.space
  | "upper" => some Ascii.upper
  | "word" => some Ascii.wordCharacter
  | "xdigit" => some Ascii.hexDigit
  | _ => none

end StrongLL.Text
