import StrongLL.Text.CharSet

/-!
# StrongLL.Text.Blank

The Unicode property White_Space.
-/

namespace StrongLL.Text

def blank : CharSet :=
  ⟨[(0x09, 0x0D), (0x20, 0x20), (0x85, 0x85), (0xA0, 0xA0), (0x1680, 0x1680), (0x2000, 0x200A),
   (0x2028, 0x2029), (0x202F, 0x202F), (0x205F, 0x205F), (0x3000, 0x3000)]⟩

def isBlank (c : Char) : Bool := blank.contains c

end StrongLL.Text
