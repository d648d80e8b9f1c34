/-!
# StrongLL.Token

Tokens and their places in a text:

* `TypeId` — the number of a token type, its position in the order of declaration.
* `Place`  — byte offset, line and column; `Place.after` moves a place over text.
* `Token`  — a piece of text with its type and place.
-/

namespace StrongLL

abbrev TypeId := Nat

/-- Offsets count UTF-8 bytes from 0, lines and columns count from 1. Only a line feed starts a
line. -/
structure Place where
  offset : Nat
  line : Nat
  column : Nat
deriving DecidableEq, Repr

namespace Place

def start : Place := ⟨0, 1, 1⟩

/-- The place just after one character. -/
def step (p : Place) (c : Char) : Place :=
  if c = '\n' then ⟨p.offset + c.utf8Size, p.line + 1, 1⟩
  else ⟨p.offset + c.utf8Size, p.line, p.column + 1⟩

def after (p : Place) (text : List Char) : Place := text.foldl step p

@[simp] theorem after_nil (p : Place) : p.after [] = p := rfl

@[simp] theorem after_cons (p : Place) (c : Char) (text : List Char) :
    p.after (c :: text) = (p.step c).after text := rfl

theorem after_append (p : Place) (s t : List Char) : p.after (s ++ t) = (p.after s).after t := by
  simp [after]

end Place

structure Token where
  kind : TypeId
  image : String
  place : Place
deriving DecidableEq, Repr

namespace Token

/-- The length of a token is that of its image in bytes. -/
def size (t : Token) : Nat := t.image.utf8ByteSize

def isEmpty (t : Token) : Bool := t.image.isEmpty

end Token

end StrongLL
