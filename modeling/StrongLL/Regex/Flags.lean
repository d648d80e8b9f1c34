import StrongLL.Regex.Basic
import StrongLL.Text.Blank
import StrongLL.Text.DecimalDigit

/-!
# StrongLL.Regex.Flags

How the characters of a written expression are taken:

* `Flags`      — case, lines, dots, greed, free spacing, and the reach of character classes.
* `Flags.span` — takes characters that belong together, past white space and comments where
  spacing is free.

Case folding knows ASCII letters only. Where Unicode is switched off, what would match characters
beyond ASCII is refused, except for characters that stand for themselves.
-/

namespace StrongLL

namespace Regex

structure Flags where
  ignoreCase : Bool := false
  multiLine : Bool := false
  dotNewline : Bool := false
  swapGreed : Bool := false
  freeSpacing : Bool := false
  crlf : Bool := false
  unicode : Bool := true
deriving DecidableEq, Repr

namespace Flags

/-- Switch the flag of a letter on or off. -/
def set (f : Flags) (on : Bool) : Char → Option Flags
  | 'i' => some { f with ignoreCase := on }
  | 'm' => some { f with multiLine := on }
  | 's' => some { f with dotNewline := on }
  | 'U' => some { f with swapGreed := on }
  | 'x' => some { f with freeSpacing := on }
  | 'R' => some { f with crlf := on }
  | 'u' => some { f with unicode := on }
  | _ => none

/-! ## Free spacing -/

/-- Take up to `most` characters with a property. Where spacing is free, white space and comments
before, between and after them are passed; a comment runs to the end of its line. -/
def spanFrom (f : Flags) (p : Char → Bool) :
    (inComment : Bool) → (most : Nat) → List Char → List Char × List Char
  | _, _, [] => ([], [])
  | inComment, most, c :: rest =>
    if f.freeSpacing && (inComment || Text.isBlank c || c = '#') then
      f.spanFrom p ((inComment || c = '#') && c ≠ '\n') most rest
    else
      match most with
      | 0 => ([], c :: rest)
      | more + 1 =>
        if p c then
          let (taken, rest) := f.spanFrom p false more rest
          (c :: taken, rest)
        else ([], c :: rest)

def span (f : Flags) (p : Char → Bool) (input : List Char) : List Char × List Char :=
  f.spanFrom p false input.length input

/-- Pass white space and comments. -/
def skip (f : Flags) (input : List Char) : List Char :=
  (f.spanFrom (fun _ => false) false 0 input).2

/-- The next character, seen from a distance: where spacing is free, past white space and one number
sign, but not past the comment that the sign starts. -/
def glimpse? (f : Flags) (input : List Char) : Option Char :=
  if f.freeSpacing then
    match input.dropWhile Text.isBlank with
    | '#' :: rest => (rest.dropWhile Text.isBlank).head?
    | rest => rest.head?
  else input.head?

/-! ## Sets and assertions -/

def fold (f : Flags) (s : CharSet) : CharSet := if f.ignoreCase then s.ignoreCase else s

def literal (f : Flags) (c : Char) : Regex := ofSet (f.fold (CharSet.single c))

def complement? (f : Flags) (s : CharSet) : Option CharSet :=
  if f.unicode then some s.complement else none

def dot? (f : Flags) : Option CharSet :=
  f.complement? <|
    if f.dotNewline then CharSet.empty
    else if f.crlf then (CharSet.single '\n').union (CharSet.single '\r')
    else CharSet.single '\n'

/-- The set of a letter behind a backslash: digits, white space or word characters, and for a
capital letter all others. -/
def named? (f : Flags) : Char → Option CharSet
  | 'd' => some (if f.unicode then Text.decimalDigit else Text.Ascii.digit)
  | 's' => some (if f.unicode then Text.blank else Text.Ascii.space)
  | 'w' => some (if f.unicode then Text.wordCharacter else Text.Ascii.wordCharacter)
  | 'D' => f.complement? Text.decimalDigit
  | 'S' => f.complement? Text.blank
  | 'W' => f.complement? Text.wordCharacter
  | _ => none

def caret (f : Flags) : Assertion := if f.multiLine then .lineStart f.crlf else .textStart

def dollar (f : Flags) : Assertion := if f.multiLine then .lineEnd f.crlf else .textEnd

def edge (f : Flags) (e : WordEdge) : Assertion := .word (!f.unicode) e

end Flags

end Regex

end StrongLL
