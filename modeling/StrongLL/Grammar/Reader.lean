import StrongLL.Grammar.Basic

/-!
# StrongLL.Grammar.Reader

Rule bodies read from their written form, character by character:

* `Node.ofChoices` — a choice between sequences, which is what stands between two brackets.
* `Bracket`        — the three pairs of brackets, and what each makes of the body within.
* `Reader`         — what has been read so far: the open brackets, the present body, and the
  beginning of a name.
* `Node.read?`     — the node of a whole text, if the brackets match and all names are known.

Occurrences are not written, so what is read has number 0 throughout.
-/

namespace StrongLL

namespace Node

def ofChoices (choices : List (List Node)) : Node := .alternation (choices.map .sequence) 0 ""

end Node

inductive Bracket where
  | round
  | square
  | curly
deriving DecidableEq, Repr

namespace Bracket

def left : Bracket → Char
  | round => '('
  | square => '['
  | curly => '{'

def right : Bracket → Char
  | round => ')'
  | square => ']'
  | curly => '}'

/-- Round brackets only group. -/
def node : Bracket → Node → Node
  | round, body => body
  | square, body => .optional body 0
  | curly, body => .repetition body 0 false

end Bracket

/-- A body in the making: the alternatives before the last bar, and the parts after it. -/
structure Reading where
  done : List (List Node)
  parts : List Node

structure Reader where
  /-- The brackets that are open, each with the body in which it was opened, the innermost first. -/
  around : List (Bracket × Reading)
  present : Reading
  name : List Char

namespace Reader

def start : Reader := ⟨[], ⟨[], []⟩, []⟩

def add (n : Node) (s : Reader) : Reader :=
  { s with present := { s.present with parts := s.present.parts ++ [n] } }

def endAlternative (s : Reader) : Reader :=
  { s with present := ⟨s.present.done ++ [s.present.parts], []⟩ }

def enter (b : Bracket) (s : Reader) : Reader :=
  { s with around := (b, s.present) :: s.around, present := ⟨[], []⟩ }

def leave (b : Bracket) (s : Reader) : Option Reader :=
  match s.around with
  | (opened, outer) :: around =>
    if opened = b then
      some (add (b.node (.ofChoices s.endAlternative.present.done))
        { s with around, present := outer })
    else none
  | [] => none

/-- The last part is to occur at least once. -/
def repeatLast (s : Reader) : Option Reader :=
  match s.present.parts.getLast? with
  | some (.repetition body i false) =>
    let parts := s.present.parts.dropLast ++ [.repetition body i true]
    some { s with present := { s.present with parts } }
  | _ => none

/-- The characters that are not part of a name. -/
def marks : List Char := [' ', '|', '+', '(', ')', '[', ']', '{', '}']

/-- Take a mark, with no name begun. A blank only ends a name. -/
def mark (s : Reader) : Char → Option Reader
  | ' ' => some s
  | '|' => some s.endAlternative
  | '+' => s.repeatLast
  | '(' => some (s.enter .round)
  | '[' => some (s.enter .square)
  | '{' => some (s.enter .curly)
  | ')' => s.leave .round
  | ']' => s.leave .square
  | '}' => s.leave .curly
  | _ => none

section

variable (node? : String → Option Node)

def endName (s : Reader) : Option Reader :=
  if s.name.isEmpty then some s
  else (node? (.ofList s.name)).map fun n => { s with name := [] }.add n

def next (s : Reader) (c : Char) : Option Reader :=
  if c ∈ marks then (s.endName node?).bind (·.mark c) else some { s with name := s.name ++ [c] }

/-- Read some text to its end, where a name ends, too. -/
def read (s : Reader) (text : List Char) : Option Reader :=
  (text.foldlM (next node?) s).bind (endName node?)

end

end Reader

namespace Node

def read? (node? : String → Option Node) (text : String) : Option Node := do
  let s ← Reader.start.read node? text.toList
  if s.around.isEmpty then some (.ofChoices s.endAlternative.present.done) else none

end Node

end StrongLL
