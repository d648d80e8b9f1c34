import StrongLL.Regex.Basic
import StrongLL.Text.Utf8

/-!
# StrongLL.Regex.Size

A measure of expressions that counts iterations as often as they are copied. It is the memory in
bytes of an automaton that reads UTF-8 forms byte by byte, forwards or backwards, with 32 bytes for
a state, 8 for a byte range within a state, and 4 for an alternative of a choice.
-/

namespace StrongLL

namespace Regex

/-- The reading direction of an automaton. Backwards, no groups are kept track of. -/
inductive Direction where
  | forwards
  | backwards
deriving DecidableEq, Repr

def setSize (d : Direction) (s : CharSet) : Nat :=
  if s.isAscii then 64 + 8 * s.ranges.length
  else
    let forms := Text.Utf8.sequences s
    match d with
    | .forwards =>
      (Text.Utf8.nodes 4 [forms]).foldr
        (fun n size => 32 + 8 * (Text.Utf8.branches n).length + size) 32
    | .backwards => 64 + 4 * forms.length + 32 * Text.Utf8.prefixCount [] forms

def copiesSize (count size : Nat) : Nat := if count = 0 then 32 else count * size

/-- What an expression takes alone, and as one more alternative of a choice. -/
structure Measure where
  alone : Nat
  asBranch : Nat

def Measure.of (alone : Nat) : Measure := ⟨alone, alone + 4⟩

def measure (d : Direction) : Regex → Measure
  | empty | assertion _ => .of 32
  | literal text => .of (32 * (text.map (·.utf8Size)).sum)
  | char s => .of (setSize d s)
  | group _ r =>
    match d with
    | .forwards => .of ((r.measure d).alone + 64)
    | .backwards => .of (r.measure d).alone
  | seq r t => .of ((r.measure d).alone + (t.measure d).alone)
  | alt r t =>
    let branches := (r.measure d).asBranch + (t.measure d).asBranch
    ⟨branches + 64, branches⟩
  | loop _ least most r =>
    let body := (r.measure d).alone
    match least, most with
    | 0, some 1 => .of (body + 72)
    | 0, none => .of (if r.minLength?.any (0 < ·) then body + 40 else body + 112)
    | least, none => .of (least * body + 40)
    | least, some most =>
      let optional := if least < most then 32 + (most - least) * (body + 40) else 0
      .of (copiesSize least body + optional)

/-- The size of the automaton with its entry and end. Forwards it keeps track of the whole match,
backwards it may start anywhere. -/
def size (d : Direction) (r : Regex) : Nat :=
  (r.measure d).alone + match d with
    | .forwards => 128
    | .backwards => 144

/-- Ten binary megabytes. -/
def sizeLimit : Nat := 10485760

def isSmall (r : Regex) : Bool := r.size .forwards ≤ sizeLimit && r.size .backwards ≤ sizeLimit

end Regex

end StrongLL
