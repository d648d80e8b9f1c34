import StrongLL.Text.CharSet
import StrongLL.Text.WordCharacter
import StrongLL.Text.AsciiClass

/-!
# StrongLL.Regex.Basic

Regular expressions with ordered choice, in a normal form:

* `Assertion` — conditions on a place between two characters.
* `Regex`     — the expressions.
* `Regex.concat`, `Regex.alternation`, `Regex.iterate`, `Regex.ofSet` — what builds the normal form.
* `Regex.minLength?` — the least number of characters that a match takes.

In the normal form a sequence has no empty parts and no parts that are sequences, literal parts next
to each other are one, and a set with a single character is a literal. A choice has no alternatives
that are choices, a choice between single characters or between sets is a set, and what all
sequences of a choice begin with stands in front of the choice.
-/

namespace StrongLL

inductive WordEdge where
  | boundary
  | noBoundary
  | start
  | stop
  /-- No word character stands before the place. -/
  | noneBefore
  /-- No word character stands after the place. -/
  | noneAfter
deriving DecidableEq, Repr

/-- Whether the edge lies between two characters that belong to words or do not. -/
def WordEdge.holds (before after : Bool) : WordEdge → Bool
  | boundary => before != after
  | noBoundary => before == after
  | start => !before && after
  | stop => before && !after
  | noneBefore => !before
  | noneAfter => !after

/-- With `crlf`, a carriage return ends lines as well, but not within its pair with a line feed.
With `ascii`, only ASCII characters belong to words. -/
inductive Assertion where
  | textStart
  | textEnd
  | lineStart (crlf : Bool)
  | lineEnd (crlf : Bool)
  | word (ascii : Bool) (edge : WordEdge)
deriving DecidableEq, Repr

namespace Assertion

/-- Whether the assertion holds between two characters. At an end of the text there is none. -/
def holds (before after : Option Char) : Assertion → Bool
  | textStart => before.isNone
  | textEnd => after.isNone
  | lineStart crlf =>
    before.all (· = '\n') || crlf && before = some '\r' && after ≠ some '\n'
  | lineEnd crlf =>
    if crlf then after.all fun c => c = '\r' || c = '\n' && before ≠ some '\r'
    else after.all (· = '\n')
  | word ascii edge =>
    let inWord := if ascii then Text.Ascii.wordCharacter.contains else Text.isWordCharacter
    edge.holds (before.any inWord) (after.any inWord)

end Assertion

inductive Regex where
  | empty
  | literal (text : List Char)
  | char (set : CharSet)
  | assertion (a : Assertion)
  /-- Matches what its body matches. -/
  | group (number : Nat) (body : Regex)
  | loop (greedy : Bool) (least : Nat) (most : Option Nat) (body : Regex)
  | seq (first rest : Regex)
  | alt (preferred other : Regex)
deriving DecidableEq, Repr

namespace Regex

def ofSet (s : CharSet) : Regex :=
  match s.only? with
  | some c => literal [c]
  | none => char s

/-- The least number of characters that a match takes. There is none if a part of the expression
cannot match at all. -/
def minLength? : Regex → Option Nat
  | empty => some 0
  | literal text => some text.length
  | char s => if s.isEmpty then none else some 1
  | assertion _ => some 0
  | group _ r => r.minLength?
  | loop _ least _ r => r.minLength?.map (least * ·)
  | seq r t => do return (← r.minLength?) + (← t.minLength?)
  | alt r t => do return min (← r.minLength?) (← t.minLength?)

/-- Matches take no characters. -/
def isWidthless : Regex → Bool
  | empty | assertion _ => true
  | literal _ | char _ => false
  | group _ r => r.isWidthless
  | loop _ _ most r => most.isSome && r.isWidthless
  | seq r t => r.isWidthless && t.isWidthless
  | alt r t => r.isWidthless && t.isWidthless

/-- Every match starts where the text starts. -/
def isAnchored : Regex → Bool
  | assertion a => a = .textStart
  | group _ r => r.isAnchored
  | loop _ least _ r => 0 < least && r.isAnchored
  | seq r _ => r.isAnchored
  | alt r t => r.isAnchored && t.isAnchored
  | empty | literal _ | char _ => false

/-! ## Sequences -/

/-- Put a part that is no sequence in front of a sequence. -/
def cons : Regex → Regex → Regex
  | empty, t => t
  | r, empty => r
  | literal a, literal b => literal (a ++ b)
  | literal a, seq (literal b) t => seq (literal (a ++ b)) t
  | r, t => seq r t

def append : Regex → Regex → Regex
  | seq r rest, t => cons r (append rest t)
  | r, t => cons r t

def concat (parts : List Regex) : Regex := parts.foldr append empty

/-- The parts of a sequence. -/
def parts : Regex → List Regex
  | seq r rest => r :: rest.parts
  | r => [r]

/-! ## Choices -/

/-- The alternatives of a choice. -/
def branches : Regex → List Regex
  | alt r other => r :: other.branches
  | r => [r]

/-- The character of an expression that matches nothing else. -/
def char? : Regex → Option Char
  | literal [c] => some c
  | _ => none

def set? : Regex → Option CharSet
  | char s => some s
  | _ => none

def choice : List Regex → Regex
  | [] => char CharSet.empty
  | [r] => r
  | r :: rest => alt r (choice rest)

/-- A choice that looks for sets of characters but not for common beginnings. -/
def merge (branches : List Regex) : Regex :=
  match branches.mapM char?, branches.mapM set? with
  | some cs, _ => ofSet (cs.foldl (fun s c => s.union (CharSet.single c)) CharSet.empty)
  | none, some ss => ofSet (ss.foldl CharSet.union CharSet.empty)
  | none, none => choice branches

def commonPrefix : List Regex → List Regex → List Regex
  | r :: rest, t :: rest' => if r = t then r :: commonPrefix rest rest' else []
  | _, _ => []

/-- The first alternative is preferred to all later ones. -/
def alternation (alternatives : List Regex) : Regex :=
  match alternatives.flatMap branches with
  | [] => char CharSet.empty
  | [r] => r
  | first :: rest =>
    if (first :: rest).all (1 < ·.parts.length) then
      let common := rest.foldl (fun common r => commonPrefix common r.parts) first.parts
      if common.isEmpty then merge (first :: rest)
      else
        let tails := (first :: rest).map fun r => concat (r.parts.drop common.length)
        concat (common ++ [merge (tails.flatMap branches)])
    else merge (first :: rest)

/-! ## Loops -/

/-- From `least` to `most` iterations, with no limit if there is no `most`. A second iteration of
an expression whose matches take no characters would match whenever the first one does. -/
def iterate (greedy : Bool) (least : Nat) (most : Option Nat) (r : Regex) : Regex :=
  let (least, most) :=
    if r.isWidthless then (min least 1, some ((most.map (min · 1)).getD 1)) else (least, most)
  if most = some 0 then empty
  else if least = 1 && most = some 1 then r
  else loop greedy least most r

end Regex

end StrongLL
