import StrongLL.Regex.Bounds
import StrongLL.Regex.Reader

/-!
# StrongLL.Regex.Engine

What a lexer needs to know of regular expressions. Any engine will do; that of this library makes
automata of them.
-/

namespace StrongLL

/-- An engine turns sources of regular expressions into programs of a type, and runs these. -/
class Regex.Engine (ρ : Type) where
  /-- The program of a source, unless it is malformed. -/
  compile? : String → Option ρ
  /-- The end of the match that a program prefers at the leftmost place with one, in characters from
  the start of the text. -/
  matchEnd? : ρ → List Char → Option Nat
  /-- Matches end within the text. -/
  le_length {program : ρ} {text : List Char} {n : Nat} :
    matchEnd? program text = some n → n ≤ text.length

instance : Regex.Engine Automaton where
  compile? source := (Regex.read? source).map .ofRegex
  matchEnd? := Automaton.matchLength?
  le_length := Automaton.le_length_of_matchLength?

theorem Automaton.matchEnd?_eq (a : Automaton) (text : List Char) :
    Regex.Engine.matchEnd? a text = a.matchLength? text := rfl

end StrongLL
