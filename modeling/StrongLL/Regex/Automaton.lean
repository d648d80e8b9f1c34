import StrongLL.Regex.Basic

/-!
# StrongLL.Regex.Automaton

Automata with ordered choice:

* `Automaton.State` — the states; where there are two ways on, the first one is preferred.
* `Automaton`       — numbered states and the one to start in.
* `Automaton.ofRegex` — the automaton of an expression.

A loop comes back to a state of its own. Matching looks at each state once at a place, so an
iteration that takes no characters does not start another one there.
-/

namespace StrongLL

inductive Automaton.State where
  | char (set : CharSet) (next : Nat)
  | assertion (a : Assertion) (next : Nat)
  | split (preferred other : Nat)
  | accept
deriving DecidableEq, Repr

/-- `anchored` tells that no match starts behind the start of the text. -/
structure Automaton where
  states : Array Automaton.State
  start : Nat
  anchored : Bool
deriving DecidableEq, Repr

namespace Regex

open Automaton (State)

/-- A greedy loop prefers another iteration, a lazy one prefers to stop. -/
def fork (greedy : Bool) (body exit : Nat) : State :=
  if greedy then .split body exit else .split exit body

/-- Add a state and give its number. -/
def addState (s : State) (states : Array State) : Nat × Array State := (states.size, states.push s)

/-- Add `count` copies of a part, each of which goes on with the one added before it. -/
def addCopies (add : Nat → Array State → Nat × Array State) :
    Nat → Nat → Array State → Nat × Array State
  | 0, next, states => (next, states)
  | count + 1, next, states =>
    let (start, states) := add next states
    addCopies add count start states

/-- Add the states of an expression, after which the automaton goes on with `next`, and give the
number of the first one. A loop that may be left at once starts with the state that it comes back
to, unless an iteration may take no characters. Then it starts with a fork of its own, since coming
back after the first iteration is not the same as never having started one. -/
def addTo : Regex → Nat → Array State → Nat × Array State
  | empty, next, states => (next, states)
  | literal text, next, states =>
    text.foldr (fun c (next, states) => addState (.char (CharSet.single c) next) states)
      (next, states)
  | char s, next, states => addState (.char s next) states
  | assertion a, next, states => addState (.assertion a next) states
  | group _ r, next, states => r.addTo next states
  | seq r t, next, states =>
    let (next, states) := t.addTo next states
    r.addTo next states
  | alt r t, next, states =>
    let (other, states) := t.addTo next states
    let (preferred, states) := r.addTo next states
    addState (.split preferred other) states
  | loop greedy least (some most) r, next, states =>
    let optional (after : Nat) (states : Array State) : Nat × Array State :=
      let (start, states) := r.addTo after states
      addState (fork greedy start next) states
    let (start, states) := addCopies optional (most - least) next states
    addCopies r.addTo least start states
  | loop greedy least none r, next, states =>
    let hub := states.size
    let (start, states) := r.addTo hub (states.push .accept)
    let states := states.setIfInBounds hub (fork greedy start next)
    match least with
    | 0 =>
      if r.minLength?.any (0 < ·) then (hub, states) else addState (fork greedy start next) states
    | more + 1 => addCopies r.addTo more start states

end Regex

def Automaton.ofRegex (r : Regex) : Automaton :=
  let (start, states) := r.addTo 0 #[.accept]
  { states, start, anchored := r.isAnchored }

end StrongLL
