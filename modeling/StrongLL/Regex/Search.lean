import StrongLL.Regex.Automaton

/-!
# StrongLL.Regex.Search

Matching by automata:

* `Automaton.advance` — the states behind the next character, those of preferred ways first.
* `Automaton.matchLength?` — the length of the preferred match at the leftmost place that has one,
  counted from the start of the text.

All ways are followed at once, as a list of states in order of preference. A state that can be
reached in two ways at one place is kept where the preferred way reaches it.
-/

namespace StrongLL

namespace Automaton

/-- Follow the `pending` states to those behind the next character, and tell whether a match ends
at the present place. Ways after that end are less preferred and are dropped. `seen` marks the
states looked at, and `next` holds the states found, the last one first. Each state is looked at
once and leads to at most two others, which bounds `room`. -/
def follow (a : Automaton) (before after : Option Char) :
    (room : Nat) → (pending : List Nat) → (seen : Array Bool) → (next : List Nat) → List Nat × Bool
  | 0, _, _, next => (next.reverse, false)
  | _ + 1, [], _, next => (next.reverse, false)
  | room + 1, s :: pending, seen, next =>
    if seen.getD s true then a.follow before after room pending seen next
    else
      let seen := seen.setIfInBounds s true
      match a.states[s]? with
      | some (.char set t) =>
        let next := if after.any set.contains then t :: next else next
        a.follow before after room pending seen next
      | some (.assertion condition t) =>
        let pending := if condition.holds before after then t :: pending else pending
        a.follow before after room pending seen next
      | some (.split preferred other) =>
        a.follow before after room (preferred :: other :: pending) seen next
      | some .accept => (next.reverse, true)
      | none => a.follow before after room pending seen next

/-- The states behind the next character and whether a match ends here, from states in order of
preference. -/
def advance (a : Automaton) (before after : Option Char) (states : List Nat) : List Nat × Bool :=
  let seen := Array.replicate a.states.size false
  a.follow before after (states.length + 2 * a.states.size + 1) states seen []

/-- The end of the preferred match from a place on, where `states` are those reached so far and
`found` is the end of the preferred match so far. Until one is found, a match may also start at
every later place. -/
def endFrom (a : Automaton) (index : Nat) (before : Option Char) (states : List Nat)
    (found : Option Nat) : List Char → Option Nat
  | [] => if (a.advance before none states).2 then some index else found
  | c :: rest =>
    let (next, accepts) := a.advance before (some c) states
    let found := if accepts then some index else found
    let states := if a.anchored || found.isSome then next else next ++ [a.start]
    if states.isEmpty then found else a.endFrom (index + 1) (some c) states found rest

def matchLength? (a : Automaton) (text : List Char) : Option Nat :=
  a.endFrom 0 none [a.start] none text

end Automaton

end StrongLL
