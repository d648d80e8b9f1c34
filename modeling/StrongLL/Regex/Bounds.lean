import StrongLL.Regex.Search

/-!
# StrongLL.Regex.Bounds

Matches stay within their text:

* `Automaton.le_of_endFrom` — a match ends between the place it is looked for from and the end of
  the text, unless it was found before.
* `Automaton.le_length_of_matchLength?` — no match is longer than the text.
-/

namespace StrongLL

namespace Automaton

theorem endFrom_nil (a : Automaton) (index : Nat) (before : Option Char) (states : List Nat)
    (found : Option Nat) :
    a.endFrom index before states found [] =
      if (a.advance before none states).2 then some index else found := by
  rw [endFrom]

/-- The states to go on with behind a character, and the end of the preferred match so far. -/
def step (a : Automaton) (index : Nat) (before : Option Char) (states : List Nat)
    (found : Option Nat) (c : Char) : List Nat × Option Nat :=
  let (next, accepts) := a.advance before (some c) states
  let found := if accepts then some index else found
  (if a.anchored || found.isSome then next else next ++ [a.start], found)

theorem endFrom_cons (a : Automaton) (index : Nat) (before : Option Char) (states : List Nat)
    (found : Option Nat) (c : Char) (rest : List Char) :
    a.endFrom index before states found (c :: rest) =
      let (states, found) := a.step index before states found c
      if states.isEmpty then found else a.endFrom (index + 1) (some c) states found rest := by
  rw [endFrom]
  rfl

/-- What is found at a place is what was found before, or ends at the place. -/
theorem step_found (a : Automaton) (index : Nat) (before : Option Char) (states : List Nat)
    (found : Option Nat) (c : Char) :
    (a.step index before states found c).2 = found ∨
      (a.step index before states found c).2 = some index := by
  simp only [step]
  split
  · exact .inr rfl
  · exact .inl rfl

theorem le_of_endFrom {a : Automaton} {text : List Char} {limit : Nat} :
    ∀ {index : Nat} {before : Option Char} {states : List Nat} {found : Option Nat},
      index + text.length ≤ limit → (∀ n, found = some n → n ≤ limit) →
        ∀ n, a.endFrom index before states found text = some n → n ≤ limit := by
  induction text with
  | nil =>
    intro index before states found hindex hfound n h
    rw [endFrom_nil] at h
    split at h
    · cases h
      exact hindex
    · exact hfound n h
  | cons c rest ih =>
    intro index before states found hindex hfound n h
    rw [List.length_cons] at hindex
    have hstep : ∀ n, (a.step index before states found c).2 = some n → n ≤ limit := by
      intro n hn
      rcases a.step_found index before states found c with heq | heq
      · exact hfound n (heq ▸ hn)
      · cases heq.symm.trans hn
        omega
    rw [endFrom_cons] at h
    dsimp only at h
    split at h
    · exact hstep n h
    · exact ih (by omega) hstep n h

theorem le_length_of_matchLength? {a : Automaton} {text : List Char} {n : Nat}
    (h : a.matchLength? text = some n) : n ≤ text.length :=
  le_of_endFrom (by omega) (by simp) n h

end Automaton

end StrongLL
