import StrongLL.Proofs.LexerEntries

/-!
# StrongLL.Proofs.AutomatonRuns

Matches on which no two ways are open at once:

* `Automaton.waits`     — the sets of characters a state waits for, with the states behind them.
  They do not depend on the character that comes.
* `Automaton.isGuarded` — no assertion but that of the start of the text.
* `Automaton.leads`     — characters that lead from a state to another one, the only one.
* `Automaton.Reads`     — a text whose characters lead from a state to another one.
* `Automaton.Stops`     — a match ends in a state and the rest of the text leads no further.
* `Automaton.Reads.matchLength?` — the preferred match is the text that is read from the entry to a
  state that stops.
* `Recognizer.rejects`  — nothing that begins with a character is matched.
* `Lexer.candidate?`    — the first entry that does not reject a character.
* `Lexer.IsOf.takes_of_isCandidate` — what it matches is taken.
-/

namespace StrongLL

namespace Automaton

/-- No match starts behind the start of the text, and no assertion asks for anything else. -/
def isGuarded (a : Automaton) : Bool :=
  a.anchored && a.states.toList.all fun
    | .assertion condition _ => condition = .textStart
    | _ => true

/-- What `follow` does for any character: the sets looked at on the way, with the states behind
them, and whether a match ends. -/
def collect (a : Automaton) (holds : Assertion → Bool) :
    (room : Nat) → (pending : List Nat) → (seen : Array Bool) → (found : List (CharSet × Nat)) →
      List (CharSet × Nat) × Bool
  | 0, _, _, found => (found.reverse, false)
  | _ + 1, [], _, found => (found.reverse, false)
  | room + 1, s :: pending, seen, found =>
    if seen.getD s true then a.collect holds room pending seen found
    else
      let seen := seen.setIfInBounds s true
      match a.states[s]? with
      | some (.char set t) => a.collect holds room pending seen ((set, t) :: found)
      | some (.assertion condition t) =>
        a.collect holds room (if holds condition then t :: pending else pending) seen found
      | some (.split preferred other) =>
        a.collect holds room (preferred :: other :: pending) seen found
      | some .accept => (found.reverse, true)
      | none => a.collect holds room pending seen found

/-- The sets that a state waits for, those of preferred ways first, and whether a match ends in it.
At the start of the text assertions hold, and nowhere else. -/
def waits (a : Automaton) (atStart : Bool) (q : Nat) : List (CharSet × Nat) × Bool :=
  a.collect (fun _ => atStart) (1 + 2 * a.states.size + 1) [q]
    (Array.replicate a.states.size false) []

/-- The state behind a set, if the character is one of the set. -/
def target? (after : Option Char) (x : CharSet × Nat) : Option Nat :=
  if after.any x.1.contains then some x.2 else none

/-- The states behind a character. -/
def next (a : Automaton) (atStart : Bool) (q : Nat) (c : Char) : List Nat :=
  (a.waits atStart q).1.filterMap (target? (some c))

/-- Each of the characters leads from one state to the other, and to no further one. -/
def leads (a : Automaton) (q : Nat) (cs : List Char) (q' : Nat) : Bool :=
  cs.all fun c => a.next false q c = [q']

/-- A match ends in the state, and none of the characters leads further. -/
def stopsBefore (a : Automaton) (q : Nat) (cs : List Char) : Bool :=
  (a.waits false q).2 && cs.all fun c => a.next false q c = []

variable {a : Automaton}

theorem follow_eq_collect (before after : Option Char) (room : Nat) (pending : List Nat)
    (seen : Array Bool) (found : List (CharSet × Nat)) :
    a.follow before after room pending seen (found.filterMap (target? after)) =
      let (ways, accepts) := a.collect (·.holds before after) room pending seen found
      (ways.filterMap (target? after), accepts) := by
  induction room generalizing pending seen found with
  | zero => simp [follow, collect, List.filterMap_reverse]
  | succ room ih =>
    cases pending with
    | nil => simp [follow, collect, List.filterMap_reverse]
    | cons s pending =>
      rw [follow, collect]
      split
      · exact ih pending seen found
      · cases a.states[s]? with
        | none => exact ih _ _ _
        | some state =>
          cases state with
          | char set t =>
            have hfound : (if after.any set.contains then t :: found.filterMap (target? after)
                else found.filterMap (target? after)) =
                ((set, t) :: found).filterMap (target? after) := by
              by_cases hset : after.any set.contains = true <;> simp [target?, hset]
            dsimp only
            rw [hfound]
            exact ih _ _ _
          | assertion condition t => exact ih _ _ _
          | split preferred other => exact ih _ _ _
          | accept => simp [List.filterMap_reverse]

/-- Only assertions of the automaton are asked for. -/
theorem collect_congr {holds holds' : Assertion → Bool}
    (h : ∀ condition t, .assertion condition t ∈ a.states → holds condition = holds' condition)
    (room : Nat) (pending : List Nat) (seen : Array Bool) (found : List (CharSet × Nat)) :
    a.collect holds room pending seen found = a.collect holds' room pending seen found := by
  induction room generalizing pending seen found with
  | zero => rfl
  | succ room ih =>
    cases pending with
    | nil => rfl
    | cons s pending =>
      rw [collect, collect]
      split
      · exact ih pending seen found
      · cases hs : a.states[s]? with
        | none => exact ih _ _ _
        | some state =>
          cases state with
          | char set t => exact ih _ _ _
          | assertion condition t =>
            dsimp only
            rw [h condition t (Array.mem_of_getElem? hs)]
            exact ih _ _ _
          | split preferred other => exact ih _ _ _
          | accept => rfl

theorem advance_eq (ha : a.isGuarded) (before after : Option Char) (q : Nat) :
    a.advance before after [q] =
      ((a.waits before.isNone q).1.filterMap (target? after), (a.waits before.isNone q).2) := by
  obtain ⟨-, hstates⟩ := Bool.and_eq_true_iff.mp ha
  have hsame : ∀ condition t, .assertion condition t ∈ a.states →
      condition.holds before after = before.isNone := by
    intro condition t ht
    have hcondition := List.all_eq_true.mp hstates _ (Array.mem_toList_iff.mpr ht)
    obtain rfl : condition = .textStart := by simpa using hcondition
    rfl
  have hfollow := follow_eq_collect (a := a) before after (1 + 2 * a.states.size + 1) [q]
    (Array.replicate a.states.size false) []
  rw [collect_congr hsame] at hfollow
  exact hfollow

/-- The text leads from one state to another, and at each place on it to one state only. -/
inductive Reads (a : Automaton) : Nat → List Char → Nat → Prop where
  | nil {q : Nat} : Reads a q [] q
  | cons {q q' q'' : Nat} {c : Char} {rest : List Char} :
      a.next false q c = [q'] → Reads a q' rest q'' → Reads a q (c :: rest) q''

/-- A match ends in the state, and the next character leads no further. -/
structure Stops (a : Automaton) (q : Nat) (rest : List Char) : Prop where
  accepts : (a.waits false q).2 = true
  next : ∀ c, rest.head? = some c → a.next false q c = []

theorem stops_of_stopsBefore {q : Nat} {cs rest : List Char} (h : a.stopsBefore q cs = true)
    (hrest : ∀ c, rest.head? = some c → c ∈ cs) : a.Stops q rest := by
  obtain ⟨haccepts, hnext⟩ := Bool.and_eq_true_iff.mp h
  refine ⟨haccepts, fun c hc => ?_⟩
  simpa using List.all_eq_true.mp hnext c (hrest c hc)

namespace Reads

variable {q q' q'' : Nat} {text text' rest cs : List Char}

/-- One of the characters that lead to the next state comes first. -/
theorem of_leads {c : Char} (h : a.leads q cs q' = true) (hc : c ∈ cs) (h' : a.Reads q' rest q'') :
    a.Reads q (c :: rest) q'' :=
  .cons (by simpa using List.all_eq_true.mp h c hc) h'

theorem single {c : Char} (h : a.leads q cs q' = true) (hc : c ∈ cs) : a.Reads q [c] q' :=
  .of_leads h hc .nil

theorem append (h : a.Reads q text q') (h' : a.Reads q' text' q'') :
    a.Reads q (text ++ text') q'' := by
  induction h with
  | nil => exact h'
  | cons hnext _ ih => exact .cons hnext (ih h')

/-- A state that characters lead back to reads any number of them. -/
theorem loop (h : a.leads q cs q = true) (htext : ∀ c ∈ text, c ∈ cs) : a.Reads q text q := by
  induction text with
  | nil => exact .nil
  | cons c rest ih =>
    exact .of_leads h (htext c (by simp)) (ih fun d hd => htext d (by simp [hd]))

/-- The matches that may have ended on the way are forgotten where the state stops. -/
theorem endFrom (ha : a.isGuarded) (h : a.Reads q text q') (hstops : a.Stops q' rest)
    (index : Nat) (before : Char) (found : Option Nat) :
    a.endFrom index (some before) [q] found (text ++ rest) = some (index + text.length) := by
  obtain ⟨hanchored, -⟩ := Bool.and_eq_true_iff.mp ha
  induction h generalizing index before found with
  | @nil q =>
    cases rest with
    | nil =>
      rw [List.nil_append, endFrom_nil, advance_eq ha]
      simp [hstops.accepts]
    | cons c rest =>
      have hnext := hstops.next c rfl
      rw [List.nil_append, endFrom_cons, step, advance_eq ha]
      unfold Automaton.next at hnext
      simp [hstops.accepts, hanchored, hnext]
  | @cons q q' _ c text hnext _ ih =>
    unfold Automaton.next at hnext
    rw [List.cons_append, endFrom_cons, step, advance_eq ha]
    simp only [Option.isNone_some, hnext, hanchored, Bool.true_or, if_true, List.isEmpty_cons,
      Bool.false_eq_true, if_false]
    rw [ih hstops, List.length_cons]
    congr 1
    omega

/-- What is read from the entry, the state behind the assertion, to a state that stops is the
preferred match. -/
theorem matchLength? (ha : a.isGuarded) (hentry : a.waits true a.start = a.waits false q)
    (h : a.Reads q text q') (hne : text ≠ []) (hstops : a.Stops q' rest) :
    (Recognizer.regex a).matchLength? (text ++ rest) = some text.length := by
  obtain ⟨hanchored, -⟩ := Bool.and_eq_true_iff.mp ha
  cases h with
  | nil => exact absurd rfl hne
  | @cons _ q' _ c text hnext h =>
    unfold Automaton.next at hnext
    have hlength : a.matchLength? (c :: text ++ rest) = some (1 + text.length) := by
      rw [Automaton.matchLength?, List.cons_append, endFrom_cons, step, advance_eq ha]
      simp only [Option.isNone_none, hentry, hnext, hanchored, Bool.true_or, if_true,
        List.isEmpty_cons, Bool.false_eq_true, if_false]
      exact h.endFrom ha hstops _ _ _
    rw [Recognizer.matchLength?, matchEnd?_eq, hlength, List.length_cons, Nat.add_comm]
    rfl

end Reads

end Automaton

namespace Recognizer

/-- Nothing that begins with the character is matched. -/
def rejects (c : Char) : Recognizer Automaton → Bool
  | literal l => l.head? ≠ some c
  | regex a => a.isGuarded && !(a.waits true a.start).2 && (a.next true a.start c).isEmpty

theorem matchLength?_of_rejects {r : Recognizer Automaton} {c : Char} (h : r.rejects c = true)
    (rest : List Char) : r.matchLength? (c :: rest) = none := by
  cases r with
  | literal l =>
    cases l with
    | nil => rfl
    | cons d l =>
      have hd : (d == c) = false := by simpa [rejects] using h
      simp [matchLength?, List.isPrefixOf, hd]
  | regex a =>
    simp only [rejects, Bool.and_eq_true, Bool.not_eq_true', List.isEmpty_iff] at h
    obtain ⟨⟨ha, haccepts⟩, hnext⟩ := h
    obtain ⟨hanchored, -⟩ := Bool.and_eq_true_iff.mp ha
    unfold Automaton.next at hnext
    have hlength : a.matchLength? (c :: rest) = none := by
      rw [Automaton.matchLength?, Automaton.endFrom_cons, Automaton.step, Automaton.advance_eq ha]
      simp [hanchored, haccepts, hnext]
    rw [matchLength?, Automaton.matchEnd?_eq, hlength]
    rfl

end Recognizer

namespace Lexer

variable {v : Vocabulary} {order : List TypeId} {l : Lexer}

/-- The first entry that may match a text that begins with the character. -/
def candidate? (l : Lexer) (c : Char) : Option (LexerEntry Automaton) :=
  l.entries.find? fun e => !e.recognizer.rejects c

/-- The entry is the candidate for each of the characters. -/
def isCandidate (l : Lexer) (cs : List Char) (e : LexerEntry Automaton) : Bool :=
  cs.all fun c => l.candidate? c = some e

/-- What the candidate for the first character matches is taken. -/
theorem IsOf.takes_of_isCandidate (h : l.IsOf v order) {cs : List Char}
    {e : LexerEntry Automaton} (he : l.isCandidate cs e = true)
    (halt : v.longerAlt? e.kind = none) {c : Char} {image rest : List Char} (hc : c ∈ cs)
    (hhead : image.head? = some c)
    (hm : e.recognizer.matchLength? (image ++ rest) = some image.length) :
    v.Takes Automaton order (image ++ rest) e.kind image := by
  have hcandidate : l.candidate? c = some e := by simpa using List.all_eq_true.mp he c hc
  obtain ⟨-, before, after, hl, hbefore⟩ := List.find?_eq_some_iff_append.mp hcandidate
  obtain ⟨tail, rfl⟩ := List.head?_eq_some_iff.mp hhead
  have hfirst : v.FirstMatch Automaton order (c :: tail ++ rest) e.kind
      ((c :: tail ++ rest).take (c :: tail).length) := by
    refine h.firstMatch hl hm fun b hb => ?_
    exact Recognizer.matchLength?_of_rejects (by simpa using hbefore b hb) (tail ++ rest)
  rw [List.take_left] at hfirst
  refine .first hfirst fun alt longer hdeclared => ?_
  rw [halt] at hdeclared
  cases hdeclared

end Lexer

end StrongLL
