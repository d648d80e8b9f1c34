import StrongLL.Proofs.DeeperLookahead
import StrongLL.Proofs.Nesting

/-!
# StrongLL.Proofs.NestingLimit

What a nesting limit changes:

* `Draft.parser_withLimit`  — the parsers of a draft for different limits differ in nothing else.
* `Moment.Blocked`          — a rule is about to be entered that the limit keeps out.
* `Parser.step_eq`          — at all other moments a step is the same without the limit.
* `Parser.limited_iterate`  — so both runs go the same way up to the first such moment.
* `Parser.Ready.run_blocked` — where the run with the limit ends.
* `Draft.parse_limited`     — a limit is exceeded just if the run without one goes deeper, and
  otherwise the limit has no part in the result.
-/

namespace StrongLL

namespace Parser

/-- The same parser with another limit. -/
def withLimit (p : Parser) (n : Nat) : Parser :=
  { p with config := { p.config with nestingLimit := n } }

theorem Ready.withLimit {p : Parser} (hp : p.Ready) (n : Nat) : (p.withLimit n).Ready :=
  ⟨hp.lookahead_pos, hp.proper, hp.grounded, hp.progressive, hp.clear, hp.predictor⟩

end Parser

namespace Draft

variable {d : Draft} {p : Parser}

def withLimit (d : Draft) (n : Nat) : Draft :=
  { d with config := { d.config with nestingLimit := n } }

theorem parser_withLimit (hp : d.parser = .ok p) (n : Nat) :
    (d.withLimit n).parser = .ok (p.withLimit n) := by
  obtain ⟨hg, hv, hconfig, htable⟩ := parser_parts hp
  have hlimited : (d.withLimit n).grammar = .ok p.grammar :=
    grammar_withConfig hg (lookahead_pos hg)
  rw [hconfig, hv] at htable
  rw [parser_of_grammar hlimited]
  show (p.grammar.table d.vocabulary d.config.lookahead).map _ = _
  rw [htable, Parser.withLimit, hconfig, hv]
  rfl

end Draft

namespace Moment

/-- A rule of the grammar is about to be entered with as many invocations active as the limit
allows. -/
def Blocked (g : Grammar) (n : Nat) : Moment → Prop
  | calling r outer _ => r < g.size ∧ n ≤ outer.length
  | _ => False

variable {g : Grammar} {n : Nat}

theorem Blocked.exists_calling {m : Moment} (h : m.Blocked g n) :
    ∃ r outer s, m = .calling r outer s ∧ r < g.size ∧ n ≤ outer.length := by
  cases m with
  | calling r outer s => exact ⟨r, outer, s, rfl, h⟩
  | working f outer s => exact h.elim
  | returning t outer s => exact h.elim
  | ended result => exact h.elim

theorem Blocked.mono {m : Moment} {k : Nat} (hkn : k ≤ n) (h : m.Blocked g n) :
    m.Blocked g k := by
  obtain ⟨r, outer, s, rfl, hr, hfull⟩ := h.exists_calling
  exact ⟨hr, Nat.le_trans hkn hfull⟩

/-- There is room for a rule that is not blocked. -/
theorem length_lt_of_not_blocked {r : RuleId} {rule : Rule} {outer : List Frame} {s : RunState}
    (h : ¬ (calling r outer s).Blocked g n) (hr : g.get? r = some rule) : outer.length < n :=
  Nat.lt_of_not_le fun hfull => h ⟨Grammar.get?_eq_some_lt hr, hfull⟩

end Moment

namespace Parser

variable {p : Parser} {n i : Nat} {m : Moment}

/-- The limit of a step is its own, not that of its parser. -/
theorem step_withLimit (p : Parser) (n : Nat) (limit : Option Nat) :
    (p.withLimit n).step limit = p.step limit := rfl

/-- A limit has no part in a step, unless it blocks it. -/
theorem step_eq (h : ¬ m.Blocked p.grammar n) : p.step (some n) m = p.step none m := by
  cases m with
  | calling r outer s =>
    rw [step, step, enter, enter]
    cases hr : p.grammar.get? r with
    | none => rfl
    | some rule =>
      have hfree : outer.length < n := Moment.length_lt_of_not_blocked h hr
      rw [Option.filter_some, if_neg (by simpa using hfree)]
      rfl
  | working f outer s => rfl
  | returning t outer s => cases outer <;> rfl
  | ended result => rfl

/-- Up to the first moment that the limit blocks, it has no part in the run. -/
theorem limited_iterate (h : ∀ j < i, ¬ ((p.step none)^[j] m).Blocked p.grammar n) :
    (p.step (some n))^[i] m = (p.step none)^[i] m := by
  induction i with
  | zero => rfl
  | succ i ih =>
    rw [Function.iterate_succ_apply', Function.iterate_succ_apply',
      ih fun j hj => h j (Nat.lt_succ_of_lt hj)]
    exact step_eq (h i (Nat.lt_succ_self i))

/-! ## Active invocations -/

theorem Begins.active_le {f : Frame} {outer : List Frame} {s : RunState} {task : Task}
    (h : p.Begins f outer s task m) : m.active.length ≤ outer.length + 1 := by
  cases h with
  | push _ => exact Nat.le_refl _
  | take _ _ => exact Nat.le_refl _
  | call => exact Nat.le_refl _
  | fail _ => exact Nat.zero_le _

/-- Only an invocation that is entered adds to the active ones. -/
theorem active_step (h : ¬ m.Blocked p.grammar n) (hactive : m.active.length ≤ n) :
    (p.step none m).active.length ≤ n := by
  have hgoes := p.goes none m
  generalize p.step none m = m' at hgoes ⊢
  cases hgoes with
  | enter hr _ => exact Moment.length_lt_of_not_blocked h hr
  | work _ hbegins => exact Nat.le_trans hbegins.active_le hactive
  | finish _ => exact Nat.le_of_succ_le hactive
  | resume => exact hactive
  | unknown _ | tooDeep _ _ _ | leftover _ _ | complete _ | stay => exact Nat.zero_le _

theorem active_iterate (h : ∀ j < i, ¬ ((p.step none)^[j] m).Blocked p.grammar n)
    (hactive : m.active.length ≤ n) : ((p.step none)^[i] m).active.length ≤ n := by
  induction i with
  | zero => exact hactive
  | succ i ih =>
    rw [Function.iterate_succ_apply']
    exact active_step (h i (Nat.lt_succ_self i)) (ih fun j hj => h j (Nat.lt_succ_of_lt hj))

/-! ## Where a run ends -/

variable {limit : Option Nat} {result result' : Except RunError (ParseTree × RunState)}

theorem iterate_ended (j : Nat) : (p.step limit)^[j] (.ended result) = .ended result :=
  Function.iterate_fixed rfl j

/-- A run that has ended stays as it is. -/
theorem iterate_of_ended {j : Nat} (hij : i ≤ j) (h : (p.step limit)^[i] m = .ended result) :
    (p.step limit)^[j] m = .ended result := by
  obtain ⟨k, rfl⟩ := Nat.exists_eq_add_of_le hij
  rw [Nat.add_comm, Function.iterate_add_apply, h, iterate_ended]

theorem ended_unique {j : Nat} (h : (p.step limit)^[i] m = .ended result)
    (h' : (p.step limit)^[j] m = .ended result') : result = result' := by
  obtain hij | hij := Nat.le_total i j
  · cases (iterate_of_ended hij h).symm.trans h'
    rfl
  · cases h.symm.trans (iterate_of_ended hij h')
    rfl

/-- A run without a limit does not exceed one. -/
theorem Ready.unlimited_error (hp : p.Ready) {r : RuleId} {w : List Token} {e : RunError}
    (h : (p.step none)^[i] (.start r w) = .ended (.error e)) (k : Nat) :
    e.mismatch.expected ≠ .nestingLimit k := by
  intro hexpected
  have hsound : Moment.Sound p.grammar none w.length ((p.step none)^[i] (.start r w)) :=
    (Moment.sound_start r w).steps hp.grounded (steps_iterate i _)
  rw [h] at hsound
  cases hsound with
  | ended herror => cases (herror e rfl k hexpected).1

variable {r : RuleId} {w : List Token}

/-- The run with a limit ends with what the parser says. -/
theorem Ready.exists_limited_end (hp : p.Ready) (n : Nat) (r : RuleId) (w : List Token) :
    ∃ i, (p.step (some n))^[i] (.start r w) = .ended ((p.withLimit n).run r w) := by
  obtain ⟨i, hi⟩ := ((hp.withLimit n).steps_run r w).exists_iterate
  rw [step_withLimit] at hi
  exact ⟨i, hi⟩

/-- A run that is never blocked is the run without a limit. -/
theorem Ready.run_free (hp : p.Ready)
    (h : ∀ i, ¬ ((p.step none)^[i] (.start r w)).Blocked p.grammar n) :
    ∃ i, (p.step none)^[i] (.start r w) = .ended ((p.withLimit n).run r w) := by
  obtain ⟨i, hi⟩ := hp.exists_limited_end n r w
  exact ⟨i, (limited_iterate fun j _ => h j).symm.trans hi⟩

/-- Until the run has ended, no rule outside the grammar was to be entered. -/
theorem lt_size_of_calling {j : Nat} {callee other : RuleId} {outer outer' : List Frame}
    {s s' : RunState} (hji : j < i) (h : (p.step none)^[i] m = .calling callee outer s)
    (h' : (p.step none)^[j] m = .calling other outer' s') : other < p.grammar.size := by
  by_contra hunknown
  have hnone : p.grammar.get? other = none :=
    List.getElem?_eq_none (Nat.le_of_not_lt hunknown)
  have hended : (p.step none)^[j + 1] m = .ended (s'.fail other none (.tokens [])) := by
    rw [Function.iterate_succ_apply', h', step, enter, hnone]
  cases (iterate_of_ended hji hended).symm.trans h

/-- A blocked rule is refused. -/
theorem step_blocked {callee : RuleId} {outer : List Frame} {s : RunState}
    (h : (Moment.calling callee outer s).Blocked p.grammar n) :
    p.step (some n) (.calling callee outer s) = .ended (s.fail callee none (.nestingLimit n)) := by
  obtain ⟨hcallee, hfull⟩ := h
  obtain ⟨rule, hrule⟩ := Grammar.exists_get? hcallee
  rw [step, enter, hrule, Option.filter_some, if_pos (by simpa using hfull)]

/-- The first blocked moment is the first one at which a rule is to be entered with so many
invocations active, and the run with the limit ends there. -/
theorem Ready.run_blocked (hp : p.Ready)
    (h : ((p.step none)^[i] (.start r w)).Blocked p.grammar n)
    (hfirst : ∀ j < i, ¬ ((p.step none)^[j] (.start r w)).Blocked p.grammar n) :
    ∃ callee outer s, (p.step none)^[i] (.start r w) = .calling callee outer s ∧
      outer.length = n ∧
      (∀ j < i, ∀ other outer' s', (p.step none)^[j] (.start r w) = .calling other outer' s' →
        outer'.length < n) ∧
      (p.withLimit n).run r w = s.fail callee none (.nestingLimit n) := by
  have hactive := active_iterate hfirst (Nat.zero_le n)
  obtain ⟨callee, outer, s, hmoment, -, hfull⟩ := h.exists_calling
  rw [hmoment] at h hactive
  refine ⟨callee, outer, s, hmoment, Nat.le_antisymm hactive hfull, ?_, ?_⟩
  · intro j hj other outer' s' hcalling
    refine Nat.lt_of_not_le fun hfull' => hfirst j hj ?_
    rw [hcalling]
    exact ⟨lt_size_of_calling hj hmoment hcalling, hfull'⟩
  · obtain ⟨k, hk⟩ := hp.exists_limited_end n r w
    have hended : (p.step (some n))^[i + 1] (.start r w) =
        .ended (s.fail callee none (.nestingLimit n)) := by
      rw [Function.iterate_succ_apply', limited_iterate hfirst, hmoment, step_blocked h]
    exact ended_unique hk hended

/-- Either a run is blocked at some first moment, or it is the run without a limit. -/
theorem Ready.run_cases (hp : p.Ready) (n : Nat) (r : RuleId) (w : List Token) :
    (∃ i, ((p.step none)^[i] (.start r w)).Blocked p.grammar n ∧
      ∀ j < i, ¬ ((p.step none)^[j] (.start r w)).Blocked p.grammar n) ∨
    ((∀ i, ¬ ((p.step none)^[i] (.start r w)).Blocked p.grammar n) ∧
      ∃ i, (p.step none)^[i] (.start r w) = .ended ((p.withLimit n).run r w)) := by
  classical
  by_cases hblocked : ∃ i, ((p.step none)^[i] (.start r w)).Blocked p.grammar n
  · exact .inl ⟨Nat.find hblocked, Nat.find_spec hblocked, fun j hj => Nat.find_min hblocked hj⟩
  · have hfree := not_exists.mp hblocked
    exact .inr ⟨hfree, hp.run_free hfree⟩

/-- The limit is exceeded. -/
def Exceeds (p : Parser) (r : RuleId) (w : List Token) : Prop :=
  ∃ e, p.parse r w = .error e ∧ ∃ n, e.expected = .nestingLimit n

theorem parse_of_run_error {e : RunError} (h : p.run r w = .error e) :
    p.parse r w = .error e.mismatch := by
  rw [parse, h]

theorem Ready.not_exceeds (hp : p.Ready)
    (h : (p.step none)^[i] (.start r w) = .ended ((p.withLimit n).run r w)) :
    ¬ (p.withLimit n).Exceeds r w := by
  rintro ⟨e, he, k, hexpected⟩
  unfold parse at he
  cases hrun : (p.withLimit n).run r w with
  | ok result =>
    rw [hrun] at he
    cases he
  | error err =>
    rw [hrun] at he h
    cases he
    exact hp.unlimited_error h k hexpected

theorem Ready.exceeds_iff_blocked (hp : p.Ready) : (p.withLimit n).Exceeds r w ↔
    ∃ i, ((p.step none)^[i] (.start r w)).Blocked p.grammar n := by
  obtain ⟨i, hblocked, hfirst⟩ | ⟨hfree, i, hend⟩ := hp.run_cases n r w
  · obtain ⟨callee, outer, s, -, -, -, hrun⟩ := hp.run_blocked hblocked hfirst
    have hexceeds : (p.withLimit n).Exceeds r w := ⟨_, parse_of_run_error hrun, n, rfl⟩
    exact ⟨fun _ => ⟨i, hblocked⟩, fun _ => hexceeds⟩
  · have hnot := hp.not_exceeds hend
    exact ⟨fun h => absurd h hnot, fun ⟨j, hj⟩ => absurd hj (hfree j)⟩

/-- The rule that is blocked would have been entered. -/
theorem exists_deeper (h : ((p.step none)^[i] m).Blocked p.grammar n) :
    n < ((p.step none)^[i + 1] m).active.length := by
  obtain ⟨r, outer, s, hmoment, hr, hfull⟩ := h.exists_calling
  obtain ⟨rule, hrule⟩ := Grammar.exists_get? hr
  rw [Function.iterate_succ_apply', hmoment, step, enter, hrule]
  exact Nat.lt_succ_of_le hfull

theorem exists_blocked_iff : (∃ i, ((p.step none)^[i] (.start r w)).Blocked p.grammar n) ↔
    ∃ i, n < ((p.step none)^[i] (.start r w)).active.length := by
  constructor
  · rintro ⟨i, hi⟩
    exact ⟨i + 1, exists_deeper hi⟩
  · rintro ⟨i, hi⟩
    by_contra hnone
    have hle := active_iterate (i := i) (fun j _ => not_exists.mp hnone j) (Nat.zero_le n)
    omega

end Parser

/-- The parsers of a draft for different limits differ in nothing else. If a parse does not exceed
its limit, it ends as the run without a limit does, so greater limits give the same result. It
exceeds the limit just if the run without one has more invocations active at some moment. The
error is then about the first rule that is to be entered with as many invocations active as the
limit allows, at the place where that is. -/
theorem Draft.parse_limited {d : Draft} {p : Parser} (hp : d.parser = .ok p) (r : RuleId)
    (w : List Token) :
    (∀ n, (d.withLimit n).parser = .ok (p.withLimit n)) ∧
    (∀ n, ¬ (p.withLimit n).Exceeds r w →
      (∃ i, (p.step none)^[i] (.start r w) = .ended ((p.withLimit n).run r w)) ∧
      ∀ n', n ≤ n' → (p.withLimit n').parse r w = (p.withLimit n).parse r w) ∧
    (∀ n, (p.withLimit n).Exceeds r w ↔
      ∃ i, n < ((p.step none)^[i] (.start r w)).active.length) ∧
    (∀ n, (p.withLimit n).Exceeds r w → ∃ i callee outer s,
      (p.step none)^[i] (.start r w) = .calling callee outer s ∧ outer.length = n ∧
      (∀ j < i, ∀ other outer' s', (p.step none)^[j] (.start r w) = .calling other outer' s' →
        outer'.length < n) ∧
      (p.withLimit n).parse r w =
        .error ⟨callee, none, .nestingLimit n, s.rest.head?, s.position⟩) := by
  have hready := parser_ready hp
  refine ⟨parser_withLimit hp, ?_, ?_, ?_⟩
  · intro n hnot
    rw [hready.exceeds_iff_blocked] at hnot
    have hfree := not_exists.mp hnot
    obtain ⟨i, hi⟩ := hready.run_free hfree
    refine ⟨⟨i, hi⟩, fun n' hle => ?_⟩
    obtain ⟨j, hj⟩ := hready.run_free fun k hk => hfree k (hk.mono hle)
    rw [Parser.parse, Parser.parse, Parser.ended_unique hj hi]
  · intro n
    rw [hready.exceeds_iff_blocked, Parser.exists_blocked_iff]
  · intro n hexceeds
    obtain ⟨i, hblocked, hfirst⟩ | ⟨-, i, hend⟩ := hready.run_cases n r w
    · obtain ⟨callee, outer, s, hmoment, hlength, hbefore, hrun⟩ :=
        hready.run_blocked hblocked hfirst
      exact ⟨i, callee, outer, s, hmoment, hlength, hbefore, Parser.parse_of_run_error hrun⟩
    · exact absurd hexceeds (hready.not_exceeds hend)

/-- A list of items needs two nested invocations. With one alone, its first item is kept out. -/
theorem itemList_parse_limited :
    (∀ n, 2 ≤ n → (itemListParser.withLimit n).parse 0 itemListTokens = .ok itemListTree) ∧
    ∃ i s, ∃ f : Frame,
      (itemListParser.step none)^[i] (.start 0 itemListTokens) = .calling 1 [f] s ∧
      s.position = 0 := by
  obtain ⟨-, hsame, -, hfirst⟩ := Draft.parse_limited itemList_accepted 0 itemListTokens
  have htwo : (itemListParser.withLimit 2).parse 0 itemListTokens = .ok itemListTree := rfl
  have hone : (itemListParser.withLimit 1).parse 0 itemListTokens =
      .error ⟨1, none, .nestingLimit 1, some ⟨1, "a", .start⟩, 0⟩ := rfl
  constructor
  · intro n hn
    have hnot : ¬ (itemListParser.withLimit 2).Exceeds 0 itemListTokens := by
      rintro ⟨e, he, -⟩
      cases htwo.symm.trans he
    exact ((hsame 2 hnot).2 n hn).trans htwo
  · obtain ⟨i, callee, outer, s, hmoment, hlength, -, hparse⟩ := hfirst 1 ⟨_, hone, 1, rfl⟩
    obtain ⟨f, rfl⟩ := List.length_eq_one_iff.mp hlength
    have herror := Except.error.inj (hone.symm.trans hparse)
    obtain rfl : 1 = callee := congrArg Mismatch.rule herror
    exact ⟨i, s, f, hmoment, (congrArg Mismatch.position herror).symm⟩

end StrongLL
