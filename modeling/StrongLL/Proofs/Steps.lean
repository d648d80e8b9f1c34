import StrongLL.Parser.Moments

/-!
# StrongLL.Proofs.Steps

All that a step of a run can do:

* `Parser.GivesWay` — a task gives way to others, as its decision says.
* `Parser.Begins`   — or it takes a token, calls a rule or fails.
* `Parser.Refuses`  — the three reasons for which it fails.
* `Parser.Goes`     — an invocation is entered, begins its next task or ends, or the run ends.
* `Parser.begins`, `Parser.goes` — there is nothing else.
* `GivesWay.work_eq`, `Refuses.work_eq` — where the state lets a task do one of these, it does.
-/

namespace StrongLL

namespace Parser

/-- Within the rule `r`, the tasks take the place of the first one. -/
inductive GivesWay (p : Parser) (r : RuleId) (s : RunState) : Task → List Task → Prop where
  | sequence {parts : List Node} : GivesWay p r s (.node (.sequence parts)) (parts.map .node)
  | enter {body : Node} {i : Nat} : p.predict ⟨r, ⟨.optional, i⟩⟩ s = some 0 →
      GivesWay p r s (.node (.optional body i)) [.node body]
  | skip {body : Node} {i : Nat} : p.predict ⟨r, ⟨.optional, i⟩⟩ s ≠ some 0 →
      GivesWay p r s (.node (.optional body i)) []
  | many {body : Node} {i : Nat} : GivesWay p r s (.node (.repetition body i false))
      [.loop ⟨.ofRepetition false, i⟩ body]
  | atLeastOne {body : Node} {i : Nat} : p.predict ⟨r, ⟨.ofRepetition true, i⟩⟩ s = some 0 →
      GivesWay p r s (.node (.repetition body i true))
        [.node body, .loop ⟨.ofRepetition true, i⟩ body]
  | alternative {alternatives : List Node} {n : Node} {i : Nat} {description : String} :
      (p.predict ⟨r, ⟨.choice, i⟩⟩ s).bind (alternatives[·]?) = some n →
      GivesWay p r s (.node (.alternation alternatives i description)) [.node n]
  | again {o : Occurrence} {body : Node} : p.predict ⟨r, o⟩ s = some 0 →
      GivesWay p r s (.loop o body) [.node body, .loop o body]
  | stop {o : Occurrence} {body : Node} : p.predict ⟨r, o⟩ s ≠ some 0 →
      GivesWay p r s (.loop o body) []

/-- Within the rule `r`, the task cannot be begun. -/
inductive Refuses (p : Parser) (r : RuleId) (s : RunState) : Task → Occurrence → Expectation → Prop
  where
  | token {t : TypeId} {i : Nat} :
      (∀ token, s.rest.head? = some token → p.vocabulary.accepts t token.kind = false) →
      Refuses p r s (.node (.terminal t i)) ⟨.token, i⟩ (.tokens [t])
  | iteration {body : Node} {i : Nat} : p.predict ⟨r, ⟨.ofRepetition true, i⟩⟩ s ≠ some 0 →
      Refuses p r s (.node (.repetition body i true)) ⟨.ofRepetition true, i⟩
        (.tokens (p.firstTypes ⟨r, ⟨.ofRepetition true, i⟩⟩))
  | alternative {alternatives : List Node} {i : Nat} {description : String} :
      (p.predict ⟨r, ⟨.choice, i⟩⟩ s).bind (alternatives[·]?) = none →
      Refuses p r s (.node (.alternation alternatives i description)) ⟨.choice, i⟩
        (.description description)

/-- What comes of a task when an invocation begins it. -/
inductive Begins (p : Parser) (f : Frame) (outer : List Frame) (s : RunState) : Task → Moment → Prop
  where
  | push {task : Task} {tasks : List Task} : p.GivesWay f.rule s task tasks →
      Begins p f outer s task (.working (f.push tasks) outer s)
  | take {t : TypeId} {i : Nat} {token : Token} {rest : List Token} : s.rest = token :: rest →
      p.vocabulary.accepts t token.kind = true →
      Begins p f outer s (.node (.terminal t i))
        (.working (f.add [.token token]) outer { s with rest, position := s.position + 1 })
  | call {r : RuleId} {i : Nat} :
      Begins p f outer s (.node (.ruleRef r i)) (.calling r (f :: outer) s)
  | fail {task : Task} {o : Occurrence} {expected : Expectation} :
      p.Refuses f.rule s task o expected →
      Begins p f outer s task (.ended (s.fail f.rule (some o) expected))

/-- What comes of a moment. -/
inductive Goes (p : Parser) (limit : Option Nat) : Moment → Moment → Prop where
  | enter {r : RuleId} {rule : Rule} {outer : List Frame} {s : RunState} :
      p.grammar.get? r = some rule → (∀ n, limit = some n → outer.length < n) →
      Goes p limit (.calling r outer s)
        (.working ⟨r, s.position, [], [.node rule.body]⟩ outer
          { s with entered := ⟨r, s.position, outer.length⟩ :: s.entered })
  | unknown {r : RuleId} {outer : List Frame} {s : RunState} : p.grammar.get? r = none →
      Goes p limit (.calling r outer s) (.ended (s.fail r none (.tokens [])))
  | tooDeep {r : RuleId} {rule : Rule} {outer : List Frame} {s : RunState} {n : Nat} :
      p.grammar.get? r = some rule → limit = some n → n ≤ outer.length →
      Goes p limit (.calling r outer s) (.ended (s.fail r none (.nestingLimit n)))
  | work {f : Frame} {task : Task} {tasks : List Task} {outer : List Frame} {s : RunState}
      {m : Moment} : f.tasks = task :: tasks → p.Begins { f with tasks } outer s task m →
      Goes p limit (.working f outer s) m
  | finish {f : Frame} {outer : List Frame} {s : RunState} : f.tasks = [] →
      Goes p limit (.working f outer s) (.returning ⟨f.rule, f.children⟩ outer s)
  | resume {t : ParseTree} {f : Frame} {outer : List Frame} {s : RunState} :
      Goes p limit (.returning t (f :: outer) s) (.working (f.add [t.node]) outer s)
  | leftover {t : ParseTree} {s : RunState} : p.config.wholeInput = true → s.rest ≠ [] →
      Goes p limit (.returning t [] s) (.ended (s.fail t.rule none .endOfInput))
  | complete {t : ParseTree} {s : RunState} : (p.config.wholeInput = true → s.rest = []) →
      Goes p limit (.returning t [] s) (.ended (.ok (t, s)))
  | stay {result : Except RunError (ParseTree × RunState)} :
      Goes p limit (.ended result) (.ended result)

variable {p : Parser} {f : Frame} {outer : List Frame} {s s' : RunState} {task : Task}

theorem begins (p : Parser) (f : Frame) (outer : List Frame) (s : RunState) (task : Task) :
    p.Begins f outer s task (p.work f outer s task) := by
  cases task with
  | loop o body =>
    rw [work]
    split
    case isTrue hin => exact .push (.again hin)
    case isFalse hout => exact .push (.stop hout)
  | node n =>
    cases n with
    | terminal t i =>
      rw [work]
      cases hrest : s.rest with
      | nil => exact .fail (.token (by simp [hrest]))
      | cons token rest =>
        dsimp only
        split
        case isTrue ht => exact .take hrest ht
        case isFalse ht => exact .fail (.token (by simpa [hrest] using ht))
    | sequence parts => exact .push .sequence
    | optional body i =>
      rw [work]
      split
      case isTrue hin => exact .push (.enter hin)
      case isFalse hout => exact .push (.skip hout)
    | repetition body i atLeastOne =>
      cases atLeastOne with
      | false => exact .push .many
      | true =>
        rw [work]
        dsimp only
        split
        case isTrue hin => exact .push (.atLeastOne hin)
        case isFalse hout => exact .fail (.iteration hout)
    | alternation alternatives i description =>
      rw [work]
      split
      case h_1 n hn => exact .push (.alternative hn)
      case h_2 hnone => exact .fail (.alternative hnone)
    | ruleRef r i => exact .call

theorem goes (p : Parser) (limit : Option Nat) (m : Moment) : p.Goes limit m (p.step limit m) := by
  cases m with
  | calling r outer s =>
    rw [step, enter]
    cases hr : p.grammar.get? r with
    | none => exact .unknown hr
    | some rule =>
      dsimp only
      cases hfull : limit.filter (· ≤ outer.length) with
      | some n =>
        obtain ⟨hlimit, hle⟩ := Option.filter_eq_some_iff.mp hfull
        exact .tooDeep hr hlimit (of_decide_eq_true hle)
      | none =>
        refine .enter hr fun n hn => ?_
        simpa [hn] using hfull
  | working f outer s =>
    rw [step]
    cases htasks : f.tasks with
    | nil => exact .finish htasks
    | cons task tasks => exact .work htasks (p.begins _ outer s task)
  | returning t outer s =>
    cases outer with
    | cons f outer => exact .resume
    | nil =>
      rw [step]
      split
      case isTrue hleft =>
        obtain ⟨hwhole, hrest⟩ : p.config.wholeInput = true ∧ s.rest ≠ [] := by simpa using hleft
        exact .leftover hwhole hrest
      case isFalse hdone => exact .complete (by simpa using hdone)
  | ended result => exact .stay

theorem GivesWay.work_eq {tasks : List Task} (h : p.GivesWay f.rule s task tasks) :
    p.work f outer s task = .working (f.push tasks) outer s := by
  cases h with
  | sequence => rfl
  | enter hin => rw [work, if_pos hin]
  | skip hout => rw [work, if_neg hout]; rfl
  | many => rfl
  | atLeastOne hin => rw [work]; exact if_pos hin
  | alternative hn => rw [work, hn]
  | again hin => rw [work, if_pos hin]
  | stop hout => rw [work, if_neg hout]; rfl

/-- Where the same is predicted, a task gives way to the same tasks. -/
theorem GivesWay.congr {r : RuleId} {tasks : List Task} (h : p.GivesWay r s task tasks)
    (hpredict : ∀ key, p.predict key s' = p.predict key s) : p.GivesWay r s' task tasks := by
  cases h with
  | sequence => exact .sequence
  | enter hin => exact .enter (by rwa [hpredict])
  | skip hout => exact .skip (by rwa [hpredict])
  | many => exact .many
  | atLeastOne hin => exact .atLeastOne (by rwa [hpredict])
  | alternative hn => exact .alternative (by rwa [hpredict])
  | again hin => exact .again (by rwa [hpredict])
  | stop hout => exact .stop (by rwa [hpredict])

theorem Refuses.work_eq {o : Occurrence} {expected : Expectation}
    (h : p.Refuses f.rule s task o expected) :
    p.work f outer s task = .ended (s.fail f.rule (some o) expected) := by
  cases h with
  | @token t i hnone =>
    rw [work]
    cases hrest : s.rest with
    | nil => rfl
    | cons token rest =>
      have ht := hnone token (by simp [hrest])
      simp only [ht]
      rfl
  | iteration hout => rw [work]; exact if_neg hout
  | alternative hnone => rw [work, hnone]

end Parser

end StrongLL
