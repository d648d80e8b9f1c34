import StrongLL.Parser.Moments
import StrongLL.Proofs.Soundness

/-!
# StrongLL.Proofs.Moments

The moments of a run lead to its result:

* `Parser.Steps`             — one moment comes some steps after another.
* `Parser.Simulates`         — from its tasks on, an invocation comes to where a run of them ends.
* `Parser.node_simulates`    — so it is for nodes, given the rules they refer to.
* `Parser.Ready.simulates_rule` — and for rules, by induction on the room for invocations.
* `Parser.Ready.steps_run`   — after finitely many steps a run ends with the result of the parser.
-/

namespace StrongLL

open TreeNode

namespace Frame

@[simp] theorem push_rule (f : Frame) (tasks : List Task) : (f.push tasks).rule = f.rule := rfl

@[simp] theorem push_push (f : Frame) (tasks tasks' : List Task) :
    (f.push tasks).push tasks' = f.push (tasks' ++ tasks) := by
  simp [push]

@[simp] theorem add_nil (f : Frame) : f.add [] = f := by simp [add]

@[simp] theorem add_add (f : Frame) (w z : List TreeNode) : (f.add w).add z = f.add (w ++ z) := by
  simp [add]

/-- Where an invocation has come to after a run. -/
def resume (f : Frame) (outer : List Frame) :
    Except RunError (List TreeNode × RunState) → Moment
  | .ok (w, s) => .working (f.add w) outer s
  | .error e => .ended (.error e)

end Frame

/-- Where the run of a rule within `outer` has come to. -/
def Moment.back (outer : List Frame) : Except RunError (ParseTree × RunState) → Moment
  | .ok (t, s) => .returning t outer s
  | .error e => .ended (.error e)

namespace Parser

/-- The second moment comes some steps after the first. -/
def Steps (p : Parser) (limit : Option Nat) : Moment → Moment → Prop :=
  Relation.ReflTransGen fun m m' => p.step limit m = m'

variable {p : Parser} {limit : Option Nat}

theorem Steps.of_step {m m' : Moment} (h : p.Steps limit (p.step limit m) m') :
    p.Steps limit m m' :=
  .head rfl h

theorem Steps.exists_iterate {m m' : Moment} (h : p.Steps limit m m') :
    ∃ n, (p.step limit)^[n] m = m' := by
  induction h with
  | refl => exact ⟨0, rfl⟩
  | @tail b c _ hstep ih =>
    obtain ⟨n, rfl⟩ := ih
    exact ⟨n + 1, by rw [Function.iterate_succ_apply', hstep]⟩

theorem steps_iterate (n : Nat) (m : Moment) : p.Steps limit m ((p.step limit)^[n] m) := by
  induction n with
  | zero => exact .refl
  | succ n ih => exact .tail ih (Function.iterate_succ_apply' _ n m).symm

theorem steps_working_push {f : Frame} {outer : List Frame} {s : RunState} {task : Task}
    {tasks : List Task} {m : Moment}
    (h : p.Steps limit (p.work (f.push tasks) outer s task) m) :
    p.Steps limit (.working (f.push (task :: tasks)) outer s) m :=
  .of_step h

/-- From the tasks on, an invocation within `outer` comes to where the run ends. -/
def Simulates (p : Parser) (limit : Option Nat) (rule : RuleId) (outer : List Frame)
    (tasks : List Task) (run : RunState → Except RunError (List TreeNode × RunState)) : Prop :=
  ∀ (f : Frame) (s : RunState), f.rule = rule →
    p.Steps limit (.working (f.push tasks) outer s) (f.resume outer (run s))

section

variable {rule : RuleId} {outer : List Frame} {tasks tasks' : List Task} {f : Frame} {s : RunState}

theorem steps_nothing (f : Frame) :
    p.Steps limit (.working f outer s) (f.resume outer (.ok ([], s))) := by
  show p.Steps limit (.working f outer s) (.working (f.add []) outer s)
  rw [Frame.add_nil]
  exact .refl

theorem Simulates.andThen {run next : RunState → Except RunError (List TreeNode × RunState)}
    (h : Simulates p limit rule outer tasks run) (hf : f.rule = rule)
    (hnext : ∀ w s', run s = .ok (w, s') →
      p.Steps limit (.working ((f.add w).push tasks') outer s')
        ((f.add w).resume outer (next s'))) :
    p.Steps limit (.working (f.push (tasks ++ tasks')) outer s)
      (f.resume outer (andThen (run s) next)) := by
  have hfirst := h (f.push tasks') s hf
  rw [Frame.push_push] at hfirst
  refine Relation.ReflTransGen.trans hfirst ?_
  cases hrun : run s with
  | error e => exact .refl
  | ok result =>
    obtain ⟨w, s'⟩ := result
    have hsecond := hnext w s' hrun
    refine Relation.ReflTransGen.trans hsecond ?_
    cases hnext : next s' with
    | error e =>
      rw [andThen_error hnext]
      exact .refl
    | ok result =>
      obtain ⟨z, s''⟩ := result
      rw [andThen_ok hnext]
      show p.Steps limit (.working ((f.add w).add z) outer s'')
        (.working (f.add (w ++ z)) outer s'')
      rw [Frame.add_add]
      exact .refl

end

section

variable {call : RuleId → RunState → Except RunError (ParseTree × RunState)} {rule : RuleId}
  {room : Nat} {outer : List Frame}

/-- What the runs of the rules a node refers to are known to come to. -/
def CallSimulates (p : Parser) (limit : Option Nat)
    (call : RuleId → RunState → Except RunError (ParseTree × RunState)) (depth : Nat) : Prop :=
  ∀ (r : RuleId) (outer : List Frame) (s : RunState), outer.length = depth →
    p.Steps limit (.calling r outer s) (.back outer (call r s))

/-- From a repetition on, an invocation comes to where the loop ends if it has room for as many
iterations as there are tokens. -/
def LoopSimulates (p : Parser) (limit : Option Nat) (rule : RuleId) (outer : List Frame)
    (o : Occurrence) (body : Node)
    (run : RunState → Except RunError (List TreeNode × RunState)) (fuel : Nat) : Prop :=
  ∀ (f : Frame) (s : RunState), f.rule = rule → s.rest.length ≤ fuel →
    p.Steps limit (.working (f.push [.loop o body]) outer s)
      (f.resume outer (runLoop (fun s => p.predict ⟨rule, o⟩ s = some 0) run fuel s))

section

variable {body : Node} {i : Nat} {atLeastOne : Bool} {after : List Pending}
  {run : RunState → Except RunError (List TreeNode × RunState)}

/-- An iteration and the loop after it. -/
theorem LoopSimulates.iteration (hp : p.Ready)
    (hcontext : (rule, .repetition body i atLeastOne, after) ∈ p.grammar.contexts)
    (houtcome : ∀ s, Outcome p.grammar p.vocabulary [.node body] room s (run s))
    (hrun : Simulates p limit rule outer [.node body] run) {fuel : Nat}
    (hloop : LoopSimulates p limit rule outer ⟨.ofRepetition atLeastOne, i⟩ body run fuel)
    {f : Frame} {s : RunState} (hf : f.rule = rule) (hfuel : s.rest.length ≤ fuel + 1) :
    p.Steps limit
      (.working (f.push [.node body, .loop ⟨.ofRepetition atLeastOne, i⟩ body]) outer s)
      (f.resume outer (andThen (run s) (runLoop
        (fun s => p.predict ⟨rule, ⟨.ofRepetition atLeastOne, i⟩⟩ s = some 0) run fuel))) := by
  refine hrun.andThen hf fun w s' hs' => hloop (f.add w) s' hf ?_
  have hone := houtcome s
  rw [hs'] at hone
  -- the iteration consumed a token, so the fuel for the others is enough
  have hshorter := (hp.iteration_progress hcontext hone).2
  omega

theorem loop_simulates (hp : p.Ready)
    (hcontext : (rule, .repetition body i atLeastOne, after) ∈ p.grammar.contexts)
    (houtcome : ∀ s, Outcome p.grammar p.vocabulary [.node body] room s (run s))
    (hrun : Simulates p limit rule outer [.node body] run) :
    ∀ fuel, LoopSimulates p limit rule outer ⟨.ofRepetition atLeastOne, i⟩ body run fuel := by
  intro fuel
  induction fuel with
  | zero =>
    intro f s hf hfuel
    subst hf
    have hrest : s.rest = [] := List.eq_nil_of_length_eq_zero (Nat.le_zero.mp hfuel)
    have hout := fun hin => hp.rest_ne_nil hcontext (s := s) hin hrest
    refine steps_working_push ?_
    rw [work, Frame.push_rule, if_neg hout]
    exact steps_nothing f
  | succ fuel ih =>
    intro f s hf hfuel
    refine steps_working_push ?_
    rw [work, Frame.push_rule, hf, runLoop_succ]
    by_cases hin : p.predict ⟨rule, ⟨.ofRepetition atLeastOne, i⟩⟩ s = some 0
    · rw [if_pos hin, if_pos (by simpa using hin)]
      exact ih.iteration hp hcontext houtcome hrun hf hfuel
    · rw [if_neg hin, if_neg (by simpa using hin)]
      exact steps_nothing f

end

mutual

theorem node_simulates (hp : p.Ready) (houtcome : CallOutcome p call room)
    (hcall : CallSimulates p limit call (outer.length + 1)) :
    ∀ (n : Node) (after : List Pending), p.grammar.Covers rule (n.contexts after) →
      Simulates p limit rule outer [.node n] (runNode p call rule n)
  | .terminal t i, after, _ => by
    intro f s hf
    subst hf
    refine steps_working_push ?_
    rw [runNode, work]
    cases s.rest with
    | nil => exact .refl
    | cons token rest =>
      by_cases ht : p.vocabulary.accepts t token.kind = true
      · simp only [ht, if_true]
        exact .refl
      · simp only [ht]
        exact .refl
  | .sequence parts, after, hc => by
    intro f s hf
    refine steps_working_push ?_
    unfold runNode
    exact parts_simulates hp houtcome hcall parts after (hc.subset (List.subset_cons_self _ _)) f s
      hf
  | .optional body i, after, hc => by
    intro f s hf
    have hbody := hc.subset (List.subset_cons_self _ _)
    refine steps_working_push ?_
    rw [runNode, work, Frame.push_rule, hf]
    by_cases hin : p.predict ⟨rule, ⟨.optional, i⟩⟩ s = some 0
    · rw [if_pos hin, if_pos hin]
      exact node_simulates hp houtcome hcall body after hbody f s hf
    · rw [if_neg hin, if_neg hin]
      exact steps_nothing f
  | .repetition body i false, after, hc => by
    intro f s hf
    have hbody := hc.subset (List.subset_cons_self _ _)
    refine steps_working_push ?_
    rw [runNode, work]
    exact loop_simulates hp hc.node (runNode_outcome hp houtcome body _ hbody)
      (node_simulates hp houtcome hcall body _ hbody) _ f s hf (Nat.le_refl _)
  | .repetition body i true, after, hc => by
    intro f s hf
    have hbody := hc.subset (List.subset_cons_self _ _)
    refine steps_working_push ?_
    rw [runNode, work]
    dsimp only
    rw [Frame.push_rule, hf]
    by_cases hin : p.predict ⟨rule, ⟨.ofRepetition true, i⟩⟩ s = some 0
    · obtain ⟨fuel, hfuel⟩ : ∃ fuel, s.rest.length = fuel + 1 :=
        Nat.exists_eq_succ_of_ne_zero fun hzero =>
          hp.rest_ne_nil hc.node hin (List.eq_nil_of_length_eq_zero hzero)
      have houtcomes := runNode_outcome hp houtcome body _ hbody
      have hbody := node_simulates hp houtcome hcall body _ hbody
      have hloop := loop_simulates hp hc.node houtcomes hbody fuel
      rw [if_pos hin, if_neg (by simpa using hin), hfuel, runLoop_succ,
        if_pos (by simpa using hin)]
      exact hloop.iteration hp hc.node houtcomes hbody hf (Nat.le_of_eq hfuel)
    · rw [if_neg hin, if_pos (by simpa using hin)]
      exact .refl
  | .alternation alternatives i description, after, hc => by
    intro f s hf
    refine steps_working_push ?_
    rw [runNode, work, Frame.push_rule, hf]
    cases hchoice : p.predict ⟨rule, ⟨.choice, i⟩⟩ s with
    | none => exact .refl
    | some branch =>
      obtain ⟨way, hway, -⟩ := hp.of_predict (Grammar.alternation_mem_forks hc.node) hchoice
      obtain ⟨n, hn, -⟩ : ∃ n, alternatives[branch]? = some n ∧ _ := by simpa using hway
      have halternatives := hc.subset (List.subset_cons_self _ _)
      simp only [Option.bind_some, hn]
      exact alternative_simulates hp houtcome hcall alternatives after halternatives branch n hn _ f
        s hf
  | .ruleRef r i, after, _ => by
    intro f s hf
    refine steps_working_push ?_
    rw [work, runNode_ruleRef]
    refine Relation.ReflTransGen.trans (hcall r (f :: outer) s rfl) ?_
    cases call r s with
    | error e => exact .refl
    | ok result => exact Steps.of_step .refl

theorem parts_simulates (hp : p.Ready) (houtcome : CallOutcome p call room)
    (hcall : CallSimulates p limit call (outer.length + 1)) :
    ∀ (parts : List Node) (after : List Pending),
      p.grammar.Covers rule (Node.partContexts after parts) →
      Simulates p limit rule outer (parts.map .node) (runAll p call rule parts)
  | [], _, _ => fun f _ _ => steps_nothing f
  | n :: rest, after, hc => by
    intro f s hf
    rw [Node.partContexts] at hc
    have hn := hc.subset (List.subset_append_left _ _)
    have hrest := hc.subset (List.subset_append_right _ _)
    unfold runAll
    exact (node_simulates hp houtcome hcall n _ hn).andThen hf fun w s' _ =>
      parts_simulates hp houtcome hcall rest after hrest (f.add w) s' hf

theorem alternative_simulates (hp : p.Ready) (houtcome : CallOutcome p call room)
    (hcall : CallSimulates p limit call (outer.length + 1)) :
    ∀ (alternatives : List Node) (after : List Pending),
      p.grammar.Covers rule (Node.alternativeContexts after alternatives) → ∀ i n,
      alternatives[i]? = some n → ∀ refused,
      Simulates p limit rule outer [.node n] (runNth p call rule alternatives i refused)
  | [], _, _, _, _, hn, _ => by simp at hn
  | m :: rest, after, hc, 0, n, hn, _ => by
    obtain rfl : m = n := by simpa using hn
    intro f s hf
    rw [Node.alternativeContexts] at hc
    have hm := hc.subset (List.subset_append_left _ _)
    rw [runNth]
    exact node_simulates hp houtcome hcall m after hm f s hf
  | m :: rest, after, hc, i + 1, n, hn, refused => by
    intro f s hf
    rw [Node.alternativeContexts] at hc
    have hrest := hc.subset (List.subset_append_right _ _)
    rw [runNth]
    exact alternative_simulates hp houtcome hcall rest after hrest i n (by simpa using hn) refused f
      s hf

end

end

theorem Ready.simulates_rule (hp : p.Ready) :
    ∀ room depth, depth + room = p.config.nestingLimit →
      CallSimulates p (some p.config.nestingLimit) (p.runRule room) depth := by
  intro room
  induction room with
  | zero =>
    intro depth hdepth r outer s houter
    refine Steps.of_step ?_
    rw [step, enter, runRule]
    cases p.grammar.get? r with
    | none => exact .refl
    | some rule =>
      have hfull : p.config.nestingLimit ≤ outer.length := by omega
      rw [Option.filter_some, if_pos (by simpa using hfull)]
      exact .refl
  | succ room ih =>
    intro depth hdepth r outer s houter
    refine Steps.of_step ?_
    rw [step, enter, runRule]
    cases hr : p.grammar.get? r with
    | none => exact .refl
    | some rule =>
      have hfree : ¬ p.config.nestingLimit ≤ outer.length := by omega
      have hactive : p.config.nestingLimit - (room + 1) = outer.length := by omega
      rw [Option.filter_some, if_neg (by simpa using hfree)]
      dsimp only
      rw [hactive]
      have hcall := ih (outer.length + 1) (by omega)
      have hbody := node_simulates hp (hp.runRule_outcome room) hcall rule.body []
        (Grammar.covers_body hr) ⟨r, s.position, [], []⟩
        { s with entered := ⟨r, s.position, outer.length⟩ :: s.entered } rfl
      refine Relation.ReflTransGen.trans hbody ?_
      cases runNode p (p.runRule room) r rule.body _ with
      | error e => exact .refl
      | ok result => exact Steps.of_step .refl

/-- A run ends, and its end is the result of the parser. -/
theorem Ready.steps_run (hp : p.Ready) (r : RuleId) (w : List Token) :
    p.Steps (some p.config.nestingLimit) (.start r w) (.ended (p.run r w)) := by
  have hrule := hp.simulates_rule p.config.nestingLimit 0 (by omega) r [] (.start w) rfl
  refine Relation.ReflTransGen.trans hrule ?_
  unfold run
  cases hrun : p.runRule p.config.nestingLimit r (.start w) with
  | error e => exact .refl
  | ok result =>
    obtain ⟨t, s⟩ := result
    have hroot := runRule_rule hrun
    refine Steps.of_step ?_
    subst hroot
    show p.Steps _ (.ended (if p.config.wholeInput && !s.rest.isEmpty then
      s.fail t.rule none .endOfInput else .ok (t, s))) _
    exact .refl

end Parser

end StrongLL
