import StrongLL.Proofs.Readings

/-!
# StrongLL.Proofs.Soundness

Every run does what the grammar says:

* `Outcome`            — how a run may end: with a reading of the parts it ran and the tokens it
  left, or with an error after tokens that an expansion of the parts can emit.
* `Outcome.andThen`    — one run after another.
* `runNode_outcome`    — the runs of nodes, given the runs of the rules they refer to.
* `Parser.Ready.runRule_outcome` — the runs of rules, by induction on the room for invocations.
* `Draft.parse_sound`  — a parse that succeeds gives a derivation tree over what it consumed.
-/

namespace StrongLL

open TreeNode

/-- How a run of the parts `xs` from `s` may end, with room for so many nested trees. -/
inductive Outcome (g : Grammar) (v : Vocabulary) (xs : List Pending) (room : Nat) (s : RunState) :
    Except RunError (List TreeNode × RunState) → Prop where
  | ok {w : List TreeNode} {s' : RunState} :
      s.rest = tokensOfAll w ++ s'.rest → s'.position = s.position + (tokensOfAll w).length →
      Derives g v xs w → nestingOfAll w ≤ room → Outcome g v xs room s (.ok (w, s'))
  | error {e : RunError} {done rest : List Token} {q : Path} {left : List Pending} :
      s.rest = done ++ rest → e.mismatch.position = s.position + done.length →
      e.mismatch.found = rest.head? → Expands g xs q left → v.Fits q (done.map (·.kind)) →
      Outcome g v xs room s (.error e)

/-- One run after another. -/
def andThen (first : Except RunError (List TreeNode × RunState))
    (next : RunState → Except RunError (List TreeNode × RunState)) :
    Except RunError (List TreeNode × RunState) := do
  let (w, s) ← first
  let (z, s) ← next s
  return (w ++ z, s)

/-- The place where a run ends. -/
def ending {α : Type} : Except RunError (α × RunState) → Nat
  | .ok (_, s) => s.position
  | .error e => e.mismatch.position

section

variable {next : RunState → Except RunError (List TreeNode × RunState)} {w z : List TreeNode}
  {s s' : RunState} {e : RunError}

theorem andThen_ok (h : next s = .ok (z, s')) :
    andThen (.ok (w, s)) next = .ok (w ++ z, s') := by
  simp only [andThen, bind, Except.bind, h, pure, Except.pure]

theorem andThen_error (h : next s = .error e) : andThen (.ok (w, s)) next = .error e := by
  simp only [andThen, bind, Except.bind, h]

theorem ending_andThen : ending (andThen (.ok (w, s)) next) = ending (next s) := by
  cases h : next s with
  | error e => rw [andThen_error h]
  | ok result => rw [andThen_ok h]; rfl

end

namespace Outcome

variable {g : Grammar} {v : Vocabulary} {xs ys : List Pending} {room : Nat} {s : RunState}
  {x : Except RunError (List TreeNode × RunState)}

theorem nothing : Outcome g v [] room s (.ok ([], s)) :=
  .ok rfl rfl .nil (Nat.zero_le room)

theorem fail (rule : RuleId) (o : Option Occurrence) (expected : Expectation) :
    Outcome g v xs room s (s.fail rule o expected) :=
  .error (List.nil_append s.rest).symm rfl rfl .refl .nil

/-- A run of parts is one of what unfolds to them. -/
theorem of_unfolds {y : Pending} (h : Outcome g v xs room s x) (hu : Unfolds g y [] xs)
    (hy : ∀ r i, y ≠ .node (.ruleRef r i)) : Outcome g v [y] room s x := by
  cases h with
  | ok hrest hposition hw hroom =>
    exact .ok hrest hposition (.of_unfolds hu hy (by simpa using hw)) hroom
  | error hrest hposition hfound hq hfits =>
    exact .error hrest hposition hfound (.step hu (by simpa using hq)) hfits

theorem of_entered {entered : List Invocation} (h : Outcome g v xs room { s with entered } x) :
    Outcome g v xs room s x := by
  cases h with
  | ok hrest hposition hw hroom => exact .ok hrest hposition hw hroom
  | error hrest hposition hfound hq hfits => exact .error hrest hposition hfound hq hfits

theorem andThen {next : RunState → Except RunError (List TreeNode × RunState)}
    (h : Outcome g v xs room s x) (hnext : ∀ s, Outcome g v ys room s (next s)) :
    Outcome g v (xs ++ ys) room s (andThen x next) := by
  cases h with
  | error hrest hposition hfound hq hfits =>
    exact .error hrest hposition hfound (hq.append_right ys) hfits
  | @ok w s' hrest hposition hw hroom =>
    show Outcome g v (xs ++ ys) room s (next s' >>= fun (z, s) => pure (w ++ z, s))
    have h' := hnext s'
    generalize next s' = y at h'
    cases h' with
    | @ok z s'' hrest' hposition' hz hroom' =>
      refine .ok (w := w ++ z) ?_ ?_ (hw.append hz) ?_
      · rw [hrest, hrest', tokensOfAll_append, List.append_assoc]
      · rw [hposition', hposition, tokensOfAll_append, List.length_append, Nat.add_assoc]
      · rw [nestingOfAll_append]
        omega
    | @error e done rest q left hrest' hposition' hfound hq hfits =>
      -- what the first run consumed fits a complete expansion of its parts
      obtain ⟨p, hp, hw⟩ := hw.exists_path
      have hdone : s.rest = (tokensOfAll w ++ done) ++ rest := by
        rw [hrest, hrest', List.append_assoc]
      refine .error hdone ?_ hfound ((hp.append_right ys).trans hq) ?_
      · rw [hposition', hposition, List.length_append, Nat.add_assoc]
      · rw [List.map_append]
        exact List.rel_append hw hfits

/-- A run does not go back. -/
theorem le_ending (h : Outcome g v xs room s x) : s.position ≤ ending x := by
  cases h with
  | ok _ hposition _ _ =>
    show s.position ≤ RunState.position _
    omega
  | error _ hposition _ _ _ =>
    show s.position ≤ Mismatch.position _
    omega

/-- A run does not leave the input. -/
theorem ending_le (h : Outcome g v xs room s x) : ending x ≤ s.position + s.rest.length := by
  cases h with
  | ok hrest hposition _ _ =>
    show RunState.position _ ≤ _
    rw [hrest, List.length_append]
    omega
  | error hrest hposition _ _ _ =>
    show Mismatch.position _ ≤ _
    rw [hrest, List.length_append]
    omega

end Outcome

namespace Parser

variable {p : Parser} {call : RuleId → RunState → Except RunError (ParseTree × RunState)}
  {rule : RuleId} {room : Nat}

section

variable {g : Grammar} {v : Vocabulary} {body : Node}
  {run : RunState → Except RunError (List TreeNode × RunState)} {goesOn : RunState → Bool}

theorem runLoop_succ (fuel : Nat) (s : RunState) :
    runLoop goesOn run (fuel + 1) s =
      if goesOn s then andThen (run s) (runLoop goesOn run fuel) else .ok ([], s) := rfl

theorem runLoop_outcome (hbody : ∀ s, Outcome g v [.node body] room s (run s)) :
    ∀ fuel s, Outcome g v [.loop body] room s (runLoop goesOn run fuel s) := by
  intro fuel
  have hstop : ∀ s, Outcome g v [.loop body] room s (.ok ([], s)) := fun s =>
    Outcome.nothing.of_unfolds .stop (by simp)
  induction fuel with
  | zero => exact hstop
  | succ fuel ih =>
    intro s
    rw [runLoop_succ]
    by_cases hgo : goesOn s = true
    · rw [if_pos hgo]
      exact ((hbody s).andThen ih).of_unfolds .again (by simp)
    · rw [if_neg hgo]
      exact hstop s

/-- If the first iteration is entered, it is complete before the others. -/
theorem runLoop_outcome_of_goesOn (hbody : ∀ s, Outcome g v [.node body] room s (run s))
    {fuel : Nat} (hfuel : 0 < fuel) {s : RunState} (hgo : goesOn s = true) :
    Outcome g v [.node body, .loop body] room s (runLoop goesOn run fuel s) := by
  obtain ⟨fuel, rfl⟩ := Nat.exists_eq_succ_of_ne_zero (Nat.ne_of_gt hfuel)
  rw [runLoop_succ, if_pos hgo]
  exact (hbody s).andThen (runLoop_outcome hbody fuel)

end

/-- Another iteration is predicted only if there are tokens to come. -/
theorem Ready.rest_ne_nil (hp : p.Ready) {body : Node} {i : Nat} {atLeastOne : Bool}
    {after : List Pending}
    (hcontext : (rule, .repetition body i atLeastOne, after) ∈ p.grammar.contexts) {s : RunState}
    (h : p.predict ⟨rule, ⟨.ofRepetition atLeastOne, i⟩⟩ s = some 0) : s.rest ≠ [] := by
  intro hrest
  have hfork := Grammar.repetition_mem_forks hcontext
  obtain ⟨way, hway, q, ⟨outer, -, hopens⟩, hfits⟩ := hp.of_predict hfork h
  obtain rfl : (.iterating, .node body :: .loop body :: after) = way := by simpa using hway
  have hempty : q = [] := by
    have hkinds : s.kinds.take p.config.lookahead = [] := by simp [RunState.kinds, hrest]
    rw [hkinds] at hfits
    exact List.forall₂_nil_right_iff.mp hfits
  subst hempty
  -- nothing is emitted, so the body is already erased
  have herased : p.grammar.Erasable ([.node body] ++ (.loop body :: after ++ outer)) :=
    (Grammar.opens_nil_iff_erasable hp.lookahead_pos).mp hopens
  exact hp.progressive _ _ _ (Grammar.mem_repetitions hcontext) herased.of_append

/-- A complete iteration consumes a token. -/
theorem Ready.iteration_progress (hp : p.Ready) {body : Node} {i : Nat} {atLeastOne : Bool}
    {after : List Pending}
    (hcontext : (rule, .repetition body i atLeastOne, after) ∈ p.grammar.contexts)
    {w : List TreeNode} {s s' : RunState}
    (h : Outcome p.grammar p.vocabulary [.node body] room s (.ok (w, s'))) :
    s.position < s'.position ∧ s'.rest.length < s.rest.length := by
  cases h with
  | ok hrest hposition hw _ =>
    have htokens : tokensOfAll w ≠ [] := fun hnil =>
      hp.progressive _ _ _ (Grammar.mem_repetitions hcontext) (hw.erasable hnil)
    have hpos := List.length_pos_iff.mpr htokens
    have hlen := congrArg List.length hrest
    rw [List.length_append] at hlen
    omega

/-- The run of a rule as that of a node that refers to it. -/
def asNode (x : Except RunError (ParseTree × RunState)) :
    Except RunError (List TreeNode × RunState) :=
  x.map fun x => ([x.1.node], x.2)

theorem runNode_ruleRef (r : RuleId) (i : Nat) (s : RunState) :
    runNode p call rule (.ruleRef r i) s = asNode (call r s) := by
  unfold runNode asNode
  cases call r s <;> rfl

/-- What the runs of the rules a node refers to are known to do. -/
def CallOutcome (p : Parser) (call : RuleId → RunState → Except RunError (ParseTree × RunState))
    (room : Nat) : Prop :=
  ∀ r i s, Outcome p.grammar p.vocabulary [.node (.ruleRef r i)] room s
    (asNode (call r s))

mutual

theorem runNode_outcome (hp : p.Ready) (hcall : CallOutcome p call room) :
    ∀ (n : Node) (after : List Pending), p.grammar.Covers rule (n.contexts after) → ∀ s,
      Outcome p.grammar p.vocabulary [.node n] room s (runNode p call rule n s)
  | .terminal t i, after, _, s => by
    unfold runNode
    cases hrest : s.rest with
    | nil => exact .fail _ _ _
    | cons token rest =>
      by_cases ht : p.vocabulary.accepts t token.kind = true
      · simp only [ht, if_true]
        refine .ok (w := [.token token]) ?_ rfl (.terminal ht .nil) (Nat.zero_le room)
        simpa using hrest
      · simp only [ht]
        exact .fail _ _ _
  | .sequence parts, after, hc, s => by
    have hparts := hc.subset (List.subset_cons_self _ _)
    unfold runNode
    exact (runAll_outcome hp hcall parts after hparts s).of_unfolds .sequence (by simp)
  | .optional body i, after, hc, s => by
    have hbody := hc.subset (List.subset_cons_self _ _)
    unfold runNode
    by_cases hin : p.predict ⟨rule, ⟨.optional, i⟩⟩ s = some 0
    · rw [if_pos hin]
      exact (runNode_outcome hp hcall body after hbody s).of_unfolds .enter (by simp)
    · rw [if_neg hin]
      exact Outcome.nothing.of_unfolds .skip (by simp)
  | .repetition body i false, after, hc, s => by
    have hbody := runNode_outcome hp hcall body (.loop body :: after)
      (hc.subset (List.subset_cons_self _ _))
    unfold runNode
    exact (runLoop_outcome hbody _ s).of_unfolds .many (by simp)
  | .repetition body i true, after, hc, s => by
    have hbody := runNode_outcome hp hcall body (.loop body :: after)
      (hc.subset (List.subset_cons_self _ _))
    unfold runNode
    dsimp only
    by_cases hin : p.predict ⟨rule, ⟨.ofRepetition true, i⟩⟩ s = some 0
    · rw [if_neg (by simp [hin])]
      have htokens := List.length_pos_iff.mpr (hp.rest_ne_nil hc.node hin)
      exact (runLoop_outcome_of_goesOn hbody htokens (by simpa using hin)).of_unfolds
        .atLeastOne (by simp)
    · rw [if_pos (by simp [hin])]
      exact .fail _ _ _
  | .alternation alternatives i description, after, hc, s => by
    unfold runNode
    cases hchoice : p.predict ⟨rule, ⟨.choice, i⟩⟩ s with
    | none => exact .fail _ _ _
    | some branch =>
      have hfork := Grammar.alternation_mem_forks hc.node
      obtain ⟨way, hway, -⟩ := hp.of_predict hfork hchoice
      obtain ⟨n, hn, -⟩ : ∃ n, alternatives[branch]? = some n ∧ _ := by simpa using hway
      have halternatives := hc.subset (List.subset_cons_self _ _)
      have hchosen := runNth_outcome hp hcall alternatives after halternatives branch n hn
        (s.fail rule (some ⟨.choice, i⟩) (.description description)) s
      exact hchosen.of_unfolds (.alternative (List.mem_of_getElem? hn)) (by simp)
  | .ruleRef r i, after, _, s => by
    rw [runNode_ruleRef]
    exact hcall r i s

theorem runAll_outcome (hp : p.Ready) (hcall : CallOutcome p call room) :
    ∀ (parts : List Node) (after : List Pending),
      p.grammar.Covers rule (Node.partContexts after parts) → ∀ s,
      Outcome p.grammar p.vocabulary (parts.map .node) room s (runAll p call rule parts s)
  | [], _, _, s => .nothing
  | n :: rest, after, hc, s => by
    unfold runAll
    rw [Node.partContexts] at hc
    exact (runNode_outcome hp hcall n _ (hc.subset (List.subset_append_left _ _)) s).andThen
      (runAll_outcome hp hcall rest after (hc.subset (List.subset_append_right _ _)))

theorem runNth_outcome (hp : p.Ready) (hcall : CallOutcome p call room) :
    ∀ (alternatives : List Node) (after : List Pending),
      p.grammar.Covers rule (Node.alternativeContexts after alternatives) → ∀ i n,
      alternatives[i]? = some n → ∀ refused s,
      Outcome p.grammar p.vocabulary [.node n] room s (runNth p call rule alternatives i refused s)
  | [], _, _, i, n, hn, _, s => by simp at hn
  | m :: rest, after, hc, 0, n, hn, _, s => by
    obtain rfl : m = n := by simpa using hn
    unfold runNth
    rw [Node.alternativeContexts] at hc
    exact runNode_outcome hp hcall m after (hc.subset (List.subset_append_left _ _)) s
  | m :: rest, after, hc, i + 1, n, hn, refused, s => by
    unfold runNth
    rw [Node.alternativeContexts] at hc
    exact runNth_outcome hp hcall rest after (hc.subset (List.subset_append_right _ _)) i n
      (by simpa using hn) refused s

end

theorem Ready.runRule_outcome (hp : p.Ready) : ∀ room, CallOutcome p (p.runRule room) room := by
  intro room
  induction room with
  | zero =>
    intro r i s
    unfold runRule
    cases p.grammar.get? r with
    | none => exact .fail _ _ _
    | some body => exact .fail _ _ _
  | succ room ih =>
    intro r i s
    unfold runRule
    cases hr : p.grammar.get? r with
    | none => exact .fail _ _ _
    | some body =>
      let entered := ⟨r, s.position, p.config.nestingLimit - (room + 1)⟩ :: s.entered
      have h := (runNode_outcome hp ih body.body [] (Grammar.covers_body hr)
        { s with entered }).of_entered
      dsimp only
      generalize runNode p (p.runRule room) r body.body _ = x at h
      cases h with
      | @ok w s' hrest hposition hw hroom =>
        refine .ok (w := [.tree r w]) ?_ ?_ (.ruleRef hr hw .nil) ?_
        · simpa using hrest
        · simpa using hposition
        · simpa using hroom
      | error hrest hposition hfound hq hfits =>
        exact .error hrest hposition hfound (.ruleRef hr hq) hfits

/-- A rule runs to its own tree. -/
theorem runRule_rule {room : Nat} {r : RuleId} {s s' : RunState} {t : ParseTree}
    (h : p.runRule room r s = .ok (t, s')) : t.rule = r := by
  unfold runRule at h
  cases hr : p.grammar.get? r with
  | none =>
    rw [hr] at h
    cases h
  | some body =>
    rw [hr] at h
    cases room with
    | zero => cases h
    | succ room =>
      dsimp only at h
      generalize runNode p (p.runRule room) r body.body _ = x at h
      cases x with
      | error e => cases h
      | ok result =>
        cases h
        rfl

/-- A parse that succeeds is a run of the rule; what it leaves is allowed to be left. -/
theorem parse_eq_ok {r : RuleId} {w : List Token} {t : ParseTree} (h : p.parse r w = .ok t) :
    ∃ s, p.runRule p.config.nestingLimit r (.start w) = .ok (t, s) ∧
      (p.config.wholeInput = true → s.rest = []) := by
  unfold parse run at h
  cases hrun : p.runRule p.config.nestingLimit r (.start w) with
  | error e =>
    rw [hrun] at h
    cases h
  | ok result =>
    obtain ⟨tree, s⟩ := result
    rw [hrun] at h
    by_cases hleft : (p.config.wholeInput && !s.rest.isEmpty) = true
    · simp [bind, Except.bind, hleft, RunState.fail] at h
    · simp [bind, Except.bind, hleft, pure, Except.pure] at h
      subst h
      exact ⟨s, rfl, by simpa using hleft⟩

end Parser

/-- A parse that succeeds gives a tree of its rule over a prefix of the input, or over all of it,
and all trees within it are derivation trees of their rules, nested no deeper than allowed. -/
theorem Draft.parse_sound {d : Draft} {p : Parser} (hp : d.parser = .ok p) {r : RuleId}
    {w : List Token} {t : ParseTree} (h : p.parse r w = .ok t) :
    t.rule = r ∧
      (∃ rest, w = t.tokens ++ rest ∧ (p.config.wholeInput = true → rest = [])) ∧
      (∀ s ∈ t.node.trees, p.grammar.IsTree p.vocabulary s) ∧
      t.node.nesting ≤ p.config.nestingLimit := by
  obtain ⟨s, hrun, hleft⟩ := Parser.parse_eq_ok h
  have hrule := Parser.runRule_rule hrun
  have houtcome := (parser_ready hp).runRule_outcome p.config.nestingLimit r 0 (.start w)
  rw [hrun] at houtcome
  cases houtcome with
  | ok hrest _ hderives hnesting =>
    obtain ⟨children, hnode, htree⟩ := hderives.cases_ruleRef
    obtain ⟨rule, children'⟩ := t
    obtain rfl : rule = r := hrule
    obtain rfl : children' = children := by simpa [ParseTree.node] using hnode
    refine ⟨rfl, ⟨s.rest, ?_, hleft⟩, htree.trees, ?_⟩
    · simpa [RunState.start, ParseTree.tokens] using hrest
    · simpa using hnesting

theorem itemList_parse_sound :
    itemListParser.parse 0 itemListTokens = .ok itemListTree ∧
      (∀ s ∈ itemListTree.node.trees, itemListParser.grammar.IsTree itemListParser.vocabulary s) ∧
      itemListTree.node.nesting ≤ 128 := by
  have h : itemListParser.parse 0 itemListTokens = .ok itemListTree := rfl
  obtain ⟨-, -, htrees, hnesting⟩ := Draft.parse_sound itemList_accepted h
  exact ⟨h, htrees, hnesting⟩

end StrongLL
