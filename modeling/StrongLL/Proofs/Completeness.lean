import StrongLL.Proofs.Soundness

/-!
# StrongLL.Proofs.Completeness

Every derivation tree is found:

* `Agrees`             — the input goes on like a given token list, as far as place `N`.
* `Tracks`             — a run makes the given nodes, or it ends where it sees beyond place `N`.
* `runNode_tracks`     — a run tracks every reading that the input agrees with, in every context
  the node may stand in.
* `Parser.Ready.runRule_tracks` — so do the runs of rules.
* `Draft.parse_complete` — the tokens of a derivation tree are parsed to that tree, and they have
  no other.
-/

namespace StrongLL

open TreeNode

/-- Up to place `N` of the whole input, the tokens to come are those of `input`. -/
def Agrees (N : Nat) (s : RunState) (input : List Token) : Prop :=
  s.rest.take (N - s.position) = input.take (N - s.position)

/-- The run makes the nodes `w`, unless it ends where `k` more tokens are beyond place `N`. -/
def Tracks (k N : Nat) (w : List TreeNode)
    (x : Except RunError (List TreeNode × RunState)) : Prop :=
  (∃ s, x = .ok (w, s)) ∨ N < ending x + k

section

variable {g : Grammar} {v : Vocabulary} {xs ys : List Pending} {room k N : Nat} {s : RunState}
  {x : Except RunError (List TreeNode × RunState)}

theorem Agrees.kinds {input : List Token} (h : Agrees N s input) (hnear : s.position + k ≤ N) :
    s.kinds.take k = (input.map (·.kind)).take k := by
  have htake : s.rest.take k = input.take k := by
    have hmin : min k (N - s.position) = k := by omega
    have := congrArg (List.take k) h
    rwa [List.take_take, List.take_take, hmin] at this
  rw [RunState.kinds, ← List.map_take, ← List.map_take, htake]

/-- What a run consumed is taken off on both sides. -/
theorem Agrees.after {input : List Token} {w : List TreeNode} {s' : RunState}
    (h : Agrees N s (tokensOfAll w ++ input)) (hrest : s.rest = tokensOfAll w ++ s'.rest)
    (hposition : s'.position = s.position + (tokensOfAll w).length) : Agrees N s' input := by
  unfold Agrees at h ⊢
  rw [hrest, List.take_append, List.take_append] at h
  have hN : N - s'.position = N - s.position - (tokensOfAll w).length := by omega
  rw [hN]
  exact List.append_cancel_left h

/-- Once it sees beyond place `N`, a run may do anything. -/
theorem Tracks.of_past (h : Outcome g v xs room s x) (hpast : ¬ s.position + k ≤ N)
    (w : List TreeNode) : Tracks k N w x := by
  have := h.le_ending
  exact .inr (by omega)

theorem Tracks.andThen {next : RunState → Except RunError (List TreeNode × RunState)}
    {w z : List TreeNode} (h : Tracks k N w x) (hnext : ∀ s, Outcome g v ys room s (next s))
    (hz : ∀ s', x = .ok (w, s') → Tracks k N z (next s')) :
    Tracks k N (w ++ z) (andThen x next) := by
  obtain ⟨s', rfl⟩ | hpast := h
  · obtain ⟨s'', hs''⟩ | hpast := hz s' rfl
    · exact .inl ⟨s'', andThen_ok hs''⟩
    · refine .inr ?_
      rw [ending_andThen]
      exact hpast
  · cases x with
    | error e => exact .inr hpast
    | ok result =>
      obtain ⟨a, s'⟩ := result
      have hpast : N < s'.position + k := hpast
      have hle := (hnext s').le_ending
      refine .inr ?_
      rw [ending_andThen]
      exact Nat.lt_of_lt_of_le hpast (Nat.add_le_add_right hle k)

end

namespace Parser

variable {p : Parser} {call : RuleId → RunState → Except RunError (ParseTree × RunState)}
  {rule : RuleId} {room N : Nat}

/-- Within `rule`, where `after` follows, the run tracks all readings of `xs` that the input agrees
with, whatever the rule was invoked for. -/
def Tracking (p : Parser) (rule : RuleId) (room N : Nat) (xs after : List Pending)
    (run : RunState → Except RunError (List TreeNode × RunState)) : Prop :=
  ∀ ⦃outer : List Pending⦄ ⦃w u : List TreeNode⦄ ⦃s : RunState⦄,
    Continues p.grammar rule outer → Derives p.grammar p.vocabulary xs w →
    Derives p.grammar p.vocabulary (after ++ outer) u → nestingOfAll w ≤ room →
    Agrees N s (tokensOfAll w ++ tokensOfAll u) → Tracks p.config.lookahead N w (run s)

/-- What the runs of the rules a node refers to are known to track. -/
def CallTracking (p : Parser) (call : RuleId → RunState → Except RunError (ParseTree × RunState))
    (room N : Nat) : Prop :=
  ∀ r i, Tracking p r room N [.node (.ruleRef r i)] [] fun s => asNode (call r s)

/-- The way that a reading of the tokens to come takes admits their kinds. -/
theorem admits_of_agrees {s : RunState} {outer : List Pending} {u : List TreeNode}
    (houter : Continues p.grammar rule outer) (pending : List Pending)
    (hu : Derives p.grammar p.vocabulary (pending ++ outer) u) (hs : Agrees N s (tokensOfAll u))
    (hnear : s.position + p.config.lookahead ≤ N) :
    p.grammar.Admits p.vocabulary p.config.lookahead rule pending s.kinds :=
  (Grammar.admits_congr (hs.kinds hnear)).mpr (hu.admits houter)

section

variable {body : Node} {i : Nat} {atLeastOne : Bool} {after outer : List Pending}

/-- If the reading goes on with an iteration, so does the prediction. -/
theorem Ready.predict_again (hp : p.Ready)
    (hcontext : (rule, .repetition body i atLeastOne, after) ∈ p.grammar.contexts)
    (houter : Continues p.grammar rule outer) {a b u : List TreeNode} {s : RunState}
    (ha : Derives p.grammar p.vocabulary [.node body] a)
    (hb : Derives p.grammar p.vocabulary [.loop body] b)
    (hu : Derives p.grammar p.vocabulary (after ++ outer) u)
    (hs : Agrees N s (tokensOfAll (a ++ b) ++ tokensOfAll u))
    (hnear : s.position + p.config.lookahead ≤ N) :
    p.predict ⟨rule, ⟨.ofRepetition atLeastOne, i⟩⟩ s = some 0 := by
  have hway := admits_of_agrees houter (.node body :: .loop body :: after)
    (ha.append (hb.append hu)) (by simpa using hs) hnear
  exact hp.predict_in (Grammar.repetition_mem_forks hcontext) rfl hway

/-- A loop tracks all iterations, given that its body tracks one of them. -/
theorem runLoop_tracks (hp : p.Ready)
    {run : RunState → Except RunError (List TreeNode × RunState)}
    (hcontext : (rule, .repetition body i atLeastOne, after) ∈ p.grammar.contexts)
    (houtcome : ∀ s, Outcome p.grammar p.vocabulary [.node body] room s (run s))
    (hrun : Tracking p rule room N [.node body] (.loop body :: after) run)
    (houter : Continues p.grammar rule outer) :
    ∀ {fuel w u s}, s.rest.length ≤ fuel → Derives p.grammar p.vocabulary [.loop body] w →
      Derives p.grammar p.vocabulary (after ++ outer) u → nestingOfAll w ≤ room →
      Agrees N s (tokensOfAll w ++ tokensOfAll u) →
      Tracks p.config.lookahead N w
        (runLoop (fun s => p.predict ⟨rule, ⟨.ofRepetition atLeastOne, i⟩⟩ s = some 0) run
          fuel s) := by
  intro fuel
  induction fuel with
  | zero =>
    intro w u s hfuel hw hu hroom hs
    by_cases hnear : s.position + p.config.lookahead ≤ N
    · obtain rfl | ⟨a, b, rfl, ha, hb⟩ := hw.cases_loop
      · exact .inl ⟨s, rfl⟩
      · -- another iteration would need a token
        have hin := hp.predict_again hcontext houter ha hb hu hs hnear
        have hne := hp.rest_ne_nil hcontext hin
        exact absurd (List.eq_nil_of_length_eq_zero (Nat.le_zero.mp hfuel)) hne
    · exact .of_past (runLoop_outcome houtcome 0 s) hnear w
  | succ fuel ih =>
    intro w u s hfuel hw hu hroom hs
    by_cases hnear : s.position + p.config.lookahead ≤ N
    · rw [runLoop_succ]
      obtain rfl | ⟨a, b, rfl, ha, hb⟩ := hw.cases_loop
      · have hway := admits_of_agrees houter after hu (by simpa using hs) hnear
        have hout := hp.predict_out (Grammar.repetition_mem_forks hcontext) rfl hway
        rw [if_neg (by simp [hout])]
        exact .inl ⟨s, rfl⟩
      · have hin := hp.predict_again hcontext houter ha hb hu hs hnear
        rw [if_pos (by simpa using hin)]
        rw [nestingOfAll_append] at hroom
        have hs : Agrees N s (tokensOfAll a ++ tokensOfAll (b ++ u)) := by simpa using hs
        have hfirst := hrun houter ha (hb.append hu) (by omega) hs
        refine hfirst.andThen (runLoop_outcome houtcome fuel) fun s' hs' => ?_
        have hone := houtcome s
        rw [hs'] at hone
        have hshorter := (hp.iteration_progress hcontext hone).2
        cases hone with
        | ok hrest hposition _ _ =>
          -- the iteration consumed a token, so the fuel for the others is enough
          refine ih (by omega) hb hu (by omega) ?_
          simpa using hs.after hrest hposition
    · exact .of_past (runLoop_outcome houtcome _ s) hnear w

end

mutual

theorem runNode_tracks (hp : p.Ready) (houtcome : CallOutcome p call room)
    (hcall : CallTracking p call room N) :
    ∀ (n : Node) (after : List Pending), p.grammar.Covers rule (n.contexts after) →
      Tracking p rule room N [.node n] after (runNode p call rule n)
  | .terminal t i, after, hc => by
    intro outer w u s houter hw hu hroom hs
    by_cases hnear : s.position + p.config.lookahead ≤ N
    · cases hw with
      | @terminal _ _ token _ w ht hw =>
        cases hw
        -- the lookahead is not zero, so the next token is that of the reading
        obtain ⟨M, hM⟩ : ∃ M, N - s.position = M + 1 :=
          ⟨N - s.position - 1, by have := hp.lookahead_pos; omega⟩
        unfold Agrees at hs
        rw [hM] at hs
        unfold runNode
        cases hrest : s.rest with
        | nil => simp [hrest] at hs
        | cons token' rest =>
          obtain ⟨rfl, -⟩ : token' = token ∧ _ := by simpa [hrest] using hs
          simp only [ht, if_true]
          exact .inl ⟨_, rfl⟩
    · exact .of_past (runNode_outcome hp houtcome _ after hc s) hnear w
  | .sequence parts, after, hc => by
    intro outer w u s houter hw hu hroom hs
    have hparts := hc.subset (List.subset_cons_self _ _)
    cases hw with
    | sequence hw =>
      have hw : Derives p.grammar p.vocabulary (parts.map .node) w := by simpa using hw
      unfold runNode
      exact runAll_tracks hp houtcome hcall parts after hparts houter hw hu hroom hs
  | .optional body i, after, hc => by
    intro outer w u s houter hw hu hroom hs
    have hbody := hc.subset (List.subset_cons_self _ _)
    by_cases hnear : s.position + p.config.lookahead ≤ N
    · have hfork := Grammar.optional_mem_forks hc.node
      unfold runNode
      cases hw with
      | skip hw =>
        cases hw
        have hway := admits_of_agrees houter after hu (by simpa using hs) hnear
        have hout : p.predict ⟨rule, ⟨.optional, i⟩⟩ s = none := hp.predict_out hfork rfl hway
        rw [if_neg (by simp [hout])]
        exact .inl ⟨s, rfl⟩
      | enter hw =>
        have hway := admits_of_agrees houter (.node body :: after) (hw.append hu)
          (by simpa using hs) hnear
        have hin : p.predict ⟨rule, ⟨.optional, i⟩⟩ s = some 0 := hp.predict_in hfork rfl hway
        rw [if_pos hin]
        exact runNode_tracks hp houtcome hcall body after hbody houter hw hu hroom hs
    · exact .of_past (runNode_outcome hp houtcome _ after hc s) hnear w
  | .repetition body i false, after, hc => by
    intro outer w u s houter hw hu hroom hs
    have hbody := hc.subset (List.subset_cons_self _ _)
    cases hw with
    | many hw =>
      unfold runNode
      exact runLoop_tracks hp hc.node (runNode_outcome hp houtcome body _ hbody)
        (runNode_tracks hp houtcome hcall body _ hbody) houter (Nat.le_refl _) hw hu hroom hs
  | .repetition body i true, after, hc => by
    intro outer w u s houter hw hu hroom hs
    have hbody := hc.subset (List.subset_cons_self _ _)
    by_cases hnear : s.position + p.config.lookahead ≤ N
    · obtain ⟨a, b, rfl, ha, hb⟩ := hw.cases_atLeastOne
      have hin := hp.predict_again hc.node houter ha hb hu hs hnear
      unfold runNode
      dsimp only
      rw [if_neg (by simp [hin])]
      exact runLoop_tracks hp hc.node (runNode_outcome hp houtcome body _ hbody)
        (runNode_tracks hp houtcome hcall body _ hbody) houter (Nat.le_refl _)
        (.again (ha.append hb)) hu hroom hs
    · exact .of_past (runNode_outcome hp houtcome _ after hc s) hnear w
  | .alternation alternatives i description, after, hc => by
    intro outer w u s houter hw hu hroom hs
    have halternatives := hc.subset (List.subset_cons_self _ _)
    by_cases hnear : s.position + p.config.lookahead ≤ N
    · cases hw with
      | @alternative _ n _ _ _ _ hn hw =>
        obtain ⟨j, hj⟩ := List.mem_iff_getElem?.mp hn
        have hway := admits_of_agrees houter (.node n :: after) (hw.append hu)
          (by simpa using hs) hnear
        have hbranch : (alternatives.zipIdx.map fun (n, j) =>
            (BranchLabel.alternative (j + 1), Pending.node n :: after))[j]? =
            some (.alternative (j + 1), .node n :: after) := by simp [hj]
        have hin : p.predict ⟨rule, ⟨.choice, i⟩⟩ s = some j :=
          hp.predict_in (Grammar.alternation_mem_forks hc.node) hbranch hway
        unfold runNode
        rw [hin]
        exact runNth_tracks hp houtcome hcall alternatives after halternatives j n hj _ houter hw hu
          hroom hs
    · exact .of_past (runNode_outcome hp houtcome _ after hc s) hnear w
  | .ruleRef r i, after, hc => by
    intro outer w u s houter hw hu hroom hs
    have hinvoked := Grammar.mem_invocations.mpr ⟨i, hc.node⟩
    rw [runNode_ruleRef]
    exact hcall r i (.call hinvoked houter) hw hu hroom hs

theorem runAll_tracks (hp : p.Ready) (houtcome : CallOutcome p call room)
    (hcall : CallTracking p call room N) :
    ∀ (parts : List Node) (after : List Pending),
      p.grammar.Covers rule (Node.partContexts after parts) →
      Tracking p rule room N (parts.map .node) after (runAll p call rule parts)
  | [], _, _ => by
    intro outer w u s _ hw _ _ _
    cases hw
    exact .inl ⟨s, rfl⟩
  | n :: rest, after, hc => by
    intro outer w u s houter hw hu hroom hs
    rw [Node.partContexts] at hc
    have hn := hc.subset (List.subset_append_left _ _)
    have hrest := hc.subset (List.subset_append_right _ _)
    have hw : Derives p.grammar p.vocabulary ([.node n] ++ rest.map .node) w := hw
    obtain ⟨a, b, rfl, ha, hb⟩ := hw.exists_of_append
    rw [nestingOfAll_append] at hroom
    have hs : Agrees N s (tokensOfAll a ++ tokensOfAll (b ++ u)) := by simpa using hs
    have hbu : Derives p.grammar p.vocabulary ((rest.map .node ++ after) ++ outer) (b ++ u) := by
      rw [List.append_assoc]
      exact hb.append hu
    have hfirst := runNode_tracks hp houtcome hcall n _ hn houter ha hbu (by omega) hs
    unfold runAll
    refine hfirst.andThen (runAll_outcome hp houtcome rest after hrest) fun s' hs' => ?_
    have hone := runNode_outcome hp houtcome n _ hn s
    rw [hs'] at hone
    cases hone with
    | ok hconsumed hposition _ _ =>
      refine runAll_tracks hp houtcome hcall rest after hrest houter hb hu (by omega) ?_
      simpa using hs.after hconsumed hposition

theorem runNth_tracks (hp : p.Ready) (houtcome : CallOutcome p call room)
    (hcall : CallTracking p call room N) :
    ∀ (alternatives : List Node) (after : List Pending),
      p.grammar.Covers rule (Node.alternativeContexts after alternatives) → ∀ i n,
      alternatives[i]? = some n → ∀ refused,
      Tracking p rule room N [.node n] after (runNth p call rule alternatives i refused)
  | [], _, _, _, _, hn, _ => by simp at hn
  | m :: rest, after, hc, 0, n, hn, _ => by
    intro outer w u s houter hw hu hroom hs
    obtain rfl : m = n := by simpa using hn
    rw [Node.alternativeContexts] at hc
    have hm := hc.subset (List.subset_append_left _ _)
    unfold runNth
    exact runNode_tracks hp houtcome hcall m after hm houter hw hu hroom hs
  | m :: rest, after, hc, i + 1, n, hn, refused => by
    intro outer w u s houter hw hu hroom hs
    rw [Node.alternativeContexts] at hc
    have hrest := hc.subset (List.subset_append_right _ _)
    unfold runNth
    exact runNth_tracks hp houtcome hcall rest after hrest i n (by simpa using hn) refused houter hw
      hu hroom hs

end

theorem Ready.runRule_tracks (hp : p.Ready) : ∀ room, CallTracking p (p.runRule room) room N := by
  intro room
  induction room with
  | zero =>
    intro r i outer w u s _ hw _ hroom _
    obtain ⟨children, rfl, -⟩ := hw.cases_ruleRef
    simp at hroom
  | succ room ih =>
    intro r i outer w u s houter hw hu hroom hs
    obtain ⟨children, rfl, body, hr, hchildren⟩ := hw.cases_ruleRef
    have hroom : nestingOfAll children ≤ room := by simpa using hroom
    have hbody := runNode_tracks hp (hp.runRule_outcome room) ih body.body []
      (Grammar.covers_body hr) houter hchildren hu hroom
      (by simpa [Agrees] using hs : Agrees N
        { s with entered := ⟨r, s.position, p.config.nestingLimit - (room + 1)⟩ :: s.entered } _)
    unfold runRule
    rw [hr]
    dsimp only
    generalize runNode p (p.runRule room) r body.body _ = x at hbody
    obtain ⟨s', rfl⟩ | hpast := hbody
    · exact .inl ⟨s', rfl⟩
    · refine .inr ?_
      cases x <;> exact hpast

/-- From the start on, a run of a rule tracks a derivation tree of it. -/
theorem Ready.tracks_tree (hp : p.Ready) {t : ParseTree} (ht : p.grammar.IsTree p.vocabulary t)
    (hnesting : t.node.nesting ≤ p.config.nestingLimit) {w : List Token}
    (hw : w.take N = t.tokens.take N) :
    Tracks p.config.lookahead N [t.node]
      (asNode (p.runRule p.config.nestingLimit t.rule (.start w))) := by
  refine hp.runRule_tracks _ t.rule 0 .entry (ht.derives 0) .nil (by simpa using hnesting) ?_
  simpa [Agrees, RunState.start, ParseTree.tokens] using hw

theorem Ready.parse_tree (hp : p.Ready) {t : ParseTree} (ht : p.grammar.IsTree p.vocabulary t)
    (hnesting : t.node.nesting ≤ p.config.nestingLimit) : p.parse t.rule t.tokens = .ok t := by
  -- a place that no run on these tokens comes near
  have htracks := hp.tracks_tree (N := t.tokens.length + p.config.lookahead) ht hnesting rfl
  have houtcome := hp.runRule_outcome p.config.nestingLimit t.rule 0 (.start t.tokens)
  have hend := houtcome.ending_le
  obtain ⟨s, hs⟩ | hpast := htracks
  · rw [hs] at houtcome
    cases houtcome with
    | ok hrest _ _ _ =>
      have hnil : s.rest = [] := by
        simpa [RunState.start, ParseTree.tokens] using hrest
      cases hrun : p.runRule p.config.nestingLimit t.rule (.start t.tokens) with
      | error e =>
        rw [hrun] at hs
        cases hs
      | ok result =>
        obtain ⟨t', s'⟩ := result
        rw [hrun] at hs
        obtain ⟨hnode, rfl⟩ : t'.node = t.node ∧ s' = s := by simpa [asNode, Except.map] using hs
        obtain rfl : t' = t := by
          cases t'
          cases t
          simpa [ParseTree.node] using hnode
        unfold parse run
        rw [hrun]
        simp [bind, Except.bind, pure, Except.pure, hnil]
  · have hlen : (RunState.start t.tokens).rest.length = t.tokens.length := rfl
    have hstart : (RunState.start t.tokens).position = 0 := rfl
    omega

/-- The tokens of a derivation tree have no other of the same rule. -/
theorem Ready.tree_unique (hp : p.Ready) {t t' : ParseTree}
    (ht : p.grammar.IsTree p.vocabulary t) (ht' : p.grammar.IsTree p.vocabulary t')
    (hrule : t.rule = t'.rule) (htokens : t.tokens = t'.tokens) : t = t' := by
  -- a parser that differs in the nesting limit only
  let limit := max t.node.nesting t'.node.nesting
  let wide : Parser := { p with config := { p.config with nestingLimit := limit } }
  have hwide : wide.Ready :=
    ⟨hp.lookahead_pos, hp.proper, hp.grounded, hp.progressive, hp.clear, hp.predictor⟩
  have h : wide.parse t.rule t.tokens = .ok t := hwide.parse_tree ht (Nat.le_max_left _ _)
  have h' : wide.parse t'.rule t'.tokens = .ok t' := hwide.parse_tree ht' (Nat.le_max_right _ _)
  rw [hrule, htokens, h'] at h
  exact (Except.ok.inj h).symm

end Parser

/-- The tokens of a derivation tree that is nested no deeper than allowed are parsed to that tree,
and no tokens have two derivation trees of one rule. -/
theorem Draft.parse_complete {d : Draft} {p : Parser} (hp : d.parser = .ok p) :
    (∀ t, p.grammar.IsTree p.vocabulary t → t.node.nesting ≤ p.config.nestingLimit →
      p.parse t.rule t.tokens = .ok t) ∧
    ∀ t t', p.grammar.IsTree p.vocabulary t → p.grammar.IsTree p.vocabulary t' →
      t.rule = t'.rule → t.tokens = t'.tokens → t = t' :=
  ⟨fun _ ht hnesting => (parser_ready hp).parse_tree ht hnesting,
    fun _ _ ht ht' hrule htokens => (parser_ready hp).tree_unique ht ht' hrule htokens⟩

theorem itemList_parse_complete :
    itemListParser.parse 0 itemListTokens = .ok itemListTree :=
  (Draft.parse_complete itemList_accepted).1 itemListTree itemListTree_isTree (by decide)

end StrongLL
