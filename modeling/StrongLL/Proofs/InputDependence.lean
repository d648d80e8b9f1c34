import StrongLL.Proofs.NestingLimit
import StrongLL.Proofs.Steps
import StrongLL.Proofs.WellFormed

/-!
# StrongLL.Proofs.InputDependence

What a parse depends on of its input:

* `TreeNode.mapTokens`, `Mismatch.mapTokens` — every token replaced by another one.
* `Moment.Mirrors`     — two runs are at the same point, and as far as place `N` the second one has
  before it the tokens of the first, replaced.
* `Parser.step_mirrors` — a step keeps this as long as the lookahead does not reach beyond `N`.
* `Parser.Ready.run_lockstep` — what each step of two runs keeps holds of their ends.
* `Draft.parse_window` — a parse looks no further than the lookahead from where it ends.
* `Draft.parse_kinds`  — of the tokens it looks at nothing but their kinds.
-/

namespace StrongLL

/-! ## Tokens replaced -/

namespace TreeNode

mutual

def mapTokens (f : Token → Token) : TreeNode → TreeNode
  | token t => token (f t)
  | tree r children => tree r (mapTokensOfAll f children)

def mapTokensOfAll (f : Token → Token) : List TreeNode → List TreeNode
  | [] => []
  | n :: rest => n.mapTokens f :: mapTokensOfAll f rest

end

theorem mapTokensOfAll_append (f : Token → Token) (w z : List TreeNode) :
    mapTokensOfAll f (w ++ z) = mapTokensOfAll f w ++ mapTokensOfAll f z := by
  induction w with
  | nil => rfl
  | cons n w ih => simp only [List.cons_append, mapTokensOfAll, ih]

mutual

theorem mapTokens_id : ∀ n : TreeNode, n.mapTokens id = n
  | token _ => rfl
  | tree r children => congrArg (tree r) (mapTokensOfAll_id children)

theorem mapTokensOfAll_id : ∀ ns : List TreeNode, mapTokensOfAll id ns = ns
  | [] => rfl
  | n :: rest => congrArg₂ List.cons (mapTokens_id n) (mapTokensOfAll_id rest)

end

end TreeNode

def ParseTree.mapTokens (f : Token → Token) (t : ParseTree) : ParseTree :=
  ⟨t.rule, TreeNode.mapTokensOfAll f t.children⟩

theorem ParseTree.mapTokens_id (t : ParseTree) : t.mapTokens id = t :=
  congrArg (ParseTree.mk t.rule) (TreeNode.mapTokensOfAll_id t.children)

def Mismatch.mapTokens (f : Token → Token) (e : Mismatch) : Mismatch :=
  { e with found := e.found.map f }

theorem Mismatch.mapTokens_id (e : Mismatch) : e.mapTokens id = e := by
  simp [mapTokens]

namespace Frame

def mapTokens (f : Token → Token) (frame : Frame) : Frame :=
  { frame with children := TreeNode.mapTokensOfAll f frame.children }

theorem mapTokens_add (f : Token → Token) (frame : Frame) (made : List TreeNode) :
    (frame.add made).mapTokens f = (frame.mapTokens f).add (TreeNode.mapTokensOfAll f made) := by
  simp [add, mapTokens, TreeNode.mapTokensOfAll_append]

end Frame

/-! ## Two runs side by side -/

/-- Up to place `N`, the second run has before it the tokens of the first, replaced. -/
structure RunState.Mirrors (N : Nat) (f : Token → Token) (s s' : RunState) : Prop where
  position : s'.position = s.position
  entered : s'.entered = s.entered
  rest : s'.rest.take (N - s.position) = (s.rest.map f).take (N - s.position)

/-- Both runs are at the same point. -/
inductive Moment.Mirrors (N : Nat) (f : Token → Token) : Moment → Moment → Prop where
  | calling {r : RuleId} {outer : List Frame} {s s' : RunState} : s.Mirrors N f s' →
      Mirrors N f (.calling r outer s) (.calling r (outer.map (·.mapTokens f)) s')
  | working {frame : Frame} {outer : List Frame} {s s' : RunState} : s.Mirrors N f s' →
      Mirrors N f (.working frame outer s)
        (.working (frame.mapTokens f) (outer.map (·.mapTokens f)) s')
  | returning {t : ParseTree} {outer : List Frame} {s s' : RunState} : s.Mirrors N f s' →
      Mirrors N f (.returning t outer s)
        (.returning (t.mapTokens f) (outer.map (·.mapTokens f)) s')
  | ok {t : ParseTree} {s s' : RunState} :
      Mirrors N f (.ended (.ok (t, s))) (.ended (.ok (t.mapTokens f, s')))
  | error {e e' : RunError} : e'.mismatch = e.mismatch.mapTokens f →
      Mirrors N f (.ended (.error e)) (.ended (.error e'))

/-- The number of tokens that have been passed. -/
def Moment.place : Moment → Nat
  | .calling _ _ s => s.position
  | .working _ _ s => s.position
  | .returning _ _ s => s.position
  | .ended result => ending result

namespace RunState.Mirrors

variable {N k : Nat} {f : Token → Token} {s s' : RunState}

theorem take_eq (h : s.Mirrors N f s') (hnear : s.position + k ≤ N) :
    s'.rest.take k = (s.rest.map f).take k := by
  have hk : min k (N - s.position) = k := by omega
  have heq := congrArg (List.take k) h.rest
  rwa [List.take_take, List.take_take, hk] at heq

/-- If the lookahead is not zero, the next token is seen. -/
theorem head?_eq (h : s.Mirrors N f s') (hk : 0 < k) (hnear : s.position + k ≤ N) :
    s'.rest.head? = s.rest.head?.map f := by
  have heq := congrArg List.head? (h.take_eq (k := 1) (by omega))
  simpa [List.head?_take] using heq

theorem rest_eq_nil (h : s.Mirrors N f s') (hk : 0 < k) (hnear : s.position + k ≤ N)
    (hrest : s.rest = []) : s'.rest = [] := by
  have hhead := h.head?_eq hk hnear
  rw [hrest] at hhead
  exact List.head?_eq_none_iff.mp hhead

/-- If the first run has a token before it, so has the second, and what comes after is seen. -/
theorem exists_rest (h : s.Mirrors N f s') (hk : 0 < k) (hnear : s.position + k ≤ N)
    {token : Token} {rest : List Token} (hrest : s.rest = token :: rest) :
    ∃ rest', s'.rest = f token :: rest' ∧
      Mirrors N f { s with rest, position := s.position + 1 }
        { s' with rest := rest', position := s'.position + 1 } := by
  have hhead := h.head?_eq hk hnear
  rw [hrest] at hhead
  obtain ⟨rest', hrest'⟩ := List.head?_eq_some_iff.mp hhead
  refine ⟨rest', hrest', congrArg (· + 1) h.position, h.entered, ?_⟩
  have hwindow := h.rest
  obtain ⟨M, hM⟩ : ∃ M, N - s.position = M + 1 := ⟨N - s.position - 1, by omega⟩
  have hM' : N - (s.position + 1) = M := by omega
  rw [hrest, hrest', hM, List.map_cons, List.take_succ_cons, List.take_succ_cons] at hwindow
  show rest'.take (N - (s.position + 1)) = (rest.map f).take (N - (s.position + 1))
  rw [hM']
  exact (List.cons.inj hwindow).2

theorem fail (h : s.Mirrors N f s') (hk : 0 < k) (hnear : s.position + k ≤ N) (r : RuleId)
    (o : Option Occurrence) (expected : Expectation) :
    Moment.Mirrors N f (.ended (s.fail r o expected)) (.ended (s'.fail r o expected)) := by
  refine .error ?_
  simp only [Mismatch.mapTokens, h.head?_eq hk hnear, h.position]

end RunState.Mirrors

namespace Parser

variable {p : Parser} {N : Nat} {f : Token → Token} {limit : Option Nat}

/-! ## One step -/

theorem Begins.le_place {frame : Frame} {outer : List Frame} {s : RunState} {task : Task}
    {m : Moment} (h : p.Begins frame outer s task m) : s.position ≤ m.place := by
  cases h with
  | push _ => exact Nat.le_refl _
  | take _ _ => exact Nat.le_succ _
  | call => exact Nat.le_refl _
  | fail _ => exact Nat.le_refl _

/-- A run does not go back. -/
theorem le_place_step (p : Parser) (limit : Option Nat) (m : Moment) :
    m.place ≤ (p.step limit m).place := by
  have hgoes := p.goes limit m
  generalize p.step limit m = m' at hgoes ⊢
  cases hgoes with
  | work _ hbegins => exact hbegins.le_place
  | enter _ _ | unknown _ | tooDeep _ _ _ | finish _ | resume | leftover _ _ | complete _ | stay =>
    exact Nat.le_refl _

section

variable (hdepth : ∀ key g, p.predictor? key = some g → g.depth = p.config.lookahead)
  (hpos : 0 < p.config.lookahead) (hf : ∀ t, (f t).kind = t.kind)

include hdepth hf

/-- A prediction depends on the kinds in its window alone. -/
theorem predict_mirrors {s s' : RunState} (h : s.Mirrors N f s')
    (hnear : s.position + p.config.lookahead ≤ N) (key : DecisionKey) :
    p.predict key s' = p.predict key s := by
  unfold predict
  cases hkey : p.predictor? key with
  | none => rfl
  | some g =>
    have hwindow : s'.kinds.take g.depth = s.kinds.take g.depth := by
      rw [RunState.kinds, RunState.kinds, ← List.map_take, ← List.map_take, hdepth key g hkey,
        h.take_eq hnear, ← List.map_take, List.map_map]
      exact List.map_congr_left fun t _ => hf t
    exact Predictor.predict_congr hwindow

include hpos

theorem Refuses.mirrors {r : RuleId} {s s' : RunState} {task : Task} {o : Occurrence}
    {expected : Expectation} (hrefuses : p.Refuses r s task o expected) (h : s.Mirrors N f s')
    (hnear : s.position + p.config.lookahead ≤ N) : p.Refuses r s' task o expected := by
  have hpredict := predict_mirrors hdepth hf h hnear
  cases hrefuses with
  | token hnone =>
    refine .token fun token htoken => ?_
    rw [h.head?_eq hpos hnear] at htoken
    obtain ⟨t, ht, rfl⟩ := Option.map_eq_some_iff.mp htoken
    rw [hf]
    exact hnone t ht
  | iteration hout => exact .iteration (by rwa [hpredict])
  | alternative hnone => exact .alternative (by rwa [hpredict])

theorem work_mirrors {frame : Frame} {outer : List Frame} {s s' : RunState} (h : s.Mirrors N f s')
    (hnear : s.position + p.config.lookahead ≤ N) (task : Task) :
    (p.work frame outer s task).Mirrors N f
      (p.work (frame.mapTokens f) (outer.map (·.mapTokens f)) s' task) := by
  have hpredict := predict_mirrors hdepth hf h hnear
  have hbegins := p.begins frame outer s task
  generalize p.work frame outer s task = m at hbegins ⊢
  cases hbegins with
  | push hgives =>
    have hgives' : p.GivesWay (frame.mapTokens f).rule s' task _ := hgives.congr hpredict
    rw [hgives'.work_eq]
    exact .working h
  | @take t i token rest hrest ht =>
    obtain ⟨rest', hrest', hafter⟩ := h.exists_rest hpos hnear hrest
    have hmade := frame.mapTokens_add f [.token token]
    simp only [TreeNode.mapTokensOfAll, TreeNode.mapTokens] at hmade
    rw [work]
    simp only [hrest', hf, ht, if_true]
    rw [← hmade]
    exact .working hafter
  | @call r i =>
    have hcall : Moment.Mirrors N f (.calling r (frame :: outer) s)
        (.calling r ((frame :: outer).map (·.mapTokens f)) s') := .calling h
    exact hcall
  | fail hrefuses =>
    have hrefuses' : p.Refuses (frame.mapTokens f).rule s' task _ _ :=
      hrefuses.mirrors hdepth hpos hf h hnear
    rw [hrefuses'.work_eq]
    exact h.fail hpos hnear _ _ _

/-- Two runs side by side make the same step, unless the lookahead reaches beyond place `N`. -/
theorem step_mirrors {m m' : Moment} (h : m.Mirrors N f m')
    (hnear : m.place + p.config.lookahead ≤ N) :
    (p.step limit m).Mirrors N f (p.step limit m') := by
  cases h with
  | @calling r outer s s' h =>
    rw [step, step, enter, enter, List.length_map, h.position]
    cases p.grammar.get? r with
    | none => exact h.fail hpos hnear _ _ _
    | some rule =>
      dsimp only
      split
      · exact h.fail hpos hnear _ _ _
      · exact .working ⟨rfl, congrArg (_ :: ·) h.entered, h.rest⟩
  | @working frame outer s s' h =>
    obtain ⟨r, position, children, tasks⟩ := frame
    rw [step, step]
    cases tasks with
    | nil => exact .returning h
    | cons task tasks => exact work_mirrors hdepth hpos hf h hnear task
  | @returning t outer s s' h =>
    cases outer with
    | nil =>
      have hempty : s'.rest.isEmpty = s.rest.isEmpty := by
        cases hrest : s.rest with
        | nil => rw [h.rest_eq_nil hpos hnear hrest]
        | cons token rest =>
          obtain ⟨rest', hrest', -⟩ := h.exists_rest hpos hnear hrest
          rw [hrest']
          rfl
      rw [List.map_nil, step, step, hempty]
      split
      · exact h.fail hpos hnear _ _ _
      · exact .ok
    | cons frame outer =>
      have hmade := frame.mapTokens_add f [t.node]
      rw [List.map_cons, step, step]
      show (Moment.working _ _ _).Mirrors N f
        (.working ((frame.mapTokens f).add (TreeNode.mapTokensOfAll f [t.node])) _ _)
      rw [← hmade]
      exact .working h
  | ok => exact .ok
  | error heq => exact .error heq

end

/-! ## Whole runs -/

/-- What every step of two runs keeps holds of their ends. -/
theorem Ready.run_lockstep (hp : p.Ready) {R : Moment → Moment → Prop}
    (hstep : ∀ m m', R m m' →
      R (p.step (some p.config.nestingLimit) m) (p.step (some p.config.nestingLimit) m'))
    {r : RuleId} {w w' : List Token} (hstart : R (.start r w) (.start r w')) :
    R (.ended (p.run r w)) (.ended (p.run r w')) := by
  obtain ⟨i, hi⟩ := (hp.steps_run r w).exists_iterate
  obtain ⟨j, hj⟩ := (hp.steps_run r w').exists_iterate
  have hall : ∀ n, R ((p.step (some p.config.nestingLimit))^[n] (.start r w))
      ((p.step (some p.config.nestingLimit))^[n] (.start r w')) := by
    intro n
    induction n with
    | zero => exact hstart
    | succ n ih =>
      rw [Function.iterate_succ_apply', Function.iterate_succ_apply']
      exact hstep _ _ ih
  have hends := hall (max i j)
  rwa [iterate_of_ended (Nat.le_max_left i j) hi, iterate_of_ended (Nat.le_max_right i j) hj]
    at hends

variable {r : RuleId} {w : List Token}

theorem ending_of_parse_error {e : Mismatch} (h : p.parse r w = .error e) :
    ending (p.run r w) = e.position := by
  unfold parse at h
  cases hrun : p.run r w with
  | ok result =>
    rw [hrun] at h
    cases h
  | error err =>
    rw [hrun] at h
    cases h
    rfl

theorem Ready.ending_of_parse_ok (hp : p.Ready) {t : ParseTree} (h : p.parse r w = .ok t) :
    ending (p.run r w) = t.tokens.length := by
  obtain ⟨s, hrule, hleft⟩ := parse_eq_ok h
  have hrun : p.run r w = .ok (t, s) := by
    have hkept : (p.config.wholeInput && !s.rest.isEmpty) = false := by simpa using hleft
    unfold run
    rw [hrule]
    simp [bind, Except.bind, pure, Except.pure, hkept]
  have houtcome := hp.runRule_outcome p.config.nestingLimit r 0 (.start w)
  rw [hrule] at houtcome
  rw [hrun]
  cases houtcome with
  | ok _ hposition _ _ => simpa [ending, RunState.start, ParseTree.tokens] using hposition

end Parser

/-- The predictors of a parser look as far ahead as the parser does. -/
theorem Parser.WellFormed.depth_eq {p : Parser} (hp : p.WellFormed) {key : DecisionKey}
    {g : Predictor} (h : p.predictor? key = some g) : g.depth = p.config.lookahead := by
  obtain ⟨before, after, htable, -⟩ := List.lookup_eq_some_iff.mp h
  have hmem : (key, g.depth, g.branches.length) ∈
      p.table.map fun x => (x.1, x.2.depth, x.2.branches.length) :=
    List.mem_map.mpr ⟨(key, g), by simp [htable], rfl⟩
  rw [hp.table] at hmem
  obtain ⟨x, -, heq⟩ := List.mem_map.mp hmem
  exact (congrArg (·.2.1) heq).symm

namespace Draft

variable {d : Draft} {p : Parser} {f : Token → Token} {r : RuleId} {w w' : List Token}

/-- If the second input has the kinds of the first as far as the lookahead reaches from the end of
the first run, the second run ends like the first. -/
theorem run_mirrors (hp : d.parser = .ok p) (hf : ∀ t, (f t).kind = t.kind)
    (hw : w'.take (ending (p.run r w) + p.config.lookahead) =
      (w.map f).take (ending (p.run r w) + p.config.lookahead)) :
    Moment.Mirrors (ending (p.run r w) + p.config.lookahead) f (.ended (p.run r w))
      (.ended (p.run r w')) := by
  have hready := parser_ready hp
  let N := ending (p.run r w) + p.config.lookahead
  -- the relation is kept up to the place where the first run ends
  refine hready.run_lockstep (r := r) (w := w)
    (R := fun m m' => m.place + p.config.lookahead ≤ N → m.Mirrors N f m') ?_ ?_ (Nat.le_refl N)
  · intro m m' h hnear
    have hbefore : m.place + p.config.lookahead ≤ N :=
      Nat.le_trans (Nat.add_le_add_right (p.le_place_step _ m) _) hnear
    exact p.step_mirrors (fun _ _ => (wellFormed hp).depth_eq) hready.lookahead_pos hf (h hbefore)
      hbefore
  · exact fun _ => .calling ⟨rfl, rfl, hw⟩

theorem parse_mirrors (hp : d.parser = .ok p) (hf : ∀ t, (f t).kind = t.kind)
    (hw : w'.take (ending (p.run r w) + p.config.lookahead) =
      (w.map f).take (ending (p.run r w) + p.config.lookahead)) :
    p.parse r w' =
      match p.parse r w with
      | .ok t => .ok (t.mapTokens f)
      | .error e => .error (e.mapTokens f) := by
  have hmirrors := run_mirrors hp hf hw
  unfold Parser.parse
  generalize p.run r w = x, p.run r w' = x' at hmirrors ⊢
  cases hmirrors with
  | ok => rfl
  | error heq => exact congrArg Except.error heq

/-- What a parse finds is settled by the tokens up to its end and as many behind it as the lookahead
has. An input that goes on otherwise after these gives the same error, or the same tree. -/
theorem parse_window (hp : d.parser = .ok p) (r : RuleId) (w w' : List Token) :
    (∀ e, p.parse r w = .error e →
      w'.take (e.position + p.config.lookahead) = w.take (e.position + p.config.lookahead) →
      p.parse r w' = .error e) ∧
    ∀ t, p.parse r w = .ok t →
      w'.take (t.tokens.length + p.config.lookahead) =
        w.take (t.tokens.length + p.config.lookahead) →
      p.parse r w' = .ok t := by
  constructor
  · intro e he hw
    rw [← Parser.ending_of_parse_error he, ← congrArg (List.take _) w.map_id] at hw
    have hparse := parse_mirrors (f := id) hp (fun _ => rfl) hw
    simpa only [he, e.mapTokens_id] using hparse
  · intro t ht hw
    rw [← (parser_ready hp).ending_of_parse_ok ht, ← congrArg (List.take _) w.map_id] at hw
    have hparse := parse_mirrors (f := id) hp (fun _ => rfl) hw
    simpa only [ht, t.mapTokens_id] using hparse

end Draft

/-- A list of items at the beginning of the input. -/
def itemPrefix : Draft := { itemList with config := { wholeInput := false } }

def itemPrefixParser : Parser := { itemListParser with config := { wholeInput := false } }

theorem itemPrefix_accepted : itemPrefix.parser = .ok itemPrefixParser := by
  obtain ⟨hg, -, -, htable⟩ := Draft.parser_parts itemList_accepted
  have hprefix : itemPrefix.grammar = .ok itemListParser.grammar :=
    Draft.grammar_withConfig hg (Nat.succ_pos 0)
  rw [Draft.parser_of_grammar hprefix]
  exact congrArg (Except.map _) htable

/-- Another item behind the list shows that it is over. Nothing is looked at behind this, nor behind
a comma where the first item should be. -/
theorem itemPrefix_parse_window :
    (∀ more, itemPrefixParser.parse 0 (itemListTokens ++ ⟨1, "a", .start⟩ :: more) =
      .ok itemListTree) ∧
    ∀ more, itemPrefixParser.parse 0 (⟨2, ",", .start⟩ :: more) =
      .error ⟨1, some ⟨.token, 1⟩, .tokens [0], some ⟨2, ",", .start⟩, 0⟩ := by
  constructor
  · intro more
    exact (Draft.parse_window itemPrefix_accepted 0 (itemListTokens ++ [⟨1, "a", .start⟩]) _).2 _
      (by rfl) rfl
  · intro more
    exact (Draft.parse_window itemPrefix_accepted 0 [⟨2, ",", .start⟩] _).1 _ (by rfl) rfl

namespace Draft

variable {d : Draft} {p : Parser} {f : Token → Token}

/-- Tokens replaced by others of the same kinds give the same tree with the tokens replaced, or the
same error with the token replaced that was found. -/
theorem parse_kinds (hp : d.parser = .ok p) (hf : ∀ t, (f t).kind = t.kind) (r : RuleId)
    (w : List Token) :
    p.parse r (w.map f) =
      match p.parse r w with
      | .ok t => .ok (t.mapTokens f)
      | .error e => .error (e.mapTokens f) :=
  parse_mirrors hp hf rfl

end Draft

/-- A token of the same kind, without text at no particular place. -/
def Token.bare (t : Token) : Token := { t with image := "", place := .start }

theorem Token.bare_kind (t : Token) : t.bare.kind = t.kind := rfl

theorem itemList_parse_kinds :
    itemListParser.parse 0 (itemListTokens.map .bare) = .ok (itemListTree.mapTokens .bare) ∧
    itemListParser.parse 0 ((itemListTokens.drop 1).map .bare) =
      .error ⟨1, some ⟨.token, 1⟩, .tokens [0], some ⟨2, "", .start⟩, 0⟩ :=
  ⟨Draft.parse_kinds itemList_accepted Token.bare_kind 0 itemListTokens,
    Draft.parse_kinds itemList_accepted Token.bare_kind 0 (itemListTokens.drop 1)⟩

end StrongLL
