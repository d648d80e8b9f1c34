import StrongLL.Proofs.Categories
import StrongLL.Proofs.Completeness

/-!
# StrongLL.Proofs.EarlyErrors

Errors come as early as the lookahead allows:

* `Grammar.Productive`        — every rule has a derivation tree, so all proper parts have readings.
* `Expands.exists_derives`    — the start of an expansion, read from given tokens and completed.
* `Parser.Ready.error_prefix` — an error stands after tokens that can start the rule.
* `Parser.Ready.no_tree`      — no derivation tree agrees with the input as far as the parser had
  looked there.
* `Draft.parse_error_early`   — all that an error says about its place.
-/

namespace StrongLL

open TreeNode

namespace Grammar

variable {g : Grammar} {v : Vocabulary}

/-- Every rule has a derivation tree. -/
def Productive (g : Grammar) (v : Vocabulary) : Prop :=
  ∀ r < g.size, ∃ t, g.IsTree v t ∧ t.rule = r

mutual

theorem Productive.exists_derives_node (h : g.Productive v)
    (hv : ∀ t < v.size, v.accepts t t = true) :
    ∀ n : Node, n.Proper v.size g.size → ∃ w, Derives g v [.node n] w
  | .terminal t i, hn => by
    cases hn with
    | terminal ht => exact ⟨[.token ⟨t, "", .start⟩], .terminal (hv t ht) .nil⟩
  | .sequence parts, hn => by
    cases hn with
    | sequence hparts =>
      obtain ⟨w, hw⟩ := h.exists_derives_parts hv parts hparts
      exact ⟨w, .sequence (by simpa using hw)⟩
  | .optional body i, _ => ⟨[], .skip .nil⟩
  | .repetition body i false, _ => ⟨[], .many (.stop .nil)⟩
  | .repetition body i true, hn => by
    cases hn with
    | repetition hbody =>
      obtain ⟨w, hw⟩ := h.exists_derives_node hv body hbody
      exact ⟨w ++ [], .atLeastOne (hw.append (.stop .nil))⟩
  | .alternation [] i description, hn => by
    cases hn with
    | alternation hne _ => exact absurd rfl hne
  | .alternation (n :: rest) i description, hn => by
    cases hn with
    | alternation _ halternatives =>
      obtain ⟨w, hw⟩ := h.exists_derives_node hv n (halternatives n (by simp))
      exact ⟨w, .alternative (by simp) hw⟩
  | .ruleRef r i, hn => by
    cases hn with
    | ruleRef hr =>
      obtain ⟨t, ht, rfl⟩ := h r hr
      exact ⟨[t.node], ht.derives i⟩

theorem Productive.exists_derives_parts (h : g.Productive v)
    (hv : ∀ t < v.size, v.accepts t t = true) :
    ∀ parts : List Node, (∀ n ∈ parts, n.Proper v.size g.size) →
      ∃ w, Derives g v (parts.map .node) w
  | [], _ => ⟨[], .nil⟩
  | n :: rest, hparts => by
    obtain ⟨w, hw⟩ := h.exists_derives_node hv n (hparts n (by simp))
    obtain ⟨z, hz⟩ := h.exists_derives_parts hv rest fun m hm => hparts m (by simp [hm])
    exact ⟨w ++ z, hw.append hz⟩

end

theorem Productive.exists_derives (h : g.Productive v) (hv : ∀ t < v.size, v.accepts t t = true)
    {xs : List Pending}
    (hxs : ∀ x ∈ xs, x.part.Proper v.size g.size) : ∃ w, Derives g v xs w := by
  induction xs with
  | nil => exact ⟨[], .nil⟩
  | cons x xs ih =>
    have hx : ∃ w, Derives g v [x] w := by
      cases x with
      | node n => exact h.exists_derives_node hv n (hxs (.node n) (by simp))
      | loop body => exact ⟨[], .stop .nil⟩
    obtain ⟨w, hw⟩ := hx
    obtain ⟨z, hz⟩ := ih fun y hy => hxs y (by simp [hy])
    exact ⟨w ++ z, hw.append hz⟩

end Grammar

section

variable {g : Grammar} {v : Vocabulary}

/-- A step of an expansion, made in a reading of what comes of it. -/
theorem Unfolds.exists_derives {x : Pending} {xs rest : List Pending} {p : Path}
    (hu : Unfolds g x p xs) {done : List Token} (hfits : v.Fits p (done.map (·.kind)))
    {w : List TreeNode} (hw : Derives g v (xs ++ rest) w) :
    ∃ z, Derives g v (x :: rest) z ∧ tokensOfAll z = done ++ tokensOfAll w := by
  by_cases hnil : p = []
  · subst hnil
    obtain rfl : done = [] := by simpa using List.forall₂_nil_left_iff.mp hfits
    by_cases hx : ∀ r i, x ≠ .node (.ruleRef r i)
    · exact ⟨w, hw.of_unfolds hu hx, rfl⟩
    · obtain ⟨r, i, rfl⟩ : ∃ r i, x = .node (.ruleRef r i) := by simpa using hx
      cases hu with
      | @ruleRef _ rule _ hr =>
        have hw : Derives g v ([.node rule.body] ++ rest) w := hw
        obtain ⟨children, w, rfl, hchildren, hrest⟩ := hw.exists_of_append
        exact ⟨.tree r children :: w, .ruleRef hr hchildren hrest, by simp⟩
  · cases hu with
    | terminal =>
      obtain ⟨token, rfl⟩ : ∃ token, done = [token] := by
        have hlen := List.Forall₂.length_eq hfits
        exact List.length_eq_one_iff.mp (by simpa using hlen.symm)
      cases hfits with
      | cons ht _ => exact ⟨.token token :: w, .terminal ht hw, by simp⟩
    | _ => exact absurd rfl hnil

/-- Tokens that fit what an expansion has emitted, with a reading of what it has left. -/
theorem Expands.exists_derives {xs left : List Pending} {q : Path} (h : Expands g xs q left)
    {done : List Token} {z : List TreeNode} (hfits : v.Fits q (done.map (·.kind)))
    (hz : Derives g v left z) :
    ∃ w, Derives g v xs w ∧ tokensOfAll w = done ++ tokensOfAll z := by
  induction h using Expands.rec_unfolds generalizing done with
  | refl xs =>
    obtain rfl : done = [] := by simpa using List.forall₂_nil_left_iff.mp hfits
    exact ⟨z, hz, rfl⟩
  | @step x xs rest left p q hu _ ih =>
    -- the tokens of the first step, then those of the others
    have hfirst : v.Fits p ((done.take p.length).map (·.kind)) := by
      have h := List.forall₂_take p.length hfits
      rwa [List.take_left, ← List.map_take] at h
    have hothers : v.Fits q ((done.drop p.length).map (·.kind)) := by
      have h := List.forall₂_drop p.length hfits
      rwa [List.drop_left, ← List.map_drop] at h
    obtain ⟨w, hw, htokens⟩ := ih hothers hz
    obtain ⟨w', hw', htokens'⟩ := hu.exists_derives hfirst hw
    refine ⟨w', hw', ?_⟩
    rw [htokens', htokens, ← List.append_assoc, List.take_append_drop]

end

namespace Parser

variable {p : Parser} {r : RuleId} {w : List Token} {e : Mismatch}

/-- A parse fails within the rule, or because the rule leaves tokens that it should not. -/
theorem parse_eq_error (h : p.parse r w = .error e) :
    (∃ err, p.runRule p.config.nestingLimit r (.start w) = .error err ∧ e = err.mismatch) ∨
      ∃ t s, p.runRule p.config.nestingLimit r (.start w) = .ok (t, s) ∧ s.rest ≠ [] ∧
        e.position = s.position ∧ e.found = s.rest.head? := by
  unfold parse run at h
  cases hrun : p.runRule p.config.nestingLimit r (.start w) with
  | error err =>
    rw [hrun] at h
    cases h
    exact .inl ⟨err, rfl, rfl⟩
  | ok result =>
    obtain ⟨t, s⟩ := result
    rw [hrun] at h
    refine .inr ⟨t, s, rfl, ?_⟩
    by_cases hleft : (p.config.wholeInput && !s.rest.isEmpty) = true
    · simp [bind, Except.bind, hleft, RunState.fail] at h
      subst h
      obtain ⟨-, hne⟩ : p.config.wholeInput = true ∧ s.rest ≠ [] := by simpa using hleft
      exact ⟨hne, rfl, rfl⟩
    · simp [bind, Except.bind, hleft, pure, Except.pure] at h

/-- An error tells how many tokens were consumed and what comes next, and an expansion of the rule
can emit the types of what was consumed. -/
theorem Ready.error_prefix (hp : p.Ready) (h : p.parse r w = .error e) :
    ∃ done rest q left, w = done ++ rest ∧ e.position = done.length ∧ e.found = rest.head? ∧
      Expands p.grammar [.node (.ruleRef r 0)] q left ∧
      p.vocabulary.Fits q (done.map (·.kind)) := by
  have houtcome := hp.runRule_outcome p.config.nestingLimit r 0 (.start w)
  obtain ⟨err, hrun, rfl⟩ | ⟨t, s, hrun, -, hposition, hfound⟩ := parse_eq_error h
  · rw [hrun] at houtcome
    cases houtcome with
    | @error _ done rest q left hrest hposition hfound hq hfits =>
      exact ⟨done, rest, q, left, hrest, by simpa [RunState.start] using hposition, hfound, hq,
        hfits⟩
  · rw [hrun] at houtcome
    cases houtcome with
    | ok hrest hend hderives _ =>
      obtain ⟨q, hq, hfits⟩ := hderives.exists_path
      refine ⟨tokensOfAll [t.node], s.rest, q, [], hrest, ?_, hfound, hq, hfits⟩
      rw [hposition, hend]
      simp [RunState.start]

/-- At an error, no derivation tree agrees with the input as far as the lookahead goes. -/
theorem Ready.no_tree (hp : p.Ready) (h : p.parse r w = .error e) {t : ParseTree}
    (ht : p.grammar.IsTree p.vocabulary t) (hrule : t.rule = r)
    (hnesting : t.node.nesting ≤ p.config.nestingLimit) :
    t.tokens.take (e.position + p.config.lookahead) ≠ w.take (e.position + p.config.lookahead) := by
  subst hrule
  intro hagree
  have houtcome := hp.runRule_outcome p.config.nestingLimit t.rule 0 (.start w)
  have htracks := hp.tracks_tree ht hnesting hagree.symm
  obtain ⟨err, hrun, rfl⟩ | ⟨t', s, hrun, hne, hposition, -⟩ := parse_eq_error h
  · -- the run would have seen beyond the place of its own error
    rw [hrun] at htracks
    obtain ⟨s, hs⟩ | hpast := htracks
    · cases hs
    · exact Nat.lt_irrefl _ hpast
  · rw [hrun] at htracks houtcome
    obtain ⟨s', hs⟩ | hpast := htracks
    · -- the rule consumed the tree, so the tree has a token more than it has
      obtain ⟨hnode, rfl⟩ : t'.node = t.node ∧ s = s' := by simpa [asNode, Except.map] using hs
      cases houtcome with
      | ok hrest hend _ _ =>
        have hrest : w = t'.node.tokens ++ s.rest := by simpa [RunState.start] using hrest
        have hend : s.position = t'.node.tokens.length := by simpa [RunState.start] using hend
        have hlen := congrArg List.length hagree
        have hpos := List.length_pos_iff.mpr hne
        have hlookahead := hp.lookahead_pos
        have htokens : t.tokens = t'.node.tokens := by rw [hnode]; rfl
        rw [htokens, hrest] at hlen
        simp only [List.length_take, List.length_append] at hlen
        omega
    · have hpast : e.position + p.config.lookahead < s.position + p.config.lookahead := hpast
      omega

/-- What was consumed before an error is the beginning of some sentence. -/
theorem Ready.exists_tree (hp : p.Ready) (h : p.parse r w = .error e)
    {specs : List TypeSpec} (hspecs : p.vocabulary = .ofSpecs specs)
    (hproductive : p.grammar.Productive p.vocabulary) (hr : r < p.grammar.size) :
    ∃ t, p.grammar.IsTree p.vocabulary t ∧ t.rule = r ∧
      t.tokens.take e.position = w.take e.position := by
  obtain ⟨done, rest, q, left, rfl, hposition, -, hq, hfits⟩ := hp.error_prefix h
  have hproper : ∀ x ∈ left, x.part.Proper p.vocabulary.size p.grammar.size := by
    refine hq.proper hp.proper fun x hx => ?_
    obtain rfl := List.mem_singleton.mp hx
    exact .ruleRef hr
  have haccepts : ∀ t < p.vocabulary.size, p.vocabulary.accepts t t = true := by
    rw [hspecs]
    exact Vocabulary.accepts_self specs
  obtain ⟨z, hz⟩ := hproductive.exists_derives haccepts hproper
  obtain ⟨u, hu, htokens⟩ := hq.exists_derives hfits hz
  obtain ⟨children, rfl, ht⟩ := hu.cases_ruleRef
  refine ⟨⟨r, children⟩, ht, rfl, ?_⟩
  have htokens : (⟨r, children⟩ : ParseTree).tokens = done ++ tokensOfAll z := by
    simpa [ParseTree.tokens, ParseTree.node] using htokens
  rw [htokens, hposition, List.take_left, List.take_left]

end Parser

/-- An error stands at a place of the input and shows the token there. What comes before can start
the rule, and some sentence does so if the grammar is productive. But no sentence that is nested no
deeper than allowed goes on like the input as far as the lookahead goes from there. -/
theorem Draft.parse_error_early {d : Draft} {p : Parser} (hp : d.parser = .ok p) {r : RuleId}
    {w : List Token} {e : Mismatch} (h : p.parse r w = .error e) :
    e.position ≤ w.length ∧ e.found = w[e.position]? ∧
      (∃ q left, Expands p.grammar [.node (.ruleRef r 0)] q left ∧
        p.vocabulary.Fits q ((w.take e.position).map (·.kind))) ∧
      (∀ t, p.grammar.IsTree p.vocabulary t → t.rule = r →
        t.node.nesting ≤ p.config.nestingLimit →
        t.tokens.take (e.position + p.config.lookahead) ≠
          w.take (e.position + p.config.lookahead)) ∧
      (∀ specs, p.vocabulary = .ofSpecs specs → p.grammar.Productive p.vocabulary →
        r < p.grammar.size → ∃ t, p.grammar.IsTree p.vocabulary t ∧ t.rule = r ∧
          t.tokens.take e.position = w.take e.position) := by
  have hready := parser_ready hp
  refine ⟨?_, ?_, ?_, fun t ht hrule => hready.no_tree h ht hrule,
    fun _ hspecs => hready.exists_tree h hspecs⟩
  all_goals obtain ⟨done, rest, q, left, rfl, hposition, hfound, hq, hfits⟩ := hready.error_prefix h
  · rw [hposition, List.length_append]
    omega
  · rw [hfound, hposition, List.getElem?_append_right (Nat.le_refl _), Nat.sub_self]
    exact List.head?_eq_getElem?
  · refine ⟨q, left, hq, ?_⟩
    rw [hposition, List.take_left]
    exact hfits

/-- After an item and a comma the input is over: no list begins with these two tokens and ends
there. -/
theorem itemList_productive :
    itemListParser.grammar.Productive itemListParser.vocabulary
  | 0, _ => ⟨itemListTree, itemListTree_isTree, rfl⟩
  | 1, _ => ⟨⟨1, [.token ⟨1, "a", .start⟩]⟩, ⟨_, rfl, item_derives _⟩, rfl⟩

theorem itemList_parse_error_early :
    itemListParser.parse 0 (itemListTokens.take 2) =
        .error ⟨1, some ⟨.token, 1⟩, .tokens [0], none, 2⟩ ∧
      (∀ t, itemListParser.grammar.IsTree itemListParser.vocabulary t → t.rule = 0 →
        t.node.nesting ≤ 128 → t.tokens.take 3 ≠ (itemListTokens.take 2).take 3) ∧
      ∃ t, itemListParser.grammar.IsTree itemListParser.vocabulary t ∧ t.rule = 0 ∧
        t.tokens.take 2 = (itemListTokens.take 2).take 2 := by
  have h : itemListParser.parse 0 (itemListTokens.take 2) =
      .error ⟨1, some ⟨.token, 1⟩, .tokens [0], none, 2⟩ := rfl
  obtain ⟨-, -, -, hnone, hsome⟩ := Draft.parse_error_early itemList_accepted h
  exact ⟨h, hnone, hsome _ rfl itemList_productive (by decide)⟩

end StrongLL
