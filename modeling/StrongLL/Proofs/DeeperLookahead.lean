import StrongLL.Proofs.Completeness

/-!
# StrongLL.Proofs.DeeperLookahead

What a deeper lookahead changes:

* `Grammar.Ambiguous.mono`       — a decision that is ambiguous at some depth is so at every smaller
  one.
* `Draft.withLookahead`          — the same draft with another lookahead.
* `Draft.exists_parser_withConfig` — whatever is chosen for the parser, a draft has one if it has
  one that looks no further.
* `Parser.Ready.parse_eq_ok_iff` — what a parser accepts, told without its lookahead.
* `Draft.parser_withLookahead`   — so both parsers accept the same token lists with the same trees.
-/

namespace StrongLL

open TreeNode

namespace Grammar

variable {g : Grammar} {v : Vocabulary} {j k : Nat}

/-- A clash of two ways is one of the paths they have at a smaller depth, too. -/
theorem Clash.mono (hjk : j ≤ k) {r : RuleId} {xs ys : List Pending}
    (h : g.Clash v k r xs ys) : g.Clash v j r xs ys := by
  obtain ⟨p, q, ⟨outer, houter, hp⟩, ⟨outer', houter', hq⟩, hmeets⟩ := h
  exact ⟨p.take j, q.take j, ⟨outer, houter, hp.take hjk⟩, ⟨outer', houter', hq.take hjk⟩,
    List.forall₂_take j hmeets⟩

theorem Ambiguous.mono (hjk : j ≤ k) {x : DecisionKey × Fork} (h : g.Ambiguous v k x) :
    g.Ambiguous v j x := by
  obtain ⟨first, second, hsub, hclash⟩ := h
  exact ⟨first, second, hsub, hclash.mono hjk⟩

/-- A grammar with a table has one at every greater depth. -/
theorem IsTable.exists_deeper {types : Nat} (hg : g.Proper types) {table : PredictionTable}
    (h : g.IsTable v j table) (hjk : j ≤ k) : ∃ table, g.table v k = .ok table := by
  have hspec := table_spec (v := v) (k := k) hg
  cases htable : g.table v k with
  | ok table => exact ⟨table, rfl⟩
  | error fault =>
    rw [htable] at hspec
    cases fault with
    | leftRecursive l => exact absurd hspec.leftRecursive h.grounded
    | malformed defects => exact absurd h.progressive hspec.2
    | ambiguous a =>
      obtain ⟨x, hx, hambiguous⟩ := IsFirstAmbiguity.exists_ambiguous hspec
      exact absurd (hambiguous.mono hjk) (h.clear x hx)

end Grammar

namespace Draft

variable {d : Draft} {p : Parser} {k : Nat}

def withLookahead (d : Draft) (k : Nat) : Draft :=
  { d with config := { d.config with lookahead := k } }

/-- The choices for a parser have no part in the grammar, unless it does not look ahead at all. -/
theorem grammar_withConfig {g : Grammar} (hg : d.grammar = .ok g) {c : Config}
    (hc : 0 < c.lookahead) : { d with config := c }.grammar = .ok g := by
  have hpos := lookahead_pos hg
  have hdefects : { d with config := c }.defects = d.defects := by
    unfold defects
    rw [if_neg (Nat.ne_of_gt hpos), if_neg (Nat.ne_of_gt hc)]
    rfl
  obtain ⟨hnone, rfl⟩ := grammar_eq_ok hg
  unfold grammar
  rw [hdefects, hnone]
  rfl

/-- A draft with a parser has one for all choices that let it look as far. -/
theorem exists_parser_withConfig (hp : d.parser = .ok p) {c : Config}
    (hc : d.config.lookahead ≤ c.lookahead) :
    ∃ table, { d with config := c }.parser = .ok ⟨p.vocabulary, p.grammar, table, c⟩ := by
  obtain ⟨hg, hv, hconfig, htable⟩ := parser_eq_ok hp
  have hproper := (parser_ready hp).proper
  have hpos := lookahead_pos hg
  rw [hconfig] at htable
  obtain ⟨table, hdeeper⟩ := htable.exists_deeper hproper hc
  refine ⟨table, ?_⟩
  rw [parser_of_grammar (grammar_withConfig hg (Nat.lt_of_lt_of_le hpos hc))]
  rw [hv] at hdeeper
  show (p.grammar.table d.vocabulary c.lookahead).map _ = _
  rw [hdeeper, hv]
  rfl

theorem exists_parser_of_le (hp : d.parser = .ok p) (hk : d.config.lookahead ≤ k) :
    ∃ table, (d.withLookahead k).parser =
      .ok ⟨p.vocabulary, p.grammar, table, { p.config with lookahead := k }⟩ := by
  rw [(parser_eq_ok hp).2.2.1]
  exact exists_parser_withConfig hp (c := { d.config with lookahead := k }) hk

end Draft

/-- A parser of whole inputs accepts the derivation trees that are nested no deeper than allowed,
and nothing else. -/
theorem Parser.Ready.parse_eq_ok_iff {p : Parser} (hp : p.Ready)
    (hwhole : p.config.wholeInput = true) {r : RuleId} {w : List Token} {t : ParseTree} :
    p.parse r w = .ok t ↔ (t.rule = r ∧ t.tokens = w) ∧ p.grammar.IsTree p.vocabulary t ∧
      t.node.nesting ≤ p.config.nestingLimit := by
  constructor
  · intro h
    obtain ⟨s, hrun, hleft⟩ := parse_eq_ok h
    have hrule := runRule_rule hrun
    have houtcome := hp.runRule_outcome p.config.nestingLimit r 0 (.start w)
    rw [hrun] at houtcome
    cases houtcome with
    | ok hrest _ hderives hnesting =>
      obtain ⟨children, hnode, htree⟩ := hderives.cases_ruleRef
      obtain ⟨rule, children'⟩ := t
      obtain rfl : rule = r := hrule
      obtain rfl : children' = children := by simpa [ParseTree.node] using hnode
      rw [hleft hwhole, List.append_nil] at hrest
      exact ⟨⟨rfl, by simpa [RunState.start, ParseTree.tokens] using hrest.symm⟩, htree,
        by simpa using hnesting⟩
  · intro h
    obtain ⟨⟨rfl, rfl⟩, htree, hnesting⟩ := h
    exact hp.parse_tree htree hnesting

/-- A draft that has a parser has one with every deeper lookahead. If the whole input has to be
consumed, both parsers give the same tree for a token list, or both fail on it. -/
theorem Draft.parser_withLookahead {d : Draft} {p : Parser} (hp : d.parser = .ok p) {k : Nat}
    (hk : d.config.lookahead ≤ k) :
    ∃ p', (d.withLookahead k).parser = .ok p' ∧ (d.config.wholeInput = true → ∀ r w,
      (∃ t, p.parse r w = .ok t ∧ p'.parse r w = .ok t) ∨
        ∃ e e', p.parse r w = .error e ∧ p'.parse r w = .error e') := by
  obtain ⟨table, hp'⟩ := exists_parser_of_le hp hk
  let p' : Parser := ⟨p.vocabulary, p.grammar, table, { p.config with lookahead := k }⟩
  refine ⟨p', hp', ?_⟩
  intro hwhole r w
  have hwhole : p.config.wholeInput = true := by rw [(parser_eq_ok hp).2.2.1, hwhole]
  -- neither the rule nor the trees of the grammar nor the nesting limit is another one
  have hsame := fun t => (parser_ready hp).parse_eq_ok_iff hwhole (r := r) (w := w) (t := t)
  have hsame' := fun t => (parser_ready hp').parse_eq_ok_iff hwhole (r := r) (w := w) (t := t)
  cases h : p.parse r w with
  | ok t => exact .inl ⟨t, rfl, (hsame' t).mpr ((hsame t).mp h)⟩
  | error e =>
    cases h' : p'.parse r w with
    | ok t =>
      rw [(hsame t).mpr ((hsame' t).mp h')] at h
      cases h
    | error e' => exact .inr ⟨e, e', rfl, rfl⟩

theorem itemList_withLookahead :
    ∃ p', (itemList.withLookahead 3).parser = .ok p' ∧
      p'.parse 0 itemListTokens = .ok itemListTree ∧
      ∃ e, p'.parse 0 (itemListTokens.take 2) = .error e := by
  have h : itemListParser.parse 0 itemListTokens = .ok itemListTree := rfl
  have h' : itemListParser.parse 0 (itemListTokens.take 2) =
      .error ⟨1, some ⟨.token, 1⟩, .tokens [0], none, 2⟩ := rfl
  obtain ⟨p', hp', hagree⟩ := Draft.parser_withLookahead itemList_accepted (k := 3) (by decide)
  refine ⟨p', hp', ?_, ?_⟩
  · obtain ⟨t, ht, ht'⟩ | ⟨e, -, he, -⟩ := hagree rfl 0 itemListTokens
    · cases h.symm.trans ht
      exact ht'
    · cases h.symm.trans he
  · obtain ⟨t, ht, -⟩ | ⟨-, e', -, he'⟩ := hagree rfl 0 (itemListTokens.take 2)
    · cases h'.symm.trans ht
    · exact ⟨e', he'⟩

end StrongLL
