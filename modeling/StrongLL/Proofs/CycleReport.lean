import StrongLL.Proofs.Acceptance

/-!
# StrongLL.Proofs.CycleReport

Left recursion is reported exactly where it is:

* `FirstCache.Left`               — the stores that calls on one store can leave behind, be it that
  they succeed or fail.
* `FirstCache.Left.sound`         — all of them are sound.
* `Grammar.ensures_decisions_bounded` — decisions look no further ahead than they are asked to.
* `Grammar.exists_ok_of_ensures`  — in a grammar without left recursion no call fails.
* `Grammar.not_leftRecursive_of_firsts` — first sets of depth 1 for all rules rule it out.
* `Draft.parser_leftRecursive`    — a draft is refused for left recursion exactly if it has some,
  with a true cycle; and once all rules have first sets of depth 1, no call on the store fails.
-/

namespace StrongLL

namespace FirstCache

/-- What a sequence of calls leaves, all of them on one store that was empty at first. -/
inductive Left (g : Grammar) : FirstCache → Prop where
  | empty : Left g .empty
  | first {c : FirstCache} (k : Nat) (pending : List Pending) :
      Left g c → Left g ((g.first k pending).exec c).2
  | followSets {c : FirstCache} (k : Nat) : Left g c → Left g ((g.followSets k).exec c).2
  | decisions {c : FirstCache} (k : Nat) (follow : FollowSets) :
      Left g c → Left g ((g.decisions k follow).exec c).2

end FirstCache

theorem PathSet.length_le_of_mem_append {k : Nat} {s t : PathSet} (hs : ∀ p ∈ s, p.length ≤ k) :
    ∀ q ∈ append k s t, q.length ≤ k := by
  intro q hq
  obtain ⟨p, hp, ⟨-, rfl⟩ | ⟨-, u, -, rfl⟩⟩ := mem_append.mp hq
  · exact hs q hp
  · have := hs p hp
    have := List.length_take_le (k - p.length) u
    rw [List.length_append]
    omega

namespace Grammar

variable {g : Grammar} {k : Nat}

theorem ensures_branch_bounded (follow : PathSet) (way : BranchLabel × List Pending) :
    (storeContract g).Ensures (g.branch k follow way.1 way.2) (·.Bounded k) := by
  refine (storeContract g).bind (ensures_first way.2) fun s hs => (storeContract g).pure ?_
  exact PathSet.length_le_of_mem_append fun p hp => ((hs p).mp hp).length_le

/-- Whatever the follow sets are, the decisions are made of sets of the store. -/
theorem ensures_decision_bounded (follow : PathSet) (x : DecisionKey × Fork) :
    (storeContract g).Ensures (g.decision k follow x.1 x.2) (·.Bounded k) := by
  refine (storeContract g).bind ((storeContract g).mapM (R := fun _ b => b.Bounded k)
    fun way _ => ensures_branch_bounded follow way) fun branches hbranches => ?_
  have hbranches : ∀ b ∈ branches, b.Bounded k := fun b hb =>
    (exists_mem_left hbranches.flip b hb).choose_spec.2
  cases x.2.exit with
  | none => exact (storeContract g).pure (by simpa [Decision.Bounded, Decision.all] using hbranches)
  | some way =>
    have hexit : (storeContract g).Ensures
        ((some way).mapM fun (way : BranchLabel × List Pending) => g.branch k follow way.1 way.2)
        fun exit => ∀ b ∈ exit.toList, b.Bounded k :=
      (storeContract g).bind (ensures_branch_bounded follow way) fun b hb =>
        (storeContract g).pure (by simpa using hb)
    refine (storeContract g).bind hexit fun exit hexit => (storeContract g).pure fun b hb => ?_
    exact (List.mem_append.mp hb).elim (hbranches b) (hexit b)

theorem ensures_decisions_bounded (follow : FollowSets) :
    (storeContract g).Ensures (g.decisions k follow) fun ds => ∀ d ∈ ds, d.Bounded k :=
  (storeContract g).mono
    ((storeContract g).mapM (R := fun _ d => d.Bounded k) fun x _ => ensures_decision_bounded _ x)
    fun _ hds d hd => (exists_mem_left hds.flip d hd).choose_spec.2

theorem ensures_followSets_any :
    (storeContract g).Ensures (g.followSets k) fun _ => True :=
  (storeContract g).bind ensures_callSites fun _ _ => (storeContract g).pure trivial

end Grammar

theorem FirstCache.Left.sound {g : Grammar} {c : FirstCache} (h : Left g c) : c.Sound g := by
  induction h with
  | empty => exact sound_empty
  | first k pending _ ih => exact (Grammar.ensures_first pending _ ih).1
  | followSets k _ ih => exact (Grammar.ensures_followSets_any _ ih).1
  | decisions k follow _ ih => exact (Grammar.ensures_decisions_bounded follow _ ih).1

namespace Grammar

variable {g : Grammar}

/-- A report of left recursion is true, so without left recursion there is none. -/
theorem exists_ok_of_ensures {α : Type} {x : FirstM α} {post : α → Prop}
    (h : (storeContract g).Ensures x post) (hrec : ¬ g.LeftRecursive) {c : FirstCache}
    (hc : c.Sound g) : ∃ a, (x.exec c).1 = .ok a := by
  have hresult := (h c hc).2
  cases hx : (x.exec c).1 with
  | ok a => exact ⟨a, rfl⟩
  | error l =>
    rw [hx] at hresult
    exact absurd hresult.leftRecursive hrec

/-- The first set of a rule succeeds only if no chain of leading invocations from the rule goes on
forever. -/
theorem grounded_of_first {r : RuleId} {c : FirstCache} (hc : c.Sound g) {s : PathSet}
    (h : ((g.firstOfRule 1 r).exec c).1 = .ok s) : g.Grounded r := by
  have hresult := (ensures_firstOfRule Nat.one_pos r c hc).2
  rw [h] at hresult
  exact hresult

theorem not_leftRecursive_of_firsts
    (h : ∀ r < g.size, ∃ c, FirstCache.Left g c ∧
      ∃ s, ((g.firstOfRule 1 r).exec c).1 = .ok s) : ¬ g.LeftRecursive := by
  intro hrec
  obtain ⟨r, hr⟩ := hrec
  obtain ⟨b, hb, -⟩ := Relation.TransGen.head'_iff.mp hr
  obtain ⟨c, hc, s, hs⟩ := h r hb.lt
  exact (grounded_of_first hc.sound hs).not_cycle hr

end Grammar

namespace Draft

variable {d : Draft} {g : Grammar}

/-- Left recursion is the first thing that is looked for. -/
theorem parser_eq_error_of_leftRecursive (hg : d.grammar = .ok g) (hrec : g.LeftRecursive) :
    ∃ l, d.parser = .error (.leftRecursive l) := by
  have hspec := Grammar.surveyed_spec (k := d.config.lookahead) (grammar_proper hg)
  rw [parser_of_grammar hg]
  unfold Grammar.table
  cases hsurveyed : g.surveyed d.config.lookahead with
  | ok ds =>
    rw [hsurveyed] at hspec
    exact absurd hrec hspec.1
  | error fault =>
    rw [hsurveyed] at hspec
    cases fault with
    | leftRecursive l => exact ⟨l, rfl⟩
    | malformed defects => exact absurd hrec hspec.1
    | ambiguous a => exact hspec.elim

theorem isLeftCycle_of_parser_eq (hg : d.grammar = .ok g) {l : LeftRecursion}
    (h : d.parser = .error (.leftRecursive l)) : g.IsLeftCycle l := by
  have hspec := Grammar.table_spec (v := d.vocabulary) (k := d.config.lookahead) (grammar_proper hg)
  rw [parser_of_grammar hg] at h
  cases htable : g.table d.vocabulary d.config.lookahead with
  | ok table =>
    rw [htable] at h
    cases h
  | error fault =>
    rw [htable] at h hspec
    cases h
    exact hspec

/-- A grammar is refused for left recursion exactly if some rule leads back to itself, and the
cycle that is named is one of distinct rules, each of which leads to the next. Where all rules have
first sets of depth 1, no call on the same store fails, at whatever depth and whatever was called
before. -/
theorem parser_leftRecursive (hg : d.grammar = .ok g) :
    ((∃ l, d.parser = .error (.leftRecursive l)) ↔ g.LeftRecursive) ∧
    (∀ l, d.parser = .error (.leftRecursive l) → g.IsLeftCycle l) ∧
    ((∀ r < g.size, ∃ c, FirstCache.Left g c ∧ ∃ s, ((g.firstOfRule 1 r).exec c).1 = .ok s) →
      ∀ c, FirstCache.Left g c →
        (∀ k pending, ∃ s, ((g.first k pending).exec c).1 = .ok s) ∧
        (∀ k, ∃ follow, ((g.followSets k).exec c).1 = .ok follow) ∧
        ∀ k follow, ∃ ds, ((g.decisions k follow).exec c).1 = .ok ds) := by
  refine ⟨⟨?_, parser_eq_error_of_leftRecursive hg⟩, fun l => isLeftCycle_of_parser_eq hg, ?_⟩
  · intro h
    obtain ⟨l, hl⟩ := h
    exact (isLeftCycle_of_parser_eq hg hl).leftRecursive
  · intro hfirsts c hc
    have hrec := Grammar.not_leftRecursive_of_firsts hfirsts
    exact ⟨fun _ pending =>
        Grammar.exists_ok_of_ensures (Grammar.ensures_first pending) hrec hc.sound,
      fun _ => Grammar.exists_ok_of_ensures Grammar.ensures_followSets_any hrec hc.sound,
      fun _ follow =>
        Grammar.exists_ok_of_ensures (Grammar.ensures_decisions_bounded follow) hrec hc.sound⟩

/-- A sum may begin with a product, and a product begins with a sum. -/
def sumAndProduct : Draft :=
  { itemList with
    rules := [⟨"sum", some [.optional [.token 0], .call 1 1]⟩,
      ⟨"product", some [.call 1 0, .token 2]⟩] }

def sumAndProductGrammar : Grammar :=
  ⟨[⟨"sum", .sequence [.optional (.terminal 0 1) 1, .ruleRef 1 1]⟩,
    ⟨"product", .sequence [.ruleRef 0 1, .terminal 2 1]⟩]⟩

theorem sumAndProduct_leftRecursive : sumAndProductGrammar.LeftRecursive := by
  have hoptional : sumAndProductGrammar.Erasable [.node (.optional (.terminal 0 1) 1)] :=
    .skip .refl
  have hsum : sumAndProductGrammar.LeftCalls 0 1 :=
    ⟨_, rfl, .sequence_tail hoptional (.sequence_head .ruleRef)⟩
  have hproduct : sumAndProductGrammar.LeftCalls 1 0 := ⟨_, rfl, .sequence_head .ruleRef⟩
  exact ⟨0, .head hsum (.single hproduct)⟩

theorem sumAndProduct_refused :
    (∃ l, sumAndProduct.parser = .error (.leftRecursive l) ∧ sumAndProductGrammar.IsLeftCycle l) ∧
    ∀ c, FirstCache.Left itemListParser.grammar c → ∀ k pending,
      ∃ s, ((itemListParser.grammar.first k pending).exec c).1 = .ok s := by
  have hg : sumAndProduct.grammar = .ok sumAndProductGrammar := rfl
  have hg' : itemList.grammar = .ok itemListParser.grammar := rfl
  have hfirsts : ∀ r < itemListParser.grammar.size, ∃ c, FirstCache.Left itemListParser.grammar c ∧
      ∃ s, ((itemListParser.grammar.firstOfRule 1 r).exec c).1 = .ok s := by
    have hsome : ∀ r < itemListParser.grammar.size,
        ((itemListParser.grammar.firstOfRule 1 r).exec .empty).1.toOption = some [[0]] := by
      decide +kernel
    intro r hr
    have hr := hsome r hr
    cases h : ((itemListParser.grammar.firstOfRule 1 r).exec .empty).1 with
    | ok s => exact ⟨.empty, .empty, s, h⟩
    | error l =>
      rw [h] at hr
      cases hr
  obtain ⟨l, hl⟩ := (parser_leftRecursive hg).1.mpr sumAndProduct_leftRecursive
  exact ⟨⟨l, hl, (parser_leftRecursive hg).2.1 l hl⟩,
    fun c hc => ((parser_leftRecursive hg').2.2 hfirsts c hc).1⟩

end Draft

end StrongLL
