import StrongLL.Proofs.EarlyErrors
import StrongLL.Proofs.RuleOrder
import StrongLL.Proofs.WellFormed

/-!
# StrongLL.Proofs.EmptyIterations

Repetitions that may go on without a token are reported where they are:

* `Grammar.DerivesEmpty`   — a node has a reading without tokens.
* `Grammar.stalls`         — a defect for every repetition whose body has one, in the order of rules
  and within a rule each before those nested in it.
* `Grammar.ensures_survey_malformed` — a survey that ends with defects has found just these.
* `Draft.parser_emptyRepetitions` — a grammar without left recursion is refused for them and for
  nothing else at this point, and no ambiguity is reported before them.
-/

namespace StrongLL

open TreeNode

namespace Grammar

variable {g : Grammar} {v : Vocabulary} {k : Nat}

/-- The node has a reading that has no tokens. -/
def DerivesEmpty (g : Grammar) (v : Vocabulary) (n : Node) : Prop :=
  ∃ w, Derives g v [.node n] w ∧ tokensOfAll w = []

/-- No token is read, so the vocabulary does not matter. -/
theorem erasable_iff_derivesEmpty {n : Node} : g.Erasable [.node n] ↔ g.DerivesEmpty v n := by
  constructor
  · intro h
    have hfits : v.Fits [] (([] : List Token).map (·.kind)) := .nil
    obtain ⟨w, hw, htokens⟩ := Expands.exists_derives h hfits .nil
    exact ⟨w, hw, htokens⟩
  · rintro ⟨w, hw, htokens⟩
    exact hw.erasable htokens

open Classical in
/-- The defect of a node of a rule, if it repeats a body that has a reading without tokens. -/
noncomputable def stall? (g : Grammar) (v : Vocabulary) (r : RuleId) : Node → Option Defect
  | .repetition body i atLeastOne =>
    if g.DerivesEmpty v body then
      some (.emptyRepetition r ⟨.ofRepetition atLeastOne, i⟩ body)
    else none
  | _ => none

noncomputable def stalls (g : Grammar) (v : Vocabulary) : List Defect :=
  g.rules.zipIdx.flatMap fun (rule, r) => rule.body.preorder.filterMap (g.stall? v r)

theorem mem_stalls {x : Defect} : x ∈ g.stalls v ↔ ∃ r body i atLeastOne,
    g.HasNode r (.repetition body i atLeastOne) ∧ g.DerivesEmpty v body ∧
      x = .emptyRepetition r ⟨.ofRepetition atLeastOne, i⟩ body := by
  simp only [stalls, List.mem_flatMap, List.mem_filterMap, List.mem_zipIdx_iff_getElem?]
  constructor
  · rintro ⟨⟨rule, r⟩, hr, n, hn, hstall⟩
    unfold stall? at hstall
    split at hstall
    · rename_i body i atLeastOne
      split at hstall
      · rename_i hempty
        exact ⟨r, body, i, atLeastOne, ⟨rule, hr, hn⟩, hempty, (Option.some.inj hstall).symm⟩
      · cases hstall
    · cases hstall
  · rintro ⟨r, body, i, atLeastOne, ⟨rule, hr, hn⟩, hempty, rfl⟩
    exact ⟨(rule, r), hr, _, hn, if_pos hempty⟩

open Classical in
/-- The defects are those of the repetitions that the grammar has, taken in their order. -/
theorem stalls_eq : g.stalls v =
    (g.repetitions.filter fun x => g.Erasable [.node x.2.2]).map fun x =>
      .emptyRepetition x.1 x.2.1 x.2.2 := by
  unfold stalls repetitions
  rw [List.filter_flatMap, List.map_flatMap]
  congr 1
  funext ⟨rule, r⟩
  dsimp only
  rw [List.filter_filterMap, List.map_filterMap]
  congr 1
  funext n
  cases n with
  | repetition body i atLeastOne =>
    by_cases h : g.Erasable [.node body]
    · simp [stall?, h, erasable_iff_derivesEmpty.mp h]
    · have hempty : ¬ g.DerivesEmpty v body := fun h' => h (erasable_iff_derivesEmpty.mpr h')
      simp [stall?, h, hempty]
  | _ => rfl

theorem not_progressive_iff : ¬ g.Progressive ↔ ∃ r body i atLeastOne,
    g.HasNode r (.repetition body i atLeastOne) ∧ g.DerivesEmpty v body := by
  have hstalls : g.Progressive ↔ g.stalls v = [] := by
    simp [Progressive, stalls_eq]
  rw [hstalls]
  constructor
  · intro h
    obtain ⟨x, hx⟩ := List.exists_mem_of_ne_nil _ h
    obtain ⟨r, body, i, atLeastOne, hn, hempty, -⟩ := mem_stalls.mp hx
    exact ⟨r, body, i, atLeastOne, hn, hempty⟩
  · rintro ⟨r, body, i, atLeastOne, hn, hempty⟩
    exact List.ne_nil_of_mem (mem_stalls.mpr ⟨r, body, i, atLeastOne, hn, hempty, rfl⟩)

theorem ensures_survey_malformed :
    (storeContract g).Ensures (g.survey k) fun found =>
      ∀ defects, found = .error defects → defects = g.stalls v := by
  refine (storeContract g).bind ensures_checkLeftRecursion fun _ _ => ?_
  refine (storeContract g).bind ensures_emptyRepetitions_eq fun defects hdefects => ?_
  by_cases h : defects.isEmpty = true
  · simp only [h, if_true]
    refine (storeContract g).bind ensures_followSets_any fun follow _ => ?_
    refine (storeContract g).bind (ensures_decisions_bounded follow) fun ds _ => ?_
    exact (storeContract g).pure fun _ heq => by cases heq
  · simp only [h]
    exact (storeContract g).pure fun _ heq => Except.error.inj heq ▸ hdefects.trans stalls_eq.symm

end Grammar

namespace Draft

variable {d : Draft} {g : Grammar}

theorem eq_stalls_of_parser_eq (hg : d.grammar = .ok g) {defects : List Defect}
    (h : d.parser = .error (.malformed defects)) : defects = g.stalls d.vocabulary := by
  have hresult := FirstM.Ensures.result
    (Grammar.ensures_survey_malformed (v := d.vocabulary) (k := d.config.lookahead) (g := g))
  rw [parser_of_grammar hg, Grammar.table, Grammar.surveyed] at h
  cases hsurvey : (g.survey d.config.lookahead).result with
  | error l =>
    rw [hsurvey] at h
    cases h
  | ok found =>
    rw [hsurvey] at h hresult
    cases found with
    | error found =>
      cases h
      exact hresult defects rfl
    | ok ds =>
      cases htable : tableOf d.vocabulary d.config.lookahead ds with
      | error a => simp [bind, Except.bind, htable, Except.mapError, Except.map] at h
      | ok table => simp [bind, Except.bind, htable, Except.mapError, Except.map] at h

/-- A grammar without left recursion is refused as malformed exactly if some repetition, wherever
it stands, has a body with a reading without tokens. All such repetitions are named, each once, in
the order of rules and within a rule each before those in its body. -/
theorem parser_emptyRepetitions (hg : d.grammar = .ok g) (hrec : ¬ g.LeftRecursive) :
    ((∃ defects, d.parser = .error (.malformed defects)) ↔
      ∃ r body i atLeastOne, g.HasNode r (.repetition body i atLeastOne) ∧
        g.DerivesEmpty d.vocabulary body) ∧
    ∀ defects, d.parser = .error (.malformed defects) → defects = g.stalls d.vocabulary := by
  refine ⟨?_, fun _ => eq_stalls_of_parser_eq hg⟩
  have hverdict := parser_verdict hg
  rw [← Grammar.not_progressive_iff]
  cases hparser : d.parser with
  | ok p =>
    rw [hparser] at hverdict
    exact ⟨by simp, fun h => absurd hverdict.2.1 h⟩
  | error fault =>
    rw [hparser] at hverdict
    cases fault with
    | malformed defects => exact ⟨fun _ => hverdict.2, fun _ => ⟨defects, rfl⟩⟩
    | ambiguous a => exact ⟨by simp, fun h => absurd hverdict.2.1 h⟩
    | leftRecursive l => exact absurd hverdict hrec

/-- Gaps, which can be empty, and rows of rows of items, which can be empty too. -/
def itemGaps : Draft :=
  { itemList with
    rules := [⟨"gap", some [.optional [.token 2]]⟩,
      ⟨"gaps", some [.atLeastOne [.call 1 0], .many [.many [.token 0]]]⟩] }

def itemGapsGrammar : Grammar :=
  ⟨[⟨"gap", .optional (.terminal 2 1) 1⟩,
    ⟨"gaps", .sequence [.repetition (.ruleRef 0 1) 1 true,
      .repetition (.repetition (.terminal 0 1) 2 false) 1 false]⟩]⟩

theorem itemGaps_not_leftRecursive : ¬ itemGapsGrammar.LeftRecursive := by
  refine Grammar.not_leftRecursive_of_firsts fun r hr => ?_
  have hr : r = 0 ∨ r = 1 := by
    have hr : r < 2 := hr
    omega
  rcases hr with rfl | rfl
  · exact ⟨.empty, .empty, [[2], []], eq_ok_of_toOption (by decide +kernel)⟩
  · exact ⟨.empty, .empty, [[2], [], [0]], eq_ok_of_toOption (by decide +kernel)⟩

theorem itemGaps_stall : ∃ defects, itemGaps.parser = .error (.malformed defects) ∧
    .emptyRepetition 1 ⟨.atLeastOne, 1⟩ (.ruleRef 0 1) ∈ defects ∧
    .emptyRepetition 1 ⟨.many, 1⟩ (.repetition (.terminal 0 1) 2 false) ∈ defects := by
  have hg : itemGaps.grammar = .ok itemGapsGrammar := rfl
  have hgap : itemGapsGrammar.DerivesEmpty itemGaps.vocabulary (.ruleRef 0 1) :=
    ⟨[.tree 0 []], .ruleRef rfl (.skip .nil) .nil, rfl⟩
  have hrow : itemGapsGrammar.DerivesEmpty itemGaps.vocabulary
      (.repetition (.terminal 0 1) 2 false) := ⟨[], .many (.stop .nil), rfl⟩
  have hgaps : itemGapsGrammar.HasNode 1 (.repetition (.ruleRef 0 1) 1 true) :=
    ⟨_, rfl, by simp [Node.preorder, Node.preorderAll]⟩
  have hrows : itemGapsGrammar.HasNode 1
      (.repetition (.repetition (.terminal 0 1) 2 false) 1 false) :=
    ⟨_, rfl, by simp [Node.preorder, Node.preorderAll]⟩
  obtain ⟨hiff, hdefects⟩ := parser_emptyRepetitions hg itemGaps_not_leftRecursive
  obtain ⟨defects, hparser⟩ := hiff.mpr ⟨1, _, _, _, hgaps, hgap⟩
  rw [hdefects defects hparser] at hparser
  exact ⟨_, hparser, Grammar.mem_stalls.mpr ⟨1, _, _, _, hgaps, hgap, rfl⟩,
    Grammar.mem_stalls.mpr ⟨1, _, _, _, hrows, hrow, rfl⟩⟩

end Draft

end StrongLL
