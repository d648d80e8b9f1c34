import StrongLL.Proofs.FirstTypes
import StrongLL.Proofs.RenamedRuns

/-!
# StrongLL.Proofs.RuleOrder

The order in which rules are declared does not matter:

* `Step.rename`           — a body with every rule `r` replaced by `σ r`.
* `Step.node_rename`      — its node and its defects are those of the body, renamed.
* `Draft.Reordered σ d d'` — the same rules at other places.
* `Reordered.grammar`     — both drafts are defective, or their grammars are the same up to numbers.
* `Draft.parser_verdict`  — what the analysis finds depends on what the grammar can do.
* `Reordered.renames`     — two parsers choose alike.
* `Draft.parser_reordered` — the analysis ends alike, and so do all parses.
-/

namespace StrongLL

/-! ## Renamed bodies -/

namespace Step

mutual

def rename (σ : RuleId → RuleId) : Step → Step
  | token t => token t
  | call i r => call i (σ r)
  | optional body => optional (renameBody σ body)
  | many body => many (renameBody σ body)
  | atLeastOne body => atLeastOne (renameBody σ body)
  | choice description alternatives => choice description (renameBodies σ alternatives)

def renameBody (σ : RuleId → RuleId) : List Step → List Step
  | [] => []
  | step :: rest => step.rename σ :: renameBody σ rest

def renameBodies (σ : RuleId → RuleId) : List (List Step) → List (List Step)
  | [] => []
  | body :: rest => renameBody σ body :: renameBodies σ rest

end

end Step

def Defect.rename (σ : RuleId → RuleId) : Defect → Defect
  | undefinedRule r => undefinedRule (σ r)
  | duplicateRule r => duplicateRule (σ r)
  | undeclaredRule r => undeclaredRule (σ r)
  | unknownRule caller => unknownRule (σ caller)
  | unknownType r => unknownType (σ r)
  | undeclaredCategory t => undeclaredCategory t
  | duplicateOccurrence caller target i => duplicateOccurrence (σ caller) (σ target) i
  | emptyAlternation r decision => emptyAlternation (σ r) decision
  | emptyRepetition r decision body => emptyRepetition (σ r) decision (body.rename σ)
  | invalidLookahead => invalidLookahead

/-- The second scope is that of the rule that replaces the first, among as many rules. -/
structure RuleScope.Renames (σ : Equiv.Perm RuleId) (c c' : RuleScope) : Prop where
  vocabulary : c'.vocabulary = c.vocabulary
  rule : c'.rule = σ c.rule
  ruleCount (r : RuleId) : c'.ruleCount ≤ σ r ↔ c.ruleCount ≤ r

theorem Node.ofParts_renameAll (σ : RuleId → RuleId) (ns : List Node) :
    ofParts (renameAll σ ns) = (ofParts ns).rename σ := by
  match ns with
  | [] => rfl
  | [n] => rfl
  | n :: m :: rest => rfl

theorem Node.isEmpty_renameAll (σ : RuleId → RuleId) (ns : List Node) :
    (renameAll σ ns).isEmpty = ns.isEmpty := by
  cases ns <;> rfl

namespace Numbering

def rename (σ : RuleId → RuleId) (s : Numbering) : Numbering :=
  { s with
    calls := s.calls.map fun (r, i) => (σ r, i)
    defects := s.defects.map (·.rename σ) }

variable {σ : Equiv.Perm RuleId} {c c' : RuleScope}

theorem report_rename (s : Numbering) (d : Defect) :
    (s.rename σ).report (d.rename σ) = (s.report d).rename σ := by
  simp [report, rename]

theorem draw_rename (d : Construct) (s : Numbering) :
    (s.rename σ).draw d = ((s.draw d).1, (s.draw d).2.rename σ) := rfl

theorem token_rename (h : c.Renames σ c') (t : TypeId) (s : Numbering) :
    (s.rename σ).token c' t = ((s.token c t).1.rename σ, (s.token c t).2.rename σ) := by
  unfold token
  rw [h.vocabulary, h.rule]
  by_cases ht : t < c.vocabulary.size
  · simp only [if_pos ht]
    rfl
  · simp only [if_neg ht]
    rw [← Defect.rename, report_rename]
    rfl

theorem call_rename (h : c.Renames σ c') (i : Nat) (r : RuleId) (s : Numbering) :
    (s.rename σ).call c' i (σ r) = ((s.call c i r).1.rename σ, (s.call c i r).2.rename σ) := by
  have hmem : (σ r, i) ∈ (s.rename σ).calls ↔ (r, i) ∈ s.calls := by
    simp [rename]
  unfold call
  simp only [h.rule, h.ruleCount, hmem]
  split
  · rw [← Defect.rename, report_rename]
    rfl
  · split
    · rw [← Defect.rename, report_rename]
      rfl
    · rfl

end Numbering

namespace Step

variable {σ : Equiv.Perm RuleId} {c c' : RuleScope}

mutual

theorem node_rename (h : c.Renames σ c') : ∀ (step : Step) (s : Numbering),
    (step.rename σ).node c' (s.rename σ) =
      ((step.node c s).1.rename σ, (step.node c s).2.rename σ)
  | token t, s => Numbering.token_rename h t s
  | call i r, s => Numbering.call_rename h i r s
  | optional body, s => by
    simp only [rename, node, Numbering.draw_rename, nodes_rename h body, Node.ofParts_renameAll,
      Node.rename]
  | many body, s => by
    simp only [rename, node, Numbering.draw_rename, nodes_rename h body, Node.ofParts_renameAll,
      Node.rename]
  | atLeastOne body, s => by
    simp only [rename, node, Numbering.draw_rename, nodes_rename h body, Node.ofParts_renameAll,
      Node.rename]
  | choice description alternatives, s => by
    simp only [rename, node, Numbering.draw_rename, bodyNodes_rename h alternatives, Node.rename,
      h.rule, Node.isEmpty_renameAll]
    split
    · rw [← Numbering.report_rename]
      rfl
    · rfl

theorem nodes_rename (h : c.Renames σ c') : ∀ (body : List Step) (s : Numbering),
    nodes c' (renameBody σ body) (s.rename σ) =
      (Node.renameAll σ (nodes c body s).1, (nodes c body s).2.rename σ)
  | [], s => rfl
  | step :: rest, s => by
    simp only [renameBody, nodes, node_rename h step s, nodes_rename h rest, Node.renameAll]

theorem bodyNodes_rename (h : c.Renames σ c') : ∀ (bodies : List (List Step)) (s : Numbering),
    bodyNodes c' (renameBodies σ bodies) (s.rename σ) =
      (Node.renameAll σ (bodyNodes c bodies s).1, (bodyNodes c bodies s).2.rename σ)
  | [], s => rfl
  | body :: rest, s => by
    simp only [renameBodies, bodyNodes, nodes_rename h body s, bodyNodes_rename h rest,
      Node.renameAll, Node.ofParts_renameAll]

end

end Step

theorem Step.ruleNode_rename {σ : Equiv.Perm RuleId} {c c' : RuleScope} (h : c.Renames σ c')
    (body : List Step) :
    ruleNode c' (renameBody σ body) =
      ((ruleNode c body).1.rename σ, (ruleNode c body).2.map (·.rename σ)) := by
  have hempty : Numbering.empty.rename σ = .empty := rfl
  have hbody := nodes_rename h body .empty
  rw [hempty] at hbody
  simp only [ruleNode, hbody, Node.ofParts_renameAll]
  rfl

/-! ## Reordered drafts -/

def RuleDraft.rename (σ : RuleId → RuleId) (r : RuleDraft) : RuleDraft :=
  ⟨r.name, r.body.map (Step.renameBody σ)⟩

namespace Draft

/-- The second draft has the rules of the first in another order, with the numbers in their bodies
changed accordingly. No rule of either was defined twice. -/
structure Reordered (σ : Equiv.Perm RuleId) (d d' : Draft) : Prop where
  vocabulary : d'.vocabulary = d.vocabulary
  config : d'.config = d.config
  misuses : d.misuses = []
  misuses' : d'.misuses = []
  rules (r : RuleId) : d'.rules[σ r]? = d.rules[r]?.map (·.rename σ)

variable {σ : Equiv.Perm RuleId} {d d' : Draft}

theorem Reordered.scope (h : d.Reordered σ d') (r : RuleId) :
    RuleScope.Renames σ ⟨d.vocabulary, d.rules.length, r⟩
      ⟨d'.vocabulary, d'.rules.length, σ r⟩ where
  vocabulary := h.vocabulary
  rule := rfl
  ruleCount b := by
    have hnone : ∀ (rules : List RuleDraft) r, rules[r]?.isNone = true ↔ rules.length ≤ r := by simp
    rw [← hnone, ← hnone, h.rules, Option.isNone_map]

theorem finishedRules_getElem? (d : Draft) (r : RuleId) :
    d.finishedRules[r]? = d.rules[r]?.map (d.finishRule r) := by
  cases h : d.rules[r]? <;> simp [finishedRules, h]

theorem Reordered.finishedRules (h : d.Reordered σ d') (r : RuleId) :
    d'.finishedRules[σ r]? =
      d.finishedRules[r]?.map fun x => (x.1.rename σ, x.2.map (·.rename σ)) := by
  rw [finishedRules_getElem?, finishedRules_getElem?, h.rules, Option.map_map, Option.map_map]
  congr 1
  funext draft
  obtain ⟨name, body⟩ := draft
  cases body with
  | none => rfl
  | some body =>
    have hbody := Step.ruleNode_rename (h.scope r) body
    simp only [Function.comp_apply, finishRule, RuleDraft.rename, Option.map_some, hbody]
    rfl

/-- No rule has defects. -/
def Clean (d : Draft) : Prop := ∀ x ∈ d.finishedRules, x.2 = []

theorem defects_eq_nil_iff : d.defects = [] ↔
    categoryDefects d.vocabulary = [] ∧ d.misuses = [] ∧ d.config.lookahead ≠ 0 ∧ d.Clean := by
  simp only [defects, Clean, List.append_eq_nil_iff, List.flatMap_eq_nil_iff, and_assoc]
  refine and_congr_right fun _ => and_congr_right fun _ => and_congr_left fun _ => ?_
  split <;> simp [*]

theorem Reordered.clean_iff (h : d.Reordered σ d') : d'.Clean ↔ d.Clean := by
  constructor
  · intro hclean x hx
    obtain ⟨r, hx⟩ := List.mem_iff_getElem?.mp hx
    have hr := h.finishedRules r
    rw [hx] at hr
    simpa using hclean _ (List.mem_of_getElem? hr)
  · intro hclean x hx
    obtain ⟨r, hx⟩ := List.mem_iff_getElem?.mp hx
    have hr := h.finishedRules (σ.symm r)
    rw [Equiv.apply_symm_apply, hx] at hr
    obtain ⟨y, hy, rfl⟩ := Option.map_eq_some_iff.mp hr.symm
    simp [hclean y (List.mem_of_getElem? hy)]

theorem Reordered.defects_iff (h : d.Reordered σ d') : d'.defects = [] ↔ d.defects = [] := by
  rw [defects_eq_nil_iff, defects_eq_nil_iff, h.clean_iff, h.vocabulary, h.config]
  simp [h.misuses, h.misuses']

/-- Both drafts have defects, or their grammars have the same rules. -/
theorem Reordered.grammar (h : d.Reordered σ d') :
    (∃ ds ds', d.grammar = .error ds ∧ d'.grammar = .error ds') ∨
      ∃ g g', d.grammar = .ok g ∧ d'.grammar = .ok g' ∧ g.Renames σ g' := by
  by_cases hd : d.defects = []
  · have hd' := h.defects_iff.mpr hd
    have hg : d.grammar = .ok ⟨d.finishedRules.map (·.1)⟩ := by simp [Draft.grammar, hd]
    have hg' : d'.grammar = .ok ⟨d'.finishedRules.map (·.1)⟩ := by simp [Draft.grammar, hd']
    refine .inr ⟨_, _, hg, hg', fun r => ?_⟩
    simp only [Grammar.get?, List.getElem?_map, h.finishedRules r, Option.map_map]
    rfl
  · have hd' : ¬ d'.defects = [] := fun h' => hd (h.defects_iff.mp h')
    have hg : d.grammar = .error d.defects := by simp [Draft.grammar, hd]
    have hg' : d'.grammar = .error d'.defects := by simp [Draft.grammar, hd']
    exact .inl ⟨_, _, hg, hg'⟩

/-! ## What the analysis finds -/

end Draft

/-- How the analysis of a grammar ends, said by what the grammar can do. -/
def Grammar.Verdict (g : Grammar) (v : Vocabulary) (k : Nat) : Except GrammarFault Parser → Prop
  | .error (.leftRecursive _) => g.LeftRecursive
  | .error (.malformed _) => ¬ g.LeftRecursive ∧ ¬ g.Progressive
  | .error (.ambiguous _) =>
    ¬ g.LeftRecursive ∧ g.Progressive ∧ ∃ x ∈ g.forks, g.Ambiguous v k x
  | .ok _ => ¬ g.LeftRecursive ∧ g.Progressive ∧ ¬ ∃ x ∈ g.forks, g.Ambiguous v k x

theorem Grammar.Renames.verdict_iff {σ : Equiv.Perm RuleId} {g g' : Grammar} (h : g.Renames σ g')
    {v : Vocabulary} {k : Nat} {x : Except GrammarFault Parser} :
    g'.Verdict v k x ↔ g.Verdict v k x := by
  have hrec := h.leftRecursive_iff
  have hprog := h.progressive_iff
  have hambiguous := h.exists_ambiguous_iff (v := v) (k := k)
  cases x with
  | ok p => simp only [Grammar.Verdict, hrec, hprog, hambiguous]
  | error fault => cases fault <;> simp only [Grammar.Verdict, hrec, hprog, hambiguous]

namespace Draft

variable {σ : Equiv.Perm RuleId} {d d' : Draft} {g : Grammar}

theorem parser_verdict (hg : d.grammar = .ok g) :
    g.Verdict d.vocabulary d.config.lookahead d.parser := by
  have hsurvey := Grammar.surveyed_spec (k := d.config.lookahead) (grammar_proper hg)
  rw [parser_of_grammar hg]
  unfold Grammar.table
  cases hsurveyed : g.surveyed d.config.lookahead with
  | error fault =>
    rw [hsurveyed] at hsurvey
    cases fault with
    | leftRecursive l => exact hsurvey.leftRecursive
    | malformed defects => exact hsurvey
    | ambiguous a => exact hsurvey.elim
  | ok ds =>
    rw [hsurveyed] at hsurvey
    obtain ⟨hrec, hprog, hds⟩ := hsurvey
    show g.Verdict _ _ (((tableOf d.vocabulary d.config.lookahead ds).mapError
      GrammarFault.ambiguous).map _)
    cases htable : tableOf d.vocabulary d.config.lookahead ds with
    | error a =>
      have hfirst : g.IsFirstAmbiguity d.vocabulary d.config.lookahead a :=
        tableOf_eq_error hds htable
      exact ⟨hrec, hprog, hfirst.exists_ambiguous⟩
    | ok table =>
      have hclear := (tableOf_eq_ok hds htable).1
      refine ⟨hrec, hprog, ?_⟩
      rintro ⟨x, hx, hambiguous⟩
      exact hclear x hx hambiguous

/-! ## Equal choices -/

theorem predictor?_eq_none {p : Parser} (h : d.parser = .ok p) {key : DecisionKey}
    (hkey : key ∉ p.grammar.forks.map (·.1)) : p.predictor? key = none := by
  obtain ⟨-, -, -, htable⟩ := parser_eq_ok h
  rw [← htable.keys] at hkey
  refine List.lookup_eq_none_iff.mpr fun x hx => ?_
  have hne : x.1 ≠ key := fun heq => hkey (heq ▸ List.mem_map_of_mem hx)
  simpa using hne.symm

section

variable {p p' : Parser} (hp : d.parser = .ok p) (hp' : d'.parser = .ok p')
  (hv : p'.vocabulary = p.vocabulary) (hc : p'.config = p.config)
  (hg : p.grammar.Renames σ p'.grammar)

include hp hp' hv hc hg

open Classical in
theorem predict_rename (key : DecisionKey) (s : RunState) :
    p'.predict (key.rename σ) (s.rename σ) = p.predict key s := by
  by_cases hkey : key ∈ p.grammar.forks.map (·.1)
  · obtain ⟨x, hx, rfl⟩ := List.mem_map.mp hkey
    have hchoice := (parser_ready hp).predict_eq hx s
    have hchoice' := (parser_ready hp').predict_eq (hg.mem_forks hx) (s.rename σ)
    dsimp only at hchoice'
    rw [hchoice, hchoice', Fork.rename, List.findIdx?_map, hv, hc]
    congr 1
    funext way
    exact decide_eq_decide.mpr hg.admits_iff
  · have hkey' : key.rename σ ∉ p'.grammar.forks.map (·.1) := fun h => hkey (hg.mem_keys_iff.mp h)
    unfold Parser.predict
    rw [predictor?_eq_none hp hkey, predictor?_eq_none hp' hkey']
    rfl

omit hv in
theorem firstTypes_rename (r : RuleId) (i : Nat) :
    p'.firstTypes ⟨σ r, ⟨.atLeastOne, i⟩⟩ = p.firstTypes ⟨r, ⟨.atLeastOne, i⟩⟩ := by
  by_cases hkey : ⟨r, ⟨.atLeastOne, i⟩⟩ ∈ p.grammar.forks.map (·.1)
  · obtain ⟨⟨key, fork⟩, hx, heq⟩ := List.mem_map.mp hkey
    obtain rfl : key = ⟨r, ⟨.atLeastOne, i⟩⟩ := heq
    obtain ⟨n, after, hcontext, ho, -⟩ := Grammar.mem_forks.mp hx
    obtain ⟨body, rfl⟩ : ∃ body, n = .repetition body i true := by
      cases n with
      | repetition body j atLeastOne =>
        cases atLeastOne with
        | false => simp [Node.occurrence?, Construct.ofRepetition] at ho
        | true =>
          obtain rfl : j = i := by simpa [Node.occurrence?, Construct.ofRepetition] using ho
          exact ⟨body, rfl⟩
      | _ => simp [Node.occurrence?] at ho
    obtain ⟨s, hs, hfirst⟩ := firstTypes_atLeastOne hp hcontext
    obtain ⟨s', hs', hfirst'⟩ :=
      firstTypes_atLeastOne hp' (Grammar.mem_contexts_rename hg hcontext)
    have hsame := hg.plainFirst (k := p.config.lookahead) (.node body :: .loop body :: after)
    rw [hs] at hsame
    rw [hc] at hs'
    obtain rfl : s' = s := Except.ok.inj (hs'.symm.trans hsame)
    rw [hfirst, hfirst']
  · have hkey' : ⟨σ r, ⟨.atLeastOne, i⟩⟩ ∉ p'.grammar.forks.map (·.1) :=
      fun h => hkey (hg.mem_keys_iff.mp h)
    unfold Parser.firstTypes
    rw [predictor?_eq_none hp hkey, predictor?_eq_none hp' hkey']

end

theorem Reordered.renames (h : d.Reordered σ d') {p p' : Parser} (hp : d.parser = .ok p)
    (hp' : d'.parser = .ok p') : p.Renames σ p' := by
  obtain ⟨hgrammar, hv, hc, -⟩ := parser_eq_ok hp
  obtain ⟨hgrammar', hv', hc', -⟩ := parser_eq_ok hp'
  have hv : p'.vocabulary = p.vocabulary := by rw [hv, hv', h.vocabulary]
  have hc : p'.config = p.config := by rw [hc, hc', h.config]
  have hg : p.grammar.Renames σ p'.grammar := by
    obtain ⟨ds, ds', hds, -⟩ | ⟨g, g', hg, hg', hrenames⟩ := h.grammar
    · cases hgrammar.symm.trans hds
    · obtain rfl := Except.ok.inj (hgrammar.symm.trans hg)
      obtain rfl := Except.ok.inj (hgrammar'.symm.trans hg')
      exact hrenames
  exact ⟨hv, hc, hg, predict_rename hp hp' hv hc hg, firstTypes_rename hp hp' hc hg⟩

end Draft

/-! ## The main result -/

/-- The second parser makes of every token list what the first makes of it: a tree or an error that
differ in the numbers of rules only. Rules that correspond have one name. -/
structure Parser.SameParses (σ : RuleId → RuleId) (p p' : Parser) : Prop where
  ruleName (r : RuleId) : p'.ruleName (σ r) = p.ruleName r
  parse (r : RuleId) (tokens : List Token) : p'.parse (σ r) tokens =
    match p.parse r tokens with
    | .ok t => .ok (t.rename σ)
    | .error e => .error (e.rename σ)

theorem Parser.Renames.sameParses {σ : Equiv.Perm RuleId} {p p' : Parser} (h : p.Renames σ p') :
    p.SameParses σ p' where
  ruleName r := by
    unfold ruleName
    rw [h.grammar r]
    cases p.grammar.get? r <;> rfl
  parse := h.parse

namespace Draft

/-- Two analyses end alike: with faults of one class, or with parsers that agree. -/
inductive SameOutcome (σ : RuleId → RuleId) :
    Except GrammarFault Parser → Except GrammarFault Parser → Prop where
  | malformed {defects defects' : List Defect} :
      SameOutcome σ (.error (.malformed defects)) (.error (.malformed defects'))
  | leftRecursive {l l' : LeftRecursion} :
      SameOutcome σ (.error (.leftRecursive l)) (.error (.leftRecursive l'))
  | ambiguous {a a' : Ambiguity} :
      SameOutcome σ (.error (.ambiguous a)) (.error (.ambiguous a'))
  | ok {p p' : Parser} : p.SameParses σ p' → SameOutcome σ (.ok p) (.ok p')

/-- One grammar has no faults of two classes. -/
theorem SameOutcome.of_verdict {σ : RuleId → RuleId} {g : Grammar} {v : Vocabulary} {k : Nat}
    {x y : Except GrammarFault Parser} (hx : g.Verdict v k x) (hy : g.Verdict v k y)
    (hok : ∀ p p', x = .ok p → y = .ok p' → p.SameParses σ p') : SameOutcome σ x y := by
  match x, y with
  | .ok p, .ok p' => exact .ok (hok p p' rfl rfl)
  | .ok p, .error (.malformed _) => exact absurd hx.2.1 hy.2
  | .ok p, .error (.ambiguous _) => exact absurd hy.2.2 hx.2.2
  | .ok p, .error (.leftRecursive _) => exact absurd hy hx.1
  | .error (.malformed _), .ok p => exact absurd hy.2.1 hx.2
  | .error (.malformed _), .error (.malformed _) => exact .malformed
  | .error (.malformed _), .error (.ambiguous _) => exact absurd hy.2.1 hx.2
  | .error (.malformed _), .error (.leftRecursive _) => exact absurd hy hx.1
  | .error (.ambiguous _), .ok p => exact absurd hx.2.2 hy.2.2
  | .error (.ambiguous _), .error (.malformed _) => exact absurd hx.2.1 hy.2
  | .error (.ambiguous _), .error (.ambiguous _) => exact .ambiguous
  | .error (.ambiguous _), .error (.leftRecursive _) => exact absurd hy hx.1
  | .error (.leftRecursive _), .ok p => exact absurd hx hy.1
  | .error (.leftRecursive _), .error (.malformed _) => exact absurd hx hy.1
  | .error (.leftRecursive _), .error (.ambiguous _) => exact absurd hx hy.1
  | .error (.leftRecursive _), .error (.leftRecursive _) => exact .leftRecursive

/-! ## Declarations in a given order -/

def declareAll (d : Draft) (rules : List (String × List Step)) : Draft :=
  rules.foldl (fun d r => (d.declare r.1).2) d

def defineAll (d : Draft) (rules : List ((String × List Step) × RuleId)) : Draft :=
  rules.foldl (fun d x => d.define x.2 x.1.2) d

/-- Declare rules in the given order, then give each of them its body. -/
def ofRules (v : Vocabulary) (config : Config) (rules : List (String × List Step)) : Draft :=
  ((empty v config).declareAll rules).defineAll rules.zipIdx

section

variable {v : Vocabulary} {config : Config}

theorem declareAll_eq (rules : List (String × List Step)) (hnames : (rules.map (·.1)).Nodup) :
    (empty v config).declareAll rules = ⟨v, config, rules.map fun r => ⟨r.1, none⟩, []⟩ := by
  induction rules using List.reverseRecOn with
  | nil => rfl
  | append_singleton rules r ih =>
    rw [List.map_append, List.nodup_append] at hnames
    obtain ⟨hrules, -, hne⟩ := hnames
    have hnew : (rules.map fun r => (⟨r.1, none⟩ : RuleDraft)).findIdx? (·.name = r.1) = none := by
      refine List.findIdx?_eq_none_iff.mpr fun draft hdraft => ?_
      obtain ⟨r', hr', rfl⟩ := List.mem_map.mp hdraft
      exact decide_eq_false (hne r'.1 (List.mem_map_of_mem hr') r.1 (by simp))
    have hsplit : (empty v config).declareAll (rules ++ [r]) =
        (((empty v config).declareAll rules).declare r.1).2 := by
      simp [declareAll]
    rw [hsplit, ih hrules]
    simp [declare, hnew]

theorem defineAll_eq (todo done : List (String × List Step)) :
    defineAll
      ⟨v, config, done.map (fun r => ⟨r.1, some r.2⟩) ++ todo.map fun r => ⟨r.1, none⟩, []⟩
      (todo.zipIdx done.length) =
    ⟨v, config, (done ++ todo).map fun r => ⟨r.1, some r.2⟩, []⟩ := by
  induction todo generalizing done with
  | nil => simp [defineAll]
  | cons r todo ih =>
    have hrest := ih (done ++ [r])
    rw [List.length_append, List.length_singleton, List.append_assoc,
      List.singleton_append] at hrest
    rw [← hrest, List.zipIdx_cons]
    show defineAll (define _ done.length r.2) _ = _
    congr 1
    simp [define]

/-- Rules of different names have the numbers and the bodies that they were given. -/
theorem ofRules_eq {rules : List (String × List Step)} (hnames : (rules.map (·.1)).Nodup) :
    ofRules v config rules = ⟨v, config, rules.map fun r => ⟨r.1, some r.2⟩, []⟩ := by
  unfold ofRules
  rw [declareAll_eq rules hnames]
  exact defineAll_eq rules []

theorem reordered_ofRules {σ : Equiv.Perm RuleId} {rules rules' : List (String × List Step)}
    (hnames : (rules.map (·.1)).Nodup) (hnames' : (rules'.map (·.1)).Nodup)
    (h : ∀ r, rules'[σ r]? = rules[r]?.map fun r => (r.1, Step.renameBody σ r.2)) :
    (ofRules v config rules).Reordered σ (ofRules v config rules') := by
  rw [ofRules_eq hnames, ofRules_eq hnames']
  refine ⟨rfl, rfl, rfl, rfl, fun r => ?_⟩
  simp only [List.getElem?_map, h r, Option.map_map]
  rfl

end

/-- Drafts that differ in the order of their rules are refused for faults of one class, or have
parsers that make the same of every token list, whatever rule it starts with. -/
theorem parser_reordered {σ : Equiv.Perm RuleId} {d d' : Draft} (h : d.Reordered σ d') :
    SameOutcome σ d.parser d'.parser := by
  obtain ⟨ds, ds', hds, hds'⟩ | ⟨g, g', hg, hg', hrenames⟩ := h.grammar
  · have hp : d.parser = .error (.malformed ds) := by
      unfold parser
      rw [hds]
      rfl
    have hp' : d'.parser = .error (.malformed ds') := by
      unfold parser
      rw [hds']
      rfl
    rw [hp, hp']
    exact .malformed
  · have hverdict := parser_verdict hg'
    rw [h.vocabulary, h.config] at hverdict
    refine .of_verdict (parser_verdict hg) (hrenames.verdict_iff.mp hverdict) fun p p' hp hp' => ?_
    exact (h.renames hp hp').sameParses

/-- The items before the list of them. -/
def itemsFirst : Draft :=
  .ofRules itemList.vocabulary {}
    [("item", [.token 0]), ("list", [.call 1 0, .many [.token 2, .call 2 0]])]

theorem itemList_reordered : ∃ p, itemsFirst.parser = .ok p ∧
    itemListParser.SameParses (Equiv.swap 0 1) p := by
  have hlist : itemList = .ofRules itemList.vocabulary {}
      [("list", [.call 1 1, .many [.token 2, .call 2 1]]), ("item", [.token 0])] := rfl
  have hreordered : itemList.Reordered (Equiv.swap 0 1) itemsFirst := by
    rw [hlist]
    refine reordered_ofRules (by decide) (by decide) fun r => ?_
    match r with
    | 0 => rfl
    | 1 => rfl
    | r + 2 => simp [Equiv.swap_apply_of_ne_of_ne]
  have houtcome := parser_reordered hreordered
  rw [itemList_accepted] at houtcome
  generalize itemsFirst.parser = x at houtcome ⊢
  cases houtcome with
  | ok h => exact ⟨_, rfl, h⟩

end Draft

end StrongLL
