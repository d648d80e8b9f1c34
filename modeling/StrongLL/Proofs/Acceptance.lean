import StrongLL.Parser.Derivation
import StrongLL.Proofs.Prediction
import StrongLL.Proofs.Recording

/-!
# StrongLL.Proofs.Acceptance

Which grammars have a parser, and what a parser can rely on:

* `Grammar.IsTable`     — a table with a predictor for every decision, none of them ambiguous.
* `Grammar.table_spec`  — the table of a grammar, or the reason why it has none.
* `Parser.Ready`        — what the analysis guarantees to a run.
* `Draft.parser_ready`  — every parser is ready.
* `Draft.parser_iff_unambiguous` — a grammar has a parser exactly if no decision is ambiguous
  within the lookahead, and the first ambiguous decision is reported.
-/

namespace StrongLL

namespace Grammar

variable {g : Grammar} {v : Vocabulary} {k : Nat}

structure IsTable (g : Grammar) (v : Vocabulary) (k : Nat) (table : PredictionTable) : Prop where
  grounded : ¬ g.LeftRecursive
  progressive : g.Progressive
  clear : ∀ x ∈ g.forks, ¬ g.Ambiguous v k x
  entries : ∃ ds, List.Forall₂ (g.IsDecision k) g.forks ds ∧
    table = ds.map fun d => (d.key, d.function v k)

/-- The ambiguity is that of the first ambiguous decision. -/
def IsFirstAmbiguity (g : Grammar) (v : Vocabulary) (k : Nat) (a : Ambiguity) : Prop :=
  ∃ before x after, g.forks = before ++ x :: after ∧ (∀ y ∈ before, ¬ g.Ambiguous v k y) ∧
    g.Names v k x a

theorem IsFirstAmbiguity.exists_ambiguous {a : Ambiguity} (h : g.IsFirstAmbiguity v k a) :
    ∃ x ∈ g.forks, g.Ambiguous v k x := by
  obtain ⟨before, x, after, hforks, -, hnames⟩ := h
  exact ⟨x, by simp [hforks], hnames.ambiguous⟩

/-- A table, or a true reason why there is none. -/
def IsOutcome (g : Grammar) (v : Vocabulary) (k : Nat) : Except GrammarFault PredictionTable → Prop
  | .error (.leftRecursive l) => g.IsLeftCycle l
  | .error (.malformed _) => ¬ g.LeftRecursive ∧ ¬ g.Progressive
  | .error (.ambiguous a) => g.IsFirstAmbiguity v k a
  | .ok table => g.IsTable v k table

theorem table_eq_ok {table : PredictionTable} (h : g.table v k = .ok table) :
    ∃ ds, g.surveyed k = .ok ds ∧ tableOf v k ds = .ok table := by
  unfold Grammar.table at h
  cases hds : g.surveyed k with
  | error fault =>
    rw [hds] at h
    cases h
  | ok ds =>
    rw [hds] at h
    cases htable : tableOf v k ds with
    | error a => simp [htable, bind, Except.bind, Except.mapError] at h
    | ok found =>
      obtain rfl : found = table := by
        simpa [htable, bind, Except.bind, Except.mapError] using h
      exact ⟨ds, rfl, htable⟩

theorem table_spec {types : Nat} (hg : g.Proper types) : g.IsOutcome v k (g.table v k) := by
  have hspec := surveyed_spec (k := k) hg
  unfold table
  cases hsurveyed : g.surveyed k with
  | error fault =>
    rw [hsurveyed] at hspec
    cases fault with
    | leftRecursive l => exact hspec
    | malformed defects => exact hspec
    | ambiguous a => exact hspec.elim
  | ok ds =>
    rw [hsurveyed] at hspec
    obtain ⟨hrec, hprog, hds⟩ := hspec
    show g.IsOutcome v k ((tableOf v k ds).mapError GrammarFault.ambiguous)
    cases htable : tableOf v k ds with
    | error a => exact tableOf_eq_error hds htable
    | ok table =>
      obtain ⟨hclear, rfl⟩ := tableOf_eq_ok hds htable
      exact ⟨hrec, hprog, hclear, ds, hds, rfl⟩

/-- The predictor of a decision has the paths of its ways in. -/
structure IsPredictor (g : Grammar) (v : Vocabulary) (k : Nat) (x : DecisionKey × Fork)
    (f : Predictor) : Prop where
  depth : f.depth = k
  branches : List.Forall₂ (fun (way : BranchLabel × List Pending) (b : PredictorBranch) =>
    ∃ paths : PathSet, b = .ofPaths v paths ∧ ∀ p, p ∈ paths ↔ g.Ways k x.1.rule way.2 p)
    x.2.branches f.branches

theorem IsDecision.isPredictor {x : DecisionKey × Fork} {d : Decision} (h : g.IsDecision k x d) :
    g.IsPredictor v k x (d.function v k) where
  depth := rfl
  branches := by
    refine List.forall₂_map_right_iff.mpr (h.branches.imp ?_)
    intro way b hb
    exact ⟨b.paths, rfl, hb.2⟩

/-- The decisions of a survey have the keys of the decision points and as many branches as there are
ways in. -/
theorem shape_eq {xs : List (DecisionKey × Fork)} {ds : List Decision}
    (h : List.Forall₂ (g.IsDecision k) xs ds) :
    ds.map (fun d => (d.key, d.branches.length)) =
      xs.map fun x => (x.1, x.2.branches.length) := by
  induction h with
  | nil => rfl
  | cons hd _ ih => rw [List.map_cons, List.map_cons, ih, hd.key, hd.branches.length_eq]

theorem lookup_of_nodup {α β : Type} [DecidableEq α] {table : List (α × β)} {a : α} {b : β}
    (hnodup : (table.map (·.1)).Nodup) (hmem : (a, b) ∈ table) : table.lookup a = some b := by
  obtain ⟨before, after, rfl⟩ := List.append_of_mem hmem
  refine List.lookup_eq_some_iff.mpr ⟨before, after, rfl, ?_⟩
  intro x hx
  rw [List.map_append, List.nodup_append] at hnodup
  have hne := hnodup.2.2 x.1 (List.mem_map_of_mem hx) a (by simp)
  simpa using fun h : a = x.1 => hne h.symm

theorem IsTable.keys {table : PredictionTable} (h : g.IsTable v k table) :
    table.map (·.1) = g.forks.map (·.1) := by
  obtain ⟨ds, hds, rfl⟩ := h.entries
  have hkeys := congrArg (List.map Prod.fst) (shape_eq hds)
  simpa [List.map_map, Function.comp_def] using hkeys

theorem IsTable.lookup {table : PredictionTable} (h : g.IsTable v k table)
    (hkeys : (g.forks.map (·.1)).Nodup) {x : DecisionKey × Fork} (hx : x ∈ g.forks) :
    ∃ f, table.lookup x.1 = some f ∧ g.IsPredictor v k x f := by
  have heq := h.keys
  obtain ⟨ds, hds, rfl⟩ := h.entries
  obtain ⟨d, hd, hdecision⟩ := exists_mem_left hds x hx
  refine ⟨d.function v k, lookup_of_nodup (heq ▸ hkeys) ?_, hdecision.isPredictor⟩
  rw [← hdecision.key]
  exact List.mem_map.mpr ⟨d, hd, rfl⟩

end Grammar

/-- What the analysis of a grammar guarantees to the runs of its parser. -/
structure Parser.Ready (p : Parser) : Prop where
  lookahead_pos : 0 < p.config.lookahead
  proper : p.grammar.Proper p.vocabulary.size
  grounded : ¬ p.grammar.LeftRecursive
  progressive : p.grammar.Progressive
  clear : ∀ x ∈ p.grammar.forks, ¬ p.grammar.Ambiguous p.vocabulary p.config.lookahead x
  predictor : ∀ x ∈ p.grammar.forks, ∃ f, p.predictor? x.1 = some f ∧
    p.grammar.IsPredictor p.vocabulary p.config.lookahead x f

namespace Draft

variable {d : Draft} {g : Grammar} {p : Parser}

theorem parser_of_grammar (hg : d.grammar = .ok g) :
    d.parser = (g.table d.vocabulary d.config.lookahead).map (⟨d.vocabulary, g, ·, d.config⟩) := by
  unfold parser
  rw [hg]
  show (g.table d.vocabulary d.config.lookahead >>= fun table =>
    (pure ⟨d.vocabulary, g, table, d.config⟩ : Except GrammarFault Parser)) = _
  cases g.table d.vocabulary d.config.lookahead <;> rfl

theorem exists_grammar (h : d.parser = .ok p) : ∃ g, d.grammar = .ok g := by
  cases hg : d.grammar with
  | ok g => exact ⟨g, rfl⟩
  | error defects =>
    unfold parser at h
    rw [hg] at h
    cases h

/-- A parser has the grammar, the vocabulary and the choices of its draft, and the grammar's
table. -/
theorem parser_parts (h : d.parser = .ok p) :
    d.grammar = .ok p.grammar ∧ p.vocabulary = d.vocabulary ∧ p.config = d.config ∧
      p.grammar.table p.vocabulary p.config.lookahead = .ok p.table := by
  obtain ⟨g, hg⟩ := exists_grammar h
  rw [parser_of_grammar hg] at h
  cases htable : g.table d.vocabulary d.config.lookahead with
  | error fault =>
    rw [htable] at h
    cases h
  | ok table =>
    rw [htable] at h
    cases h
    exact ⟨hg, rfl, rfl, htable⟩

theorem parser_eq_ok (h : d.parser = .ok p) :
    d.grammar = .ok p.grammar ∧ p.vocabulary = d.vocabulary ∧ p.config = d.config ∧
      p.grammar.IsTable p.vocabulary p.config.lookahead p.table := by
  obtain ⟨hg, hv, hc, htable⟩ := parser_parts h
  have hspec := Grammar.table_spec (v := p.vocabulary) (k := p.config.lookahead) (grammar_proper hg)
  rw [htable] at hspec
  exact ⟨hg, hv, hc, hspec⟩

theorem parser_ready (h : d.parser = .ok p) : p.Ready := by
  obtain ⟨hg, hv, hc, htable⟩ := parser_eq_ok h
  have hproper := grammar_proper hg
  have hdepth := lookahead_pos hg
  rw [← hv] at hproper
  rw [← hc] at hdepth
  exact ⟨hdepth, hproper, htable.grounded, htable.progressive, htable.clear,
    fun x hx => htable.lookup (grammar_keys hg) hx⟩

end Draft

/-! ## Two examples -/

theorem eq_ok_of_toOption {ε α : Type} {x : Except ε α} {a : α} (h : x.toOption = some a) :
    x = .ok a := by
  cases x with
  | ok b => exact congrArg Except.ok (Option.some.inj h)
  | error e => cases h

/-- A list is an item and, as long as a comma comes, another item. An item is a token of a
category. -/
def itemList : Draft where
  vocabulary := .ofSpecs [{ name := "item" },
    { name := "word", pattern := .literal "a", categories := [0] },
    { name := "comma", pattern := .literal "," }]
  config := {}
  rules := [⟨"list", some [.call 1 1, .many [.token 2, .call 2 1]]⟩, ⟨"item", some [.token 0]⟩]
  misuses := []

def itemListParser : Parser where
  vocabulary := itemList.vocabulary
  grammar := ⟨[⟨"list", .sequence [.ruleRef 1 1,
      .repetition (.sequence [.terminal 2 1, .ruleRef 1 2]) 1 false]⟩,
    ⟨"item", .terminal 0 1⟩]⟩
  table := [(⟨0, ⟨.many, 1⟩⟩, ⟨1, [⟨[[[2]]], [2]⟩]⟩)]
  config := {}

theorem itemList_accepted : itemList.parser = .ok itemListParser := by
  have hg : itemList.grammar = .ok itemListParser.grammar := rfl
  have htable : itemListParser.grammar.table itemList.vocabulary itemList.config.lookahead =
      .ok itemListParser.table := eq_ok_of_toOption (by decide +kernel)
  rw [Draft.parser_of_grammar hg, htable]
  rfl

/-- One or two items. One token ahead does not tell whether another one comes. -/
def itemPair : Draft :=
  { itemList with rules := [⟨"pair", some [.optional [.token 0], .token 0]⟩] }

def itemPairGrammar : Grammar :=
  ⟨[⟨"pair", .sequence [.optional (.terminal 0 1) 1, .terminal 0 2]⟩]⟩

theorem itemPair_surveyed : ¬ itemPairGrammar.LeftRecursive ∧ itemPairGrammar.Progressive := by
  have hg : itemPair.grammar = .ok itemPairGrammar := rfl
  have hok : (itemPairGrammar.surveyed 1).toOption.isSome = true := by decide +kernel
  have hspec := Grammar.surveyed_spec (k := 1) (Draft.grammar_proper hg)
  cases h : itemPairGrammar.surveyed 1 with
  | error fault =>
    rw [h] at hok
    cases hok
  | ok ds =>
    rw [h] at hspec
    exact ⟨hspec.1, hspec.2.1⟩

theorem itemPair_refused : ∃ fault, itemPair.parser = .error fault := by
  have hnone : itemPair.parser.toOption.isSome = false := by decide +kernel
  cases h : itemPair.parser with
  | error fault => exact ⟨fault, rfl⟩
  | ok p =>
    rw [h] at hnone
    cases hnone

def itemListTokens : List Token :=
  [⟨1, "a", .start⟩, ⟨2, ",", ⟨1, 1, 2⟩⟩, ⟨1, "a", ⟨2, 1, 3⟩⟩]

def itemListTree : ParseTree where
  rule := 0
  children := [.tree 1 [.token ⟨1, "a", .start⟩], .token ⟨2, ",", ⟨1, 1, 2⟩⟩,
    .tree 1 [.token ⟨1, "a", ⟨2, 1, 3⟩⟩]]

theorem item_derives (place : Place) :
    Derives itemListParser.grammar itemListParser.vocabulary [.node (.terminal 0 1)]
      [.token ⟨1, "a", place⟩] :=
  .terminal rfl .nil

theorem itemListTree_isTree :
    itemListParser.grammar.IsTree itemListParser.vocabulary itemListTree :=
  ⟨_, rfl, .sequence (.ruleRef rfl (item_derives _) (.many (.again (.sequence
    (.terminal rfl (.ruleRef rfl (item_derives _) (.stop .nil)))))))⟩

namespace Draft

variable {d : Draft} {g : Grammar}

/-- A grammar without left recursion and empty iterations has a parser exactly if no decision is
ambiguous within the lookahead. Else the first ambiguous decision is reported, with two of its ways
and a path of the first that meets a path of the second. -/
theorem parser_iff_unambiguous (hg : d.grammar = .ok g) (hrec : ¬ g.LeftRecursive)
    (hprog : g.Progressive) :
    ((∃ p, d.parser = .ok p) ↔
      ∀ x ∈ g.forks, ¬ g.Ambiguous d.vocabulary d.config.lookahead x) ∧
    ∀ fault, d.parser = .error fault →
      ∃ a, fault = .ambiguous a ∧ g.IsFirstAmbiguity d.vocabulary d.config.lookahead a := by
  have hspec := Grammar.table_spec (v := d.vocabulary) (k := d.config.lookahead) (grammar_proper hg)
  rw [parser_of_grammar hg]
  cases htable : g.table d.vocabulary d.config.lookahead with
  | ok table =>
    rw [htable] at hspec
    refine ⟨⟨fun _ => hspec.clear, fun _ => ⟨_, rfl⟩⟩, ?_⟩
    intro fault hfault
    cases hfault
  | error fault =>
    rw [htable] at hspec
    cases fault with
    | leftRecursive l => exact absurd hspec.leftRecursive hrec
    | malformed defects => exact absurd hprog hspec.2
    | ambiguous a =>
      obtain ⟨x, hx, hambiguous⟩ := Grammar.IsFirstAmbiguity.exists_ambiguous hspec
      refine ⟨⟨?_, fun hclear => absurd hambiguous (hclear x hx)⟩, ?_⟩
      · intro h
        obtain ⟨p, hp⟩ := h
        cases hp
      · rintro fault hfault
        cases hfault
        exact ⟨a, rfl, hspec⟩

theorem itemList_unambiguous :
    (∀ x ∈ itemListParser.grammar.forks,
      ¬ itemListParser.grammar.Ambiguous itemList.vocabulary itemList.config.lookahead x) ∧
    ∃ a, itemPair.parser = .error (.ambiguous a) ∧
      itemPairGrammar.IsFirstAmbiguity itemPair.vocabulary itemPair.config.lookahead a := by
  have hg : itemList.grammar = .ok itemListParser.grammar := rfl
  have hg' : itemPair.grammar = .ok itemPairGrammar := rfl
  have hready := parser_ready itemList_accepted
  obtain ⟨hrec, hprog⟩ := itemPair_surveyed
  obtain ⟨fault, hfault⟩ := itemPair_refused
  obtain ⟨a, rfl, hfirst⟩ := (parser_iff_unambiguous hg' hrec hprog).2 fault hfault
  have hlist := parser_iff_unambiguous hg hready.grounded hready.progressive
  exact ⟨hlist.1.mp ⟨_, itemList_accepted⟩, a, hfault, hfirst⟩

end Draft

end StrongLL
