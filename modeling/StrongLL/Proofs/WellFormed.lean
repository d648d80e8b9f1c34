import StrongLL.Proofs.ExactSets
import StrongLL.Proofs.Moments
import StrongLL.Proofs.Steps

/-!
# StrongLL.Proofs.WellFormed

Every parser is well formed, and its runs find whatever they look up:

* `Grammar.IsTable.shape`   — a table is made of the decisions in the order of their nodes.
* `PredictionTable.foldl_put` — to put the predictors in one by one makes no difference.
* `Parser.WellFormed`       — each node refers to what there is, and the table has the decisions of
  the grammar in their order, with as many branches as they have.
* `Parser.WellFormed.exists_predictor`, `Parser.WellFormed.predict_lt` — no decision lacks an entry,
  and a prediction is the number of one of its branches.
* `Moment.Within`           — at a moment all tasks belong to the rules that they are run for;
  `Moment.Within.step` keeps it.
* `Moment.Served`           — what is looked up at a moment is found.
* `Draft.parser_wellFormed` — so it is with all parsers and at all moments of their runs.
-/

namespace StrongLL

theorem Node.Proper.fits {types rules : Nat} {n : Node} (h : n.Proper types rules) :
    n.Fits types rules := by
  cases h with
  | terminal ht => exact ht
  | alternation hne _ => exact hne
  | ruleRef hr => exact hr
  | sequence _ | optional _ | repetition _ => exact trivial

namespace Node

theorem mem_preorder (n : Node) : n ∈ n.preorder := by cases n <;> simp [preorder]

theorem mem_preorderAll {n : Node} {ns : List Node} (h : n ∈ ns) : n ∈ preorderAll ns := by
  induction ns with
  | nil => cases h
  | cons m rest ih =>
    rw [preorderAll, List.mem_append]
    obtain rfl | h := List.mem_cons.mp h
    · exact .inl n.mem_preorder
    · exact .inr (ih h)

end Node

/-! ## The nodes of a rule -/

namespace Grammar

variable {g : Grammar} {v : Vocabulary} {k types : Nat} {r : RuleId} {n m : Node}

/-- The node is in the body of the rule. -/
def HasNode (g : Grammar) (r : RuleId) (n : Node) : Prop :=
  ∃ rule, g.get? r = some rule ∧ n ∈ rule.body.preorder

theorem hasNode_body {rule : Rule} (hr : g.get? r = some rule) : g.HasNode r rule.body :=
  ⟨rule, hr, rule.body.mem_preorder⟩

theorem hasNode_iff : g.HasNode r n ↔ ∃ after, (r, n, after) ∈ g.contexts := by
  constructor
  · rintro ⟨rule, hr, hn⟩
    rw [← Node.contexts_map_fst []] at hn
    obtain ⟨⟨n, after⟩, hmem, rfl⟩ := List.mem_map.mp hn
    exact ⟨after, mem_contexts.mpr ⟨rule, hr, hmem⟩⟩
  · rintro ⟨after, h⟩
    obtain ⟨rule, hr, hmem⟩ := mem_contexts.mp h
    refine ⟨rule, hr, ?_⟩
    rw [← Node.contexts_map_fst []]
    exact List.mem_map_of_mem hmem

/-- The nodes within a node of a rule are nodes of the rule. -/
theorem HasNode.within (h : g.HasNode r n) (hm : m ∈ n.preorder) : g.HasNode r m := by
  obtain ⟨after, h⟩ := hasNode_iff.mp h
  rw [← Node.contexts_map_fst after] at hm
  obtain ⟨⟨m, after'⟩, hmem, rfl⟩ := List.mem_map.mp hm
  exact hasNode_iff.mpr ⟨after', covers_of_mem h _ hmem⟩

theorem HasNode.part {parts : List Node} (h : g.HasNode r (.sequence parts)) (hm : m ∈ parts) :
    g.HasNode r m :=
  h.within (List.mem_cons_of_mem _ (Node.mem_preorderAll hm))

theorem HasNode.optional_body {i : Nat} (h : g.HasNode r (.optional m i)) : g.HasNode r m :=
  h.within (List.mem_cons_of_mem _ m.mem_preorder)

theorem HasNode.repetition_body {i : Nat} {atLeastOne : Bool}
    (h : g.HasNode r (.repetition m i atLeastOne)) : g.HasNode r m :=
  h.within (List.mem_cons_of_mem _ m.mem_preorder)

theorem HasNode.alternative {alternatives : List Node} {i : Nat} {description : String}
    (h : g.HasNode r (.alternation alternatives i description)) (hm : m ∈ alternatives) :
    g.HasNode r m :=
  h.within (List.mem_cons_of_mem _ (Node.mem_preorderAll hm))

theorem mem_nodes_iff : n ∈ g.nodes ↔ ∃ r, g.HasNode r n := by
  rw [nodes, List.mem_flatMap]
  constructor
  · rintro ⟨rule, hrule, hn⟩
    obtain ⟨r, hr⟩ := List.mem_iff_getElem?.mp hrule
    exact ⟨r, rule, hr, hn⟩
  · rintro ⟨r, rule, hr, hn⟩
    exact ⟨rule, List.mem_of_getElem? hr, hn⟩

theorem mem_decisionPoints {key : DecisionKey} :
    (key, n) ∈ g.decisionPoints ↔
      g.HasNode key.rule n ∧ n.occurrence? = some key.occurrence := by
  simp only [decisionPoints, HasNode, List.mem_flatMap, List.mem_filterMap,
    List.mem_zipIdx_iff_getElem?, Option.map_eq_some_iff]
  constructor
  · rintro ⟨⟨rule, r⟩, hr, m, hm, o, ho, heq⟩
    obtain ⟨rfl, rfl⟩ := Prod.mk.inj heq
    exact ⟨⟨rule, hr, hm⟩, ho⟩
  · rintro ⟨⟨rule, hr, hn⟩, ho⟩
    exact ⟨(rule, key.rule), hr, n, hn, key.occurrence, ho, rfl⟩

theorem Proper.fits (hg : g.Proper types) (h : g.HasNode r n) : n.Fits types g.size := by
  obtain ⟨after, h⟩ := hasNode_iff.mp h
  exact (hg.context h).1.fits

/-- A table is made of the decisions in their order. -/
theorem IsTable.shape {table : PredictionTable} (h : g.IsTable v k table) :
    table.map (fun x => (x.1, x.2.depth, x.2.branches.length)) =
      g.decisionPoints.map fun x => (x.1, k, x.2.branchCount) := by
  obtain ⟨ds, hds, rfl⟩ := h.entries
  have hshape := congrArg (List.map fun x => (x.1, k, x.2)) ((shape_eq hds).trans forks_shape)
  simpa [List.map_map, Function.comp_def, Decision.function] using hshape

end Grammar

/-! ## Parsers -/

namespace PredictionTable

/-- A key that is there already keeps its place and gets the new predictor, another one comes
last. -/
def put (table : PredictionTable) (key : DecisionKey) (f : Predictor) : PredictionTable :=
  if key ∈ table.map (·.1) then table.map fun x => if x.1 = key then (key, f) else x
  else table ++ [(key, f)]

/-- With keys that differ, no predictor takes the place of another. -/
theorem foldl_put {v : Vocabulary} {k : Nat} {ds : List Decision} {table : PredictionTable}
    (h : (table.map (·.1) ++ ds.map (·.key)).Nodup) :
    ds.foldl (fun table d => table.put d.key (d.function v k)) table =
      table ++ ds.map fun d => (d.key, d.function v k) := by
  induction ds generalizing table with
  | nil => simp
  | cons d ds ih =>
    have hnew : d.key ∉ table.map (·.1) := fun hmem =>
      (List.nodup_append.mp h).2.2 _ hmem _ (List.mem_map_of_mem (List.mem_cons_self ..)) rfl
    rw [List.foldl_cons, put, if_neg hnew, ih (by simpa using h), List.append_assoc]
    rfl

end PredictionTable

namespace Parser

/-- The nodes refer to rules and types that there are, and no choice is empty. No rule invokes
another one twice with one index. The keys of the decisions differ, and the table has them in the
order of the nodes, with predictors of the depth of the lookahead that have a branch for each
way in. So the table does not change if the predictors are put in one by one. -/
structure WellFormed (p : Parser) : Prop where
  fits : ∀ n ∈ p.grammar.nodes, n.Fits p.vocabulary.size p.grammar.size
  callSites : ∀ r rule, p.grammar.get? r = some rule →
    (rule.body.preorder.filterMap (·.callSite?)).Nodup
  keys : (p.grammar.decisionPoints.map (·.1)).Nodup
  table : p.table.map (fun x => (x.1, x.2.depth, x.2.branches.length)) =
    p.grammar.decisionPoints.map fun x => (x.1, p.config.lookahead, x.2.branchCount)
  puts : ∃ ds, p.grammar.surveyed p.config.lookahead = .ok ds ∧
    ds.foldl (fun (table : PredictionTable) d =>
      table.put d.key (d.function p.vocabulary p.config.lookahead)) [] = p.table

namespace WellFormed

variable {p : Parser} (hp : p.WellFormed) {key : DecisionKey} {n : Node}

include hp

theorem exists_predictor (h : (key, n) ∈ p.grammar.decisionPoints) :
    ∃ f, p.predictor? key = some f ∧ f.branches.length = n.branchCount := by
  have hkeys : (p.table.map (·.1)).Nodup := by
    have heq := congrArg (List.map Prod.fst) hp.table
    simp only [List.map_map, Function.comp_def] at heq
    rw [heq]
    exact hp.keys
  have hmem : (key, p.config.lookahead, n.branchCount) ∈
      p.table.map fun x => (x.1, x.2.depth, x.2.branches.length) := by
    rw [hp.table]
    exact List.mem_map.mpr ⟨_, h, rfl⟩
  obtain ⟨⟨key', f⟩, hf, heq⟩ := List.mem_map.mp hmem
  obtain ⟨rfl, -, hlength⟩ : key' = key ∧ f.depth = _ ∧ f.branches.length = _ := by simpa using heq
  exact ⟨f, Grammar.lookup_of_nodup hkeys hf, hlength⟩

theorem predict_lt (h : (key, n) ∈ p.grammar.decisionPoints) {s : RunState} {i : Nat}
    (hi : p.predict key s = some i) : i < n.branchCount := by
  obtain ⟨f, hf, hlength⟩ := hp.exists_predictor h
  unfold predict at hi
  rw [hf, Option.bind_some] at hi
  rw [← hlength]
  exact (List.findIdx?_eq_some_iff_getElem.mp hi).1

end WellFormed

end Parser

/-! ## Runs -/

namespace Task

/-- The task is a node of the rule, or the further iterations of one. -/
def Within (g : Grammar) (r : RuleId) : Task → Prop
  | node n => g.HasNode r n
  | loop o body => ∃ i atLeastOne, o = ⟨.ofRepetition atLeastOne, i⟩ ∧
      g.HasNode r (.repetition body i atLeastOne)

/-- The decision that a task starts with, if it does. -/
def key? (r : RuleId) : Task → Option DecisionKey
  | node n => n.occurrence?.map (⟨r, ·⟩)
  | loop o _ => some ⟨r, o⟩

theorem Within.exists_decisionPoint {g : Grammar} {r : RuleId} {task : Task}
    (h : task.Within g r) {key : DecisionKey} (hkey : task.key? r = some key) :
    ∃ n, (key, n) ∈ g.decisionPoints := by
  cases task with
  | node n =>
    obtain ⟨o, ho, rfl⟩ := Option.map_eq_some_iff.mp hkey
    exact ⟨n, Grammar.mem_decisionPoints.mpr ⟨h, ho⟩⟩
  | loop o body =>
    obtain ⟨i, atLeastOne, rfl, h⟩ := h
    cases hkey
    exact ⟨_, Grammar.mem_decisionPoints.mpr ⟨h, rfl⟩⟩

end Task

/-- A task gives way to nodes within its own. -/
theorem Parser.GivesWay.within {p : Parser} {g : Grammar} {r : RuleId} {s : RunState} {task : Task}
    {tasks : List Task} (h : p.GivesWay r s task tasks) (htask : task.Within g r) :
    ∀ task ∈ tasks, task.Within g r := by
  cases h with
  | sequence =>
    intro task hmem
    obtain ⟨n, hn, rfl⟩ := List.mem_map.mp hmem
    exact htask.part hn
  | enter _ => exact List.forall_mem_singleton.mpr htask.optional_body
  | skip _ => simp
  | many => exact List.forall_mem_singleton.mpr ⟨_, false, rfl, htask⟩
  | atLeastOne _ =>
    exact List.forall_mem_cons.mpr
      ⟨htask.repetition_body, List.forall_mem_singleton.mpr ⟨_, true, rfl, htask⟩⟩
  | alternative hn =>
    obtain ⟨branch, -, hbranch⟩ := Option.bind_eq_some_iff.mp hn
    exact List.forall_mem_singleton.mpr (htask.alternative (List.mem_of_getElem? hbranch))
  | again _ =>
    obtain ⟨i, atLeastOne, rfl, hbody⟩ := id htask
    exact List.forall_mem_cons.mpr
      ⟨hbody.repetition_body, List.forall_mem_singleton.mpr htask⟩
  | stop _ => simp

/-- All tasks of an invocation belong to its rule. -/
def Frame.Within (g : Grammar) (f : Frame) : Prop := ∀ task ∈ f.tasks, task.Within g f.rule

theorem Frame.Within.push {g : Grammar} {f : Frame} (hf : f.Within g) {tasks : List Task}
    (h : ∀ task ∈ tasks, task.Within g f.rule) : (f.push tasks).Within g := by
  intro task hmem
  obtain hmem | hmem := List.mem_append.mp hmem
  · exact h task hmem
  · exact hf task hmem

namespace Moment

/-- All tasks belong to the rules of their invocations, and a rule that is about to be entered
exists. -/
structure Within (g : Grammar) (m : Moment) : Prop where
  active : ∀ f ∈ m.active, f.Within g
  calling {r : RuleId} {outer : List Frame} {s : RunState} : m = .calling r outer s → r < g.size

section

variable {g : Grammar} {r : RuleId} {f : Frame} {outer : List Frame} {s : RunState}

theorem within_calling (hr : r < g.size) (houter : ∀ f ∈ outer, f.Within g) :
    (calling r outer s).Within g where
  active := houter
  calling h := by
    cases h
    exact hr

theorem within_working (hf : f.Within g) (houter : ∀ f ∈ outer, f.Within g) :
    (working f outer s).Within g where
  active := List.forall_mem_cons.mpr ⟨hf, houter⟩
  calling h := by cases h

theorem within_returning {t : ParseTree} (houter : ∀ f ∈ outer, f.Within g) :
    (returning t outer s).Within g where
  active := houter
  calling h := by cases h

theorem within_ended (result : Except RunError (ParseTree × RunState)) :
    (ended result).Within g where
  active := by simp [active]
  calling h := by cases h

theorem within_start (hr : r < g.size) (w : List Token) : (start r w).Within g :=
  within_calling hr (by simp)

end

variable {p : Parser} {limit : Option Nat} {types : Nat}

theorem Within.begins (hg : p.grammar.Proper types) {f : Frame} {outer : List Frame}
    {s : RunState} {task : Task} {m : Moment} (hf : f.Within p.grammar)
    (houter : ∀ f ∈ outer, f.Within p.grammar) (htask : task.Within p.grammar f.rule)
    (h : p.Begins f outer s task m) : m.Within p.grammar := by
  cases h with
  | push hgives => exact within_working (hf.push (hgives.within htask)) houter
  | take _ _ => exact within_working hf houter
  | call => exact within_calling (hg.fits htask) (List.forall_mem_cons.mpr ⟨hf, houter⟩)
  | fail _ => exact within_ended _

theorem Within.step (hg : p.grammar.Proper types) {m : Moment} (h : m.Within p.grammar) :
    (p.step limit m).Within p.grammar := by
  have hgoes := p.goes limit m
  generalize p.step limit m = m' at hgoes ⊢
  cases hgoes with
  | enter hr _ =>
    exact within_working (List.forall_mem_singleton.mpr (Grammar.hasNode_body hr)) h.active
  | @work f task tasks outer s m' htasks hbegins =>
    obtain ⟨hf, houter⟩ := List.forall_mem_cons.mp h.active
    rw [Frame.Within, htasks] at hf
    obtain ⟨htask, hrest⟩ := List.forall_mem_cons.mp hf
    exact .begins hg (f := { f with tasks }) hrest houter htask hbegins
  | finish _ => exact within_returning (List.forall_mem_cons.mp h.active).2
  | resume =>
    obtain ⟨hf, houter⟩ := List.forall_mem_cons.mp h.active
    exact within_working hf houter
  | unknown _ | tooDeep _ _ _ | leftover _ _ | complete _ | stay => exact within_ended _

theorem Within.iterate (hg : p.grammar.Proper types) {m : Moment} (h : m.Within p.grammar)
    (n : Nat) : ((p.step limit)^[n] m).Within p.grammar :=
  Function.Iterate.rec (Moment.Within p.grammar) h (fun _ => .step hg) n

/-- The rule to be entered exists. Every decision that an active invocation may still meet has a
predictor, and for a choice it names one of the alternatives, whatever comes. -/
structure Served (p : Parser) (m : Moment) : Prop where
  rule {r : RuleId} {outer : List Frame} {s : RunState} :
    m = .calling r outer s → ∃ rule, p.grammar.get? r = some rule
  entry : ∀ f ∈ m.active, ∀ task ∈ f.tasks, ∀ key, task.key? f.rule = some key →
    ∃ x, p.predictor? key = some x
  alternative : ∀ f ∈ m.active, ∀ alternatives i description,
    Task.node (.alternation alternatives i description) ∈ f.tasks →
    ∀ s branch, p.predict ⟨f.rule, ⟨.choice, i⟩⟩ s = some branch → branch < alternatives.length

theorem Within.served (hp : p.WellFormed) {m : Moment} (h : m.Within p.grammar) : m.Served p where
  rule hm := ⟨_, List.getElem?_eq_getElem (h.calling hm)⟩
  entry f hf task htask key hkey := by
    obtain ⟨n, hn⟩ := (h.active f hf task htask).exists_decisionPoint hkey
    obtain ⟨x, hx, -⟩ := hp.exists_predictor hn
    exact ⟨x, hx⟩
  alternative f hf alternatives i description htask s branch hbranch := by
    have hpoint : (⟨f.rule, ⟨.choice, i⟩⟩, .alternation alternatives i description) ∈
        p.grammar.decisionPoints :=
      Grammar.mem_decisionPoints.mpr ⟨h.active f hf _ htask, rfl⟩
    exact hp.predict_lt hpoint hbranch

end Moment

namespace Draft

variable {d : Draft} {p : Parser}

theorem wellFormed (h : d.parser = .ok p) : p.WellFormed where
  fits n hn := by
    obtain ⟨r, hn⟩ := Grammar.mem_nodes_iff.mp hn
    exact (parser_ready h).proper.fits hn
  callSites r rule hr := callSites_nodup (parser_parts h).1 hr
  keys := by
    rw [← Grammar.forks_keys]
    exact grammar_keys (parser_parts h).1
  table := (parser_eq_ok h).2.2.2.shape
  puts := by
    obtain ⟨hg, -, -, htable⟩ := parser_parts h
    obtain ⟨ds, hds, htable⟩ := Grammar.table_eq_ok htable
    have hkeys : (ds.map (·.key)).Nodup := by
      have hnodup := grammar_keys hg
      rw [← (parser_eq_ok h).2.2.2.keys, (tableOf_spec htable).2, List.map_map] at hnodup
      exact hnodup
    refine ⟨ds, hds, ?_⟩
    rw [PredictionTable.foldl_put (by simpa using hkeys), (tableOf_spec htable).2, List.nil_append]

/-- Every parser is well formed. So all its decisions have predictors, which name none but their
branches, and on any tokens, with any nesting limit and with none, a run that starts with a rule of
the grammar finds whatever it looks up, at each of its moments. -/
theorem parser_wellFormed (h : d.parser = .ok p) :
    p.WellFormed ∧
    (∀ key n, (key, n) ∈ p.grammar.decisionPoints →
      (∃ f, p.predictor? key = some f) ∧
      ∀ s i, p.predict key s = some i → i < n.branchCount) ∧
    ∀ r < p.grammar.size, ∀ w limit k, ((p.step limit)^[k] (.start r w)).Served p := by
  have hp := wellFormed h
  refine ⟨hp, fun key n hn => ?_, fun r hr w limit k => ?_⟩
  · obtain ⟨f, hf, -⟩ := hp.exists_predictor hn
    exact ⟨⟨f, hf⟩, fun s i hi => hp.predict_lt hn hi⟩
  · have hwithin : ((p.step limit)^[k] (.start r w)).Within p.grammar :=
      (Moment.within_start hr w).iterate (parser_ready h).proper k
    exact hwithin.served hp

/-- Any number of commas before an item. -/
def itemChoice : Draft :=
  { itemList with
    rules := [⟨"item", some [.choice "an item" [[.token 0], [.token 2, .call 1 0]]]⟩] }

def itemChoiceParser : Parser where
  vocabulary := itemList.vocabulary
  grammar := ⟨[⟨"item", .alternation
    [.terminal 0 1, .sequence [.terminal 2 1, .ruleRef 0 1]] 1 "an item"⟩]⟩
  table := [(⟨0, ⟨.choice, 1⟩⟩, ⟨1, [⟨[[[0, 1]]], [0]⟩, ⟨[[[2]]], [2]⟩]⟩)]
  config := {}

theorem itemChoice_accepted : itemChoice.parser = .ok itemChoiceParser := by
  have hg : itemChoice.grammar = .ok itemChoiceParser.grammar := rfl
  have htable : itemChoiceParser.grammar.table itemChoice.vocabulary itemChoice.config.lookahead =
      .ok itemChoiceParser.table := eq_ok_of_toOption (by decide +kernel)
  rw [parser_of_grammar hg, htable]
  rfl

theorem itemChoice_wellFormed :
    itemChoiceParser.WellFormed ∧
    (∀ s i, itemChoiceParser.predict ⟨0, ⟨.choice, 1⟩⟩ s = some i → i < 2) ∧
    ∀ w k, ((itemChoiceParser.step none)^[k] (.start 0 w)).Served itemChoiceParser := by
  obtain ⟨hp, hdecisions, hruns⟩ := parser_wellFormed itemChoice_accepted
  refine ⟨hp, ?_, fun w k => hruns 0 (by decide) w none k⟩
  exact (hdecisions ⟨0, ⟨.choice, 1⟩⟩ _ (List.mem_singleton.mpr rfl)).2

end Draft

end StrongLL
