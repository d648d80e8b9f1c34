import Mathlib.Data.List.Nodup
import StrongLL.Proofs.Contexts

/-!
# StrongLL.Proofs.Recording

What the recording of a grammar guarantees:

* `Numbering.Records`    — the nodes made from some steps, when the numbering went from one state to
  another: they are proper unless a defect was found, their decisions took the numbers between, and
  their call sites are noted.
* `Step.records_nodes`   — the steps of a body keep that.
* `Draft.grammar_proper` — a finished grammar is proper.
* `Grammar.decisionPoints` — the decisions of a grammar in the order of its nodes, with their keys.
* `Draft.grammar_keys`   — no two decisions of a finished grammar have one key.
* `Draft.callSites_nodup` — and within a rule no two invocations have one target and one index.
-/

namespace StrongLL

namespace Node

/-- The call site a node is, if it is one: the rule it invokes and its index. -/
def callSite? : Node → Option (RuleId × Nat)
  | ruleRef r i => some (r, i)
  | terminal .. | sequence _ | optional .. | repetition .. | alternation .. => none

/-- The number of ways in from a decision point. -/
def branchCount : Node → Nat
  | alternation alternatives _ _ => alternatives.length
  | optional .. | repetition .. => 1
  | terminal .. | sequence _ | ruleRef .. => 0

/-- The decision points among some nodes and all within them. -/
def decisionsOf (ns : List Node) : List Occurrence := (preorderAll ns).filterMap (·.occurrence?)

/-- The call sites among some nodes and all within them. -/
def callSitesOf (ns : List Node) : List (RuleId × Nat) := (preorderAll ns).filterMap (·.callSite?)

theorem preorderAll_append (ns ms : List Node) :
    preorderAll (ns ++ ms) = preorderAll ns ++ preorderAll ms := by
  induction ns with
  | nil => simp [preorderAll]
  | cons n ns ih => simp [preorderAll, ih]

theorem decisionsOf_append (ns ms : List Node) :
    decisionsOf (ns ++ ms) = decisionsOf ns ++ decisionsOf ms := by
  simp [decisionsOf, preorderAll_append]

theorem callSitesOf_append (ns ms : List Node) :
    callSitesOf (ns ++ ms) = callSitesOf ns ++ callSitesOf ms := by
  simp [callSitesOf, preorderAll_append]

@[simp] theorem decisionsOf_nil : decisionsOf [] = [] := rfl

/-- Whether some nodes stand alone or make a sequence shows in nothing but that sequence. -/
theorem filterMap_ofParts {α : Type} {f : Node → Option α}
    (hf : ∀ parts, f (.sequence parts) = none) (ns : List Node) :
    (preorderAll [ofParts ns]).filterMap f = (preorderAll ns).filterMap f := by
  unfold ofParts
  split
  · rfl
  · simp [preorderAll, preorder, hf]

theorem decisionsOf_ofParts (ns : List Node) : decisionsOf [ofParts ns] = decisionsOf ns :=
  filterMap_ofParts (fun _ => rfl) ns

theorem callSitesOf_ofParts (ns : List Node) : callSitesOf [ofParts ns] = callSitesOf ns :=
  filterMap_ofParts (fun _ => rfl) ns

theorem decisionsOf_body (body : Node) :
    decisionsOf [body] = body.preorder.filterMap (·.occurrence?) := by
  simp [decisionsOf, preorderAll]

theorem callSitesOf_body (body : Node) :
    callSitesOf [body] = body.preorder.filterMap (·.callSite?) := by
  simp [callSitesOf, preorderAll]

theorem proper_ofParts {types rules : Nat} {ns : List Node}
    (h : ∀ n ∈ ns, n.Proper types rules) : (ofParts ns).Proper types rules := by
  unfold ofParts
  split
  · exact h _ (by simp)
  · exact .sequence h

end Node

open Node

namespace Numbering

/-- How many decisions of a kind have a number. -/
def count (s : Numbering) (d : Construct) : Nat := s.decisions.count d

theorem report_defects_ne_nil (s : Numbering) (x : Defect) : (s.report x).defects ≠ [] := by
  simp [report]

theorem count_draw (s : Numbering) (d c : Construct) :
    (s.draw d).2.count c = if c = d then s.count c + 1 else s.count c := by
  unfold draw count
  rw [List.count_cons]
  by_cases h : d = c
  · subst h
    simp
  · have hne : ¬ c = d := fun e => h e.symm
    simp [h, hne]

/-- The nodes `ns` were made while the numbering went from `s` to `s'`. -/
structure Records (c : RuleScope) (s : Numbering) (ns : List Node) (s' : Numbering) : Prop where
  clean : s'.defects = [] → s.defects = [] ∧ ∀ n ∈ ns, n.Proper c.vocabulary.size c.ruleCount
  count_le (d : Construct) : s.count d ≤ s'.count d
  bounds : ∀ o ∈ decisionsOf ns, s.count o.construct < o.index ∧ o.index ≤ s'.count o.construct
  nodup : (decisionsOf ns).Nodup
  calls : s'.defects = [] → s'.calls = (callSitesOf ns).reverse ++ s.calls
  calls_nodup : s.calls.Nodup → s'.calls.Nodup

namespace Records

variable {c : RuleScope} {s s' s'' : Numbering} {ns ms : List Node}

theorem nil : Records c s [] s where
  clean h := ⟨h, by simp⟩
  count_le _ := Nat.le_refl _
  bounds := by simp
  nodup := by simp
  calls _ := rfl
  calls_nodup h := h

theorem append (h : Records c s ns s') (h' : Records c s' ms s'') :
    Records c s (ns ++ ms) s'' where
  clean hclean := by
    obtain ⟨hmid, hms⟩ := h'.clean hclean
    obtain ⟨hstart, hns⟩ := h.clean hmid
    refine ⟨hstart, fun n hn => ?_⟩
    obtain hn | hn := List.mem_append.mp hn
    · exact hns n hn
    · exact hms n hn
  count_le d := Nat.le_trans (h.count_le d) (h'.count_le d)
  bounds := by
    intro o ho
    rw [decisionsOf_append] at ho
    have h₁ := h.count_le o.construct
    have h₂ := h'.count_le o.construct
    obtain ho | ho := List.mem_append.mp ho
    · have := h.bounds o ho
      omega
    · have := h'.bounds o ho
      omega
  nodup := by
    rw [decisionsOf_append]
    refine List.nodup_append.mpr ⟨h.nodup, h'.nodup, ?_⟩
    rintro o ho o' ho' rfl
    have h₁ := (h.bounds o ho).2
    have h₂ := (h'.bounds o ho').1
    omega
  calls hclean := by
    rw [h'.calls hclean, h.calls (h'.clean hclean).1, callSitesOf_append, List.reverse_append,
      List.append_assoc]
  calls_nodup hnodup := h'.calls_nodup (h.calls_nodup hnodup)

theorem ofParts (h : Records c s ns s') : Records c s [.ofParts ns] s' where
  clean hclean := by
    obtain ⟨hstart, hns⟩ := h.clean hclean
    refine ⟨hstart, fun n hn => ?_⟩
    obtain rfl := List.mem_singleton.mp hn
    exact proper_ofParts hns
  count_le := h.count_le
  bounds := by
    rw [decisionsOf_ofParts]
    exact h.bounds
  nodup := by
    rw [decisionsOf_ofParts]
    exact h.nodup
  calls := by
    rw [callSitesOf_ofParts]
    exact h.calls
  calls_nodup := h.calls_nodup

/-- A node without decisions leaves the numbers alone. -/
theorem leaf {n : Node} (hnone : decisionsOf [n] = []) (hcount : ∀ d, s'.count d = s.count d)
    (hclean : s'.defects = [] → s.defects = [] ∧ n.Proper c.vocabulary.size c.ruleCount)
    (hcalls : s'.defects = [] → s'.calls = (callSitesOf [n]).reverse ++ s.calls)
    (hnodup : s.calls.Nodup → s'.calls.Nodup) : Records c s [n] s' where
  clean h := by simpa using hclean h
  count_le d := Nat.le_of_eq (hcount d).symm
  bounds := by simp [hnone]
  nodup := by simp [hnone]
  calls := hcalls
  calls_nodup := hnodup

/-- A decision takes its number before the bodies in it take theirs. -/
theorem decision {d : Construct} {n : Node} (h : Records c (s.draw d).2 ns s')
    (hcount : ∀ e, s''.count e = s'.count e)
    (hn : decisionsOf [n] = ⟨d, s.count d + 1⟩ :: decisionsOf ns)
    (hsites : callSitesOf [n] = callSitesOf ns) (hcalls : s''.calls = s'.calls)
    (hclean : s''.defects = [] → s'.defects = [] ∧
      ((∀ m ∈ ns, m.Proper c.vocabulary.size c.ruleCount) →
        n.Proper c.vocabulary.size c.ruleCount)) : Records c s [n] s'' where
  clean hend := by
    obtain ⟨hmid, hproper⟩ := hclean hend
    obtain ⟨hstart, hns⟩ := h.clean hmid
    exact ⟨hstart, by simpa using hproper hns⟩
  count_le e := by
    have hle := h.count_le e
    rw [hcount]
    rw [count_draw] at hle
    split at hle <;> omega
  bounds := by
    rw [hn]
    intro o ho
    have hle := h.count_le o.construct
    rw [hcount]
    rw [count_draw] at hle
    obtain rfl | ho := List.mem_cons.mp ho
    · rw [if_pos rfl] at hle
      exact ⟨Nat.lt_succ_self _, hle⟩
    · have hlt := h.bounds o ho
      rw [count_draw] at hlt
      split at hlt <;> omega
  nodup := by
    rw [hn]
    refine List.nodup_cons.mpr ⟨fun hmem => ?_, h.nodup⟩
    have hlt := (h.bounds _ hmem).1
    rw [count_draw, if_pos rfl] at hlt
    exact Nat.lt_irrefl _ hlt
  calls hend := by
    rw [hcalls, hsites]
    exact h.calls (hclean hend).1
  calls_nodup hnodup := by
    rw [hcalls]
    exact h.calls_nodup hnodup

end Records

theorem records_token (c : RuleScope) (t : TypeId) (s : Numbering) :
    Records c s [(s.token c t).1] (s.token c t).2 := by
  unfold token
  have hcalls : (if t < c.vocabulary.size then s else s.report (.unknownType c.rule)).calls =
      s.calls := by split <;> rfl
  refine .leaf rfl ?_ ?_ (fun _ => hcalls) fun hnodup => ?_
  · intro d
    dsimp only
    split <;> rfl
  · intro hclean
    dsimp only at hclean
    by_cases ht : t < c.vocabulary.size
    · rw [if_pos ht] at hclean
      exact ⟨hclean, .terminal ht⟩
    · rw [if_neg ht] at hclean
      exact absurd hclean (report_defects_ne_nil s _)
  · show List.Nodup (if t < c.vocabulary.size then s else s.report (.unknownType c.rule)).calls
    rw [hcalls]
    exact hnodup

theorem records_call (c : RuleScope) (i : Nat) (r : RuleId) (s : Numbering) :
    Records c s [(s.call c i r).1] (s.call c i r).2 := by
  unfold call
  refine .leaf rfl ?_ ?_ ?_ ?_
  · intro d
    dsimp only
    split
    · rfl
    · split <;> rfl
  · intro hclean
    dsimp only at hclean
    by_cases hr : c.ruleCount ≤ r
    · rw [if_pos hr] at hclean
      exact absurd hclean (report_defects_ne_nil s _)
    · rw [if_neg hr] at hclean
      split at hclean
      · exact absurd hclean (report_defects_ne_nil s _)
      · exact ⟨hclean, .ruleRef (Nat.lt_of_not_le hr)⟩
  · -- a call site is noted unless it is reported
    intro hclean
    dsimp only at hclean ⊢
    split at hclean
    · exact absurd hclean (report_defects_ne_nil s _)
    · rename_i hr
      split at hclean
      · exact absurd hclean (report_defects_ne_nil s _)
      · rename_i hnew
        rw [if_neg hr, if_neg hnew]
        rfl
  · intro hnodup
    dsimp only
    split
    · exact hnodup
    · split
      · exact hnodup
      · rename_i hnew
        exact List.nodup_cons.mpr ⟨hnew, hnodup⟩

end Numbering

namespace Step

mutual

theorem records_node (c : RuleScope) :
    ∀ (step : Step) (s : Numbering), Numbering.Records c s [(step.node c s).1] (step.node c s).2
  | token t, s => Numbering.records_token c t s
  | call i r, s => Numbering.records_call c i r s
  | optional body, s => by
    unfold node
    have h := (records_nodes c body (s.draw .optional).2).ofParts
    refine h.decision (fun _ => rfl) ?_ ?_ rfl fun hclean => ⟨hclean, fun hbody => ?_⟩
    · rw [decisionsOf_body, decisionsOf_body]
      rfl
    · rw [callSitesOf_body, callSitesOf_body]
      rfl
    · exact .optional (hbody _ (by simp))
  | many body, s => by
    unfold node
    have h := (records_nodes c body (s.draw .many).2).ofParts
    refine h.decision (fun _ => rfl) ?_ ?_ rfl fun hclean => ⟨hclean, fun hbody => ?_⟩
    · rw [decisionsOf_body, decisionsOf_body]
      rfl
    · rw [callSitesOf_body, callSitesOf_body]
      rfl
    · exact .repetition (hbody _ (by simp))
  | atLeastOne body, s => by
    unfold node
    have h := (records_nodes c body (s.draw .atLeastOne).2).ofParts
    refine h.decision (fun _ => rfl) ?_ ?_ rfl fun hclean => ⟨hclean, fun hbody => ?_⟩
    · rw [decisionsOf_body, decisionsOf_body]
      rfl
    · rw [callSitesOf_body, callSitesOf_body]
      rfl
    · exact .repetition (hbody _ (by simp))
  | choice description alternatives, s => by
    unfold node
    have h := records_bodyNodes c alternatives (s.draw .choice).2
    refine h.decision ?_ ?_ ?_ ?_ ?_
    · intro e
      dsimp only
      split <;> rfl
    · rw [decisionsOf_body]
      rfl
    · rw [callSitesOf_body]
      rfl
    · dsimp only
      split <;> rfl
    · intro hclean
      dsimp only at hclean
      split at hclean
      · exact absurd hclean (Numbering.report_defects_ne_nil _ _)
      · rename_i hne
        exact ⟨hclean, fun hbodies => .alternation (by simpa using hne) hbodies⟩

theorem records_nodes (c : RuleScope) :
    ∀ (body : List Step) (s : Numbering),
      Numbering.Records c s (nodes c body s).1 (nodes c body s).2
  | [], s => .nil
  | step :: rest, s => by
    unfold nodes
    exact (records_node c step s).append (records_nodes c rest _)

theorem records_bodyNodes (c : RuleScope) :
    ∀ (bodies : List (List Step)) (s : Numbering),
      Numbering.Records c s (bodyNodes c bodies s).1 (bodyNodes c bodies s).2
  | [], s => .nil
  | body :: rest, s => by
    unfold bodyNodes
    exact (records_nodes c body s).ofParts.append (records_bodyNodes c rest _)

end

/-- A body without defects is proper, and its decisions have different numbers, and so have its
invocations of one rule. -/
theorem ruleNode_spec {c : RuleScope} {body : List Step} (h : (ruleNode c body).2 = []) :
    (ruleNode c body).1.Proper c.vocabulary.size c.ruleCount ∧
      ((ruleNode c body).1.preorder.filterMap (·.occurrence?)).Nodup ∧
      ((ruleNode c body).1.preorder.filterMap (·.callSite?)).Nodup := by
  have hrec := (records_nodes c body .empty).ofParts
  refine ⟨(hrec.clean h).2 _ (by simp [ruleNode]), ?_, ?_⟩
  · rw [← decisionsOf_body]
    exact hrec.nodup
  · have hcalls := hrec.calls_nodup List.nodup_nil
    rw [hrec.calls h] at hcalls
    rw [← callSitesOf_body]
    exact List.nodup_reverse.mp (List.nodup_append.mp hcalls).1

end Step

namespace Draft

variable {d : Draft} {g : Grammar}

theorem grammar_eq_ok (h : d.grammar = .ok g) :
    d.defects = [] ∧ g = ⟨d.finishedRules.map (·.1)⟩ := by
  unfold grammar at h
  split at h
  · rename_i hempty
    exact ⟨by simpa using hempty, (Except.ok.inj h).symm⟩
  · cases h

theorem lookahead_pos (h : d.grammar = .ok g) : 0 < d.config.lookahead := by
  have hdefects := (grammar_eq_ok h).1
  by_contra hzero
  have hzero : d.config.lookahead = 0 := by omega
  simp [defects, hzero] at hdefects

/-- Every rule of a finished grammar was made without defects. -/
theorem exists_body (h : d.grammar = .ok g) {id : RuleId} {r : Rule} (hr : g.get? id = some r) :
    ∃ body, r.body = (Step.ruleNode ⟨d.vocabulary, d.rules.length, id⟩ body).1 ∧
      (Step.ruleNode ⟨d.vocabulary, d.rules.length, id⟩ body).2 = [] := by
  obtain ⟨hdefects, rfl⟩ := grammar_eq_ok h
  have hclean : ∀ x ∈ d.finishedRules, x.2 = [] := by
    have hnil : d.finishedRules.flatMap (·.2) = [] := by
      unfold defects at hdefects
      exact (List.append_eq_nil_iff.mp hdefects).2
    simpa using hnil
  obtain ⟨x, hx, rfl⟩ : ∃ x, d.finishedRules[id]? = some x ∧ x.1 = r := by
    simpa [Grammar.get?] using hr
  have hnone := hclean x (List.mem_of_getElem? hx)
  obtain ⟨draft, -, rfl⟩ : ∃ draft, d.rules[id]? = some draft ∧ d.finishRule id draft = x := by
    simpa [finishedRules] using hx
  unfold finishRule at hnone ⊢
  cases hbody : draft.body with
  | none => simp [hbody] at hnone
  | some body =>
    rw [hbody] at hnone
    exact ⟨body, rfl, hnone⟩

theorem size_eq (h : d.grammar = .ok g) : g.size = d.rules.length := by
  obtain ⟨-, rfl⟩ := grammar_eq_ok h
  simp [Grammar.size, finishedRules]

theorem grammar_proper (h : d.grammar = .ok g) : g.Proper d.vocabulary.size := by
  intro id r hr
  obtain ⟨body, hbody, hclean⟩ := exists_body h hr
  rw [hbody, size_eq h]
  exact (Step.ruleNode_spec hclean).1

/-- Within every rule, all decisions have different numbers. -/
theorem occurrences_nodup (h : d.grammar = .ok g) {id : RuleId} {r : Rule}
    (hr : g.get? id = some r) : (r.body.preorder.filterMap (·.occurrence?)).Nodup := by
  obtain ⟨body, hbody, hclean⟩ := exists_body h hr
  rw [hbody]
  exact (Step.ruleNode_spec hclean).2.1

/-- Within every rule, no two invocations of a rule have one index. -/
theorem callSites_nodup (h : d.grammar = .ok g) {id : RuleId} {r : Rule}
    (hr : g.get? id = some r) : (r.body.preorder.filterMap (·.callSite?)).Nodup := by
  obtain ⟨body, hbody, hclean⟩ := exists_body h hr
  rw [hbody]
  exact (Step.ruleNode_spec hclean).2.2

end Draft

namespace Grammar

variable {g : Grammar}

/-- The decisions in the order of rules and within a rule each before those nested in it. -/
def decisionPoints (g : Grammar) : List (DecisionKey × Node) :=
  g.rules.zipIdx.flatMap fun (r, id) =>
    r.body.preorder.filterMap fun n => n.occurrence?.map fun o => (⟨id, o⟩, n)

/-- Nodes are visited in one order with what follows them and without. -/
theorem forks_shape : g.forks.map (fun x => (x.1, x.2.branches.length)) =
    g.decisionPoints.map fun x => (x.1, x.2.branchCount) := by
  unfold forks contexts decisionPoints
  rw [List.map_filterMap, List.filterMap_flatMap, List.map_flatMap]
  congr 1
  funext ⟨r, id⟩
  dsimp only
  rw [← Node.contexts_map_fst [], List.filterMap_map, List.filterMap_map, List.map_filterMap]
  congr 1
  funext ⟨n, after⟩
  cases n <;> simp [Node.occurrence?, Node.fork?, Node.branchCount]

theorem forks_keys : g.forks.map (·.1) = g.decisionPoints.map (·.1) := by
  have hshape := congrArg (List.map Prod.fst) (forks_shape (g := g))
  simpa only [List.map_map, Function.comp_def] using hshape

/-- The keys of the decisions, rule by rule. -/
theorem forks_map_fst : g.forks.map (·.1) =
    g.rules.zipIdx.flatMap fun (r, id) =>
      (r.body.preorder.filterMap (·.occurrence?)).map (⟨id, ·⟩) := by
  rw [forks_keys, decisionPoints, List.map_flatMap]
  congr 1
  funext ⟨r, id⟩
  simp only [List.map_filterMap, Option.map_map, Function.comp_def]

theorem keys_nodup
    (h : ∀ id r, g.get? id = some r → (r.body.preorder.filterMap (·.occurrence?)).Nodup) :
    (g.forks.map (·.1)).Nodup := by
  rw [forks_map_fst]
  refine List.nodup_flatMap.mpr ⟨?_, ?_⟩
  · rintro ⟨r, id⟩ hmem
    refine (h id r (List.mem_zipIdx_iff_getElem?.mp hmem)).map fun a b hab => ?_
    exact (DecisionKey.mk.inj hab).2
  · -- the keys of different rules differ in the rule
    have hids : g.rules.zipIdx.Pairwise fun x y => x.2 ≠ y.2 := by
      have hrange : (g.rules.zipIdx.map (·.2)).Nodup := by
        rw [List.zipIdx_map_snd]
        exact List.nodup_range'
      exact List.pairwise_map.mp hrange
    refine hids.imp ?_
    rintro ⟨r, id⟩ ⟨r', id'⟩ hne key hkey hkey'
    obtain ⟨o, -, rfl⟩ := List.mem_map.mp hkey
    obtain ⟨o', -, heq⟩ := List.mem_map.mp hkey'
    exact hne (DecisionKey.mk.inj heq).1.symm

end Grammar

theorem Draft.grammar_keys {d : Draft} {g : Grammar} (h : d.grammar = .ok g) :
    (g.forks.map (·.1)).Nodup :=
  Grammar.keys_nodup fun _ _ hr => occurrences_nodup h hr

end StrongLL
