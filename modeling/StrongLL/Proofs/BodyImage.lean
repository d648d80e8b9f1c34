import StrongLL.Grammar.Recorder
import StrongLL.Proofs.Readings
import StrongLL.Proofs.Recording

/-!
# StrongLL.Proofs.BodyImage

The node of a body says what its author said:

* `Step.run_record`      — to record a step adds its node to the innermost body and leaves those
  around it alone, so that `Step.recordRule_eq` gives the node of the rule.
* `Node.StandsFor`       — a node has the shape of a step, whatever its numbers are.
* `Numbering.CountsUp`   — some nodes took the next numbers in their order, each kind of decision
  and each token type for itself.
* `Step.Reads`           — what the steps themselves read, one after the other.
* `Step.ruleNode_faithful` — the node of a rule has the shape of its body, is numbered from 1 on
  without gaps, and reads what the body reads.
-/

namespace StrongLL

/-! ## Recording step by step -/

namespace Step

variable {c : RuleScope}

mutual

theorem run_record (c : RuleScope) :
    ∀ (step : Step) (frame : List Node) (outer : List (List Node)) (s : Numbering),
      step.record c ⟨frame :: outer, s⟩ =
        ⟨(frame ++ [(step.node c s).1]) :: outer, (step.node c s).2⟩
  | token t, frame, outer, s => rfl
  | call i r, frame, outer, s => rfl
  | optional body, frame, outer, s => by
    simp only [record, Recorder.take, Recorder.capture, Recorder.begin, run_recordAll c body,
      Recorder.finish, Recorder.push, List.nil_append, node]
  | many body, frame, outer, s => by
    simp only [record, Recorder.take, Recorder.capture, Recorder.begin, run_recordAll c body,
      Recorder.finish, Recorder.push, List.nil_append, node]
  | atLeastOne body, frame, outer, s => by
    simp only [record, Recorder.take, Recorder.capture, Recorder.begin, run_recordAll c body,
      Recorder.finish, Recorder.push, List.nil_append, node]
  | choice description alternatives, frame, outer, s => by
    simp only [record, Recorder.take, run_recordAlternatives c alternatives, node]
    split <;> rfl

theorem run_recordAll (c : RuleScope) :
    ∀ (body : List Step) (frame : List Node) (outer : List (List Node)) (s : Numbering),
      recordAll c body ⟨frame :: outer, s⟩ =
        ⟨(frame ++ (nodes c body s).1) :: outer, (nodes c body s).2⟩
  | [], frame, outer, s => by simp only [recordAll, nodes, List.append_nil]
  | step :: rest, frame, outer, s => by
    simp only [recordAll, run_record c step, run_recordAll c rest, nodes, List.append_assoc,
      List.singleton_append]

theorem run_recordAlternatives (c : RuleScope) :
    ∀ (bodies : List (List Step)) (frames : List (List Node)) (s : Numbering),
      recordAlternatives c bodies ⟨frames, s⟩ =
        ((bodyNodes c bodies s).1, ⟨frames, (bodyNodes c bodies s).2⟩)
  | [], frames, s => rfl
  | body :: rest, frames, s => by
    simp only [recordAlternatives, Recorder.capture, Recorder.begin, run_recordAll c body,
      Recorder.finish, run_recordAlternatives c rest, List.nil_append, bodyNodes]

end

theorem recordRule_eq (c : RuleScope) (body : List Step) : recordRule c body = ruleNode c body := by
  simp only [recordRule, Recorder.start, run_recordAll, Recorder.finish, List.nil_append, ruleNode]

end Step

/-! ## The shape of a body -/

mutual

/-- The node is made as the step says. -/
inductive Node.StandsFor : Node → Step → Prop where
  | token {t : TypeId} {k : Nat} : Node.StandsFor (.terminal t k) (.token t)
  | call {r : RuleId} {i : Nat} : Node.StandsFor (.ruleRef r i) (.call i r)
  | optional {n : Node} {body : List Step} {k : Nat} :
      n.StandsForBody body → Node.StandsFor (.optional n k) (.optional body)
  | many {n : Node} {body : List Step} {k : Nat} :
      n.StandsForBody body → Node.StandsFor (.repetition n k false) (.many body)
  | atLeastOne {n : Node} {body : List Step} {k : Nat} :
      n.StandsForBody body → Node.StandsFor (.repetition n k true) (.atLeastOne body)
  | choice {ns : List Node} {alternatives : List (List Step)} {k : Nat} {description : String} :
      List.Forall₂ Node.StandsForBody ns alternatives →
      Node.StandsFor (.alternation ns k description) (.choice description alternatives)

/-- A lone step is its node, and any other number of steps a sequence. -/
inductive Node.StandsForBody : Node → List Step → Prop where
  | lone {n : Node} {step : Step} : n.StandsFor step → Node.StandsForBody n [step]
  | sequence {ns : List Node} {body : List Step} :
      body.length ≠ 1 → List.Forall₂ Node.StandsFor ns body →
      Node.StandsForBody (.sequence ns) body

end

theorem Node.standsForBody_ofParts {ns : List Node} {body : List Step}
    (h : List.Forall₂ Node.StandsFor ns body) : (ofParts ns).StandsForBody body := by
  cases h with
  | nil => exact .sequence (by simp) .nil
  | cons hn hrest =>
    cases hrest with
    | nil => exact .lone hn
    | cons hm hrest => exact .sequence (by simp) (.cons hn (.cons hm hrest))

namespace Step

mutual

theorem node_standsFor (c : RuleScope) :
    ∀ (step : Step) (s : Numbering), (step.node c s).1.StandsFor step
  | token _, _ => .token
  | call _ _, _ => .call
  | optional body, _ => .optional (Node.standsForBody_ofParts (nodes_standFor c body _))
  | many body, _ => .many (Node.standsForBody_ofParts (nodes_standFor c body _))
  | atLeastOne body, _ => .atLeastOne (Node.standsForBody_ofParts (nodes_standFor c body _))
  | choice _ alternatives, _ => .choice (bodyNodes_standFor c alternatives _)

theorem nodes_standFor (c : RuleScope) :
    ∀ (body : List Step) (s : Numbering), List.Forall₂ Node.StandsFor (nodes c body s).1 body
  | [], _ => .nil
  | step :: rest, s => .cons (node_standsFor c step s) (nodes_standFor c rest _)

theorem bodyNodes_standFor (c : RuleScope) :
    ∀ (bodies : List (List Step)) (s : Numbering),
      List.Forall₂ Node.StandsForBody (bodyNodes c bodies s).1 bodies
  | [], _ => .nil
  | body :: rest, s =>
    .cons (Node.standsForBody_ofParts (nodes_standFor c body s)) (bodyNodes_standFor c rest _)

end

end Step

/-! ## Numbers -/

/-- What is counted within a rule: the tokens of a type or the decisions of a kind. -/
inductive Counter where
  | tokens (type : TypeId)
  | decisions (kind : Construct)
deriving DecidableEq

namespace Node

/-- The number that a node has among those that are counted. -/
def number? : Counter → Node → Option Nat
  | .tokens t, terminal t' i => if t' = t then some i else none
  | .decisions d, n => (n.occurrence?.filter (·.construct = d)).map (·.index)
  | .tokens _, _ => none

/-- The numbers of some nodes and all within them, each before those of its parts. -/
def numbersOf (k : Counter) (ns : List Node) : List Nat := (preorderAll ns).filterMap (·.number? k)

@[simp] theorem numbersOf_nil (k : Counter) : numbersOf k [] = [] := rfl

theorem numbersOf_append (k : Counter) (ns ms : List Node) :
    numbersOf k (ns ++ ms) = numbersOf k ns ++ numbersOf k ms := by
  simp [numbersOf, preorderAll_append]

theorem numbersOf_ofParts (k : Counter) (ns : List Node) :
    numbersOf k [ofParts ns] = numbersOf k ns :=
  filterMap_ofParts (fun _ => by cases k <;> rfl) ns

end Node

open Node

namespace Numbering

/-- How many numbers have been given. -/
def drawn (s : Numbering) : Counter → Nat
  | .tokens t => s.tokens.count t
  | .decisions d => s.decisions.count d

theorem drawn_draw (s : Numbering) (d : Construct) (k : Counter) :
    (s.draw d).2.drawn k = s.drawn k + if k = .decisions d then 1 else 0 := by
  cases k with
  | tokens t => simp [draw, drawn]
  | decisions e =>
    have hcount := count_draw s d e
    unfold count at hcount
    rw [drawn, hcount]
    by_cases h : e = d <;> simp [drawn, h]

/-- A token takes the next number of its type, be the type known or not. -/
theorem token_eq (c : RuleScope) (t : TypeId) (s : Numbering) :
    s.token c t = (.terminal t (s.tokens.count t + 1),
      { s with
        tokens := t :: s.tokens
        defects := s.defects ++ if t < c.vocabulary.size then [] else [.unknownType c.rule] }) := by
  unfold token
  by_cases ht : t < c.vocabulary.size <;> simp [ht, report]

theorem drawn_token (c : RuleScope) (t : TypeId) (s : Numbering) (k : Counter) :
    (s.token c t).2.drawn k = s.drawn k + if k = .tokens t then 1 else 0 := by
  rw [token_eq]
  cases k with
  | tokens u =>
    by_cases h : u = t
    · simp [drawn, h]
    · have hne : ¬ t = u := fun heq => h heq.symm
      simp [drawn, h, hne]
  | decisions e => simp [drawn]

theorem drawn_call (c : RuleScope) (i : Nat) (r : RuleId) (s : Numbering) (k : Counter) :
    (s.call c i r).2.drawn k = s.drawn k := by
  unfold call
  dsimp only
  split
  · cases k <;> rfl
  · split <;> cases k <;> rfl

/-- While the numbering went from `s` to `s'`, the nodes took the next numbers in their order. -/
def CountsUp (s : Numbering) (ns : List Node) (s' : Numbering) : Prop :=
  ∀ k, ∃ m, s'.drawn k = s.drawn k + m ∧ numbersOf k ns = List.range' (s.drawn k + 1) m

namespace CountsUp

variable {s s' s'' : Numbering} {ns ms : List Node}

theorem nil : CountsUp s [] s := fun _ => ⟨0, rfl, rfl⟩

theorem append (h : CountsUp s ns s') (h' : CountsUp s' ms s'') : CountsUp s (ns ++ ms) s'' := by
  intro k
  obtain ⟨m, hm, hns⟩ := h k
  obtain ⟨m', hm', hms⟩ := h' k
  refine ⟨m + m', by omega, ?_⟩
  rw [numbersOf_append, hns, hms, hm, ← List.range'_append_1, Nat.add_right_comm]

theorem ofParts (h : CountsUp s ns s') : CountsUp s [.ofParts ns] s' := by
  intro k
  rw [numbersOf_ofParts]
  exact h k

/-- A node takes its own number before its parts take theirs. -/
theorem node {n : Node} {own : Counter} {mid : Numbering} (h : CountsUp mid ns s')
    (hmid : ∀ k, mid.drawn k = s.drawn k + if k = own then 1 else 0)
    (hend : ∀ k, s''.drawn k = s'.drawn k)
    (hn : ∀ k, numbersOf k [n] = (if k = own then [s.drawn own + 1] else []) ++ numbersOf k ns) :
    CountsUp s [n] s'' := by
  intro k
  obtain ⟨m, hm, hns⟩ := h k
  rw [hn, hend, hm, hns, hmid]
  split
  · rename_i hk
    subst hk
    exact ⟨m + 1, by omega, rfl⟩
  · exact ⟨m, rfl, rfl⟩

end CountsUp

end Numbering

namespace Step

theorem numbersOf_terminal {k : Counter} {t : TypeId} {i : Nat} :
    numbersOf k [.terminal t i] = if k = .tokens t then [i] else [] := by
  cases k with
  | tokens u =>
    by_cases h : t = u
    · simp [numbersOf, preorderAll, preorder, number?, h]
    · have hne : ¬ u = t := fun heq => h heq.symm
      simp [numbersOf, preorderAll, preorder, number?, h, hne]
  | decisions d => rfl

/-- A decision has its number before those of its parts. -/
theorem numbersOf_decision {k : Counter} {n : Node} {ns : List Node} {d : Construct} {i : Nat}
    (ho : n.occurrence? = some ⟨d, i⟩) (hn : n.preorder = n :: preorderAll ns) :
    numbersOf k [n] = (if k = .decisions d then [i] else []) ++ numbersOf k ns := by
  have hnumber : n.number? k = if k = .decisions d then some i else none := by
    cases k with
    | tokens t => cases n <;> simp [number?, occurrence?] at ho ⊢
    | decisions e =>
      by_cases h : d = e
      · simp [number?, ho, h]
      · have hne : ¬ e = d := fun heq => h heq.symm
        simp [number?, ho, h, hne]
  simp only [numbersOf, preorderAll, hn, List.append_nil, List.filterMap_cons, hnumber]
  by_cases hk : k = .decisions d <;> simp [hk]

mutual

theorem node_countsUp (c : RuleScope) :
    ∀ (step : Step) (s : Numbering), s.CountsUp [(step.node c s).1] (step.node c s).2
  | token t, s => by
    refine .node .nil (s.drawn_token c t) (fun _ => rfl) fun k => ?_
    rw [numbersOf_nil, List.append_nil, node, Numbering.token_eq]
    exact numbersOf_terminal
  | call i r, s => fun k =>
    ⟨0, s.drawn_call c i r k, by cases k <;> rfl⟩
  | optional body, s => by
    unfold node
    have h := (nodes_countUp c body (s.draw .optional).2).ofParts
    refine h.node (s.drawn_draw .optional) (fun _ => rfl) fun k => numbersOf_decision rfl ?_
    simp [preorder, preorderAll]
  | many body, s => by
    unfold node
    have h := (nodes_countUp c body (s.draw .many).2).ofParts
    refine h.node (s.drawn_draw .many) (fun _ => rfl) fun k => numbersOf_decision rfl ?_
    simp [preorder, preorderAll]
  | atLeastOne body, s => by
    unfold node
    have h := (nodes_countUp c body (s.draw .atLeastOne).2).ofParts
    refine h.node (s.drawn_draw .atLeastOne) (fun _ => rfl) fun k => numbersOf_decision rfl ?_
    simp [preorder, preorderAll]
  | choice description alternatives, s => by
    unfold node
    have h := bodyNodes_countUp c alternatives (s.draw .choice).2
    refine h.node (s.drawn_draw .choice) (fun k => ?_) fun k => numbersOf_decision rfl rfl
    dsimp only
    split <;> cases k <;> rfl

theorem nodes_countUp (c : RuleScope) :
    ∀ (body : List Step) (s : Numbering), s.CountsUp (nodes c body s).1 (nodes c body s).2
  | [], _ => .nil
  | step :: rest, s => (node_countsUp c step s).append (nodes_countUp c rest _)

theorem bodyNodes_countUp (c : RuleScope) :
    ∀ (bodies : List (List Step)) (s : Numbering),
      s.CountsUp (bodyNodes c bodies s).1 (bodyNodes c bodies s).2
  | [], _ => .nil
  | body :: rest, s => (nodes_countUp c body s).ofParts.append (bodyNodes_countUp c rest _)

end

end Step

/-! ## Readings -/

namespace Step

mutual

/-- What a step reads: one token, the tree of a rule, nothing or what a body reads, any number of
times what a body reads, this at least once, or what one of several bodies reads. -/
def Reads (g : Grammar) (v : Vocabulary) : Step → List TreeNode → Prop
  | token t, w => ∃ x : Token, v.accepts t x.kind = true ∧ w = [.token x]
  | call _ r, w => ∃ children, g.IsTree v ⟨r, children⟩ ∧ w = [.tree r children]
  | optional body, w => w = [] ∨ BodyReads g v body w
  | many body, w => ∃ ws : List (List TreeNode), w = ws.flatten ∧ ∀ z ∈ ws, BodyReads g v body z
  | atLeastOne body, w => ∃ ws : List (List TreeNode), ws ≠ [] ∧
      w = ws.flatten ∧ ∀ z ∈ ws, BodyReads g v body z
  | choice _ alternatives, w => OneReads g v alternatives w

/-- The steps of a body read one after the other. -/
def BodyReads (g : Grammar) (v : Vocabulary) : List Step → List TreeNode → Prop
  | [], w => w = []
  | step :: rest, w => ∃ a b, w = a ++ b ∧ step.Reads g v a ∧ BodyReads g v rest b

def OneReads (g : Grammar) (v : Vocabulary) : List (List Step) → List TreeNode → Prop
  | [], _ => False
  | body :: rest, w => BodyReads g v body w ∨ OneReads g v rest w

end

end Step

section

variable {g : Grammar} {v : Vocabulary} {body : Node} {w : List TreeNode}

/-- What is read up to some iterations, and what each of them reads. -/
theorem Derives.exists_iterations {xs : List Pending} (h : Derives g v (xs ++ [.loop body]) w) :
    ∃ (a : List TreeNode) (ws : List (List TreeNode)), w = a ++ ws.flatten ∧
      Derives g v xs a ∧ ∀ z ∈ ws, Derives g v [.node body] z := by
  generalize hz : xs ++ [.loop body] = zs at h
  induction h using rec_unfolds generalizing xs with
  | nil => cases xs <;> cases hz
  | @terminal t i token rest w ht h ih =>
    obtain ⟨rfl, hnil⟩ | ⟨xs, rfl, rfl⟩ := List.append_eq_cons_iff.mp hz
    · cases hnil
    · obtain ⟨a, ws, rfl, ha, hws⟩ := ih rfl
      exact ⟨_ :: a, ws, rfl, .terminal ht ha, hws⟩
  | @silent x ys rest w hu hx h ih =>
    obtain ⟨rfl, hnil⟩ | ⟨xs, rfl, rfl⟩ := List.append_eq_cons_iff.mp hz
    · -- the iterations themselves: they are over, or there is one more
      cases hnil
      cases hu with
      | stop =>
        cases h
        exact ⟨[], [], rfl, .nil, by simp⟩
      | again =>
        obtain ⟨a, ws, rfl, ha, hws⟩ := @ih [.node body] rfl
        exact ⟨[], a :: ws, rfl, .nil, List.forall_mem_cons.mpr ⟨ha, hws⟩⟩
    · obtain ⟨a, ws, rfl, ha, hws⟩ := @ih (ys ++ xs) (by simp)
      exact ⟨a, ws, rfl, ha.of_unfolds hu hx, hws⟩
  | @ruleRef r rule i rest children w hr hchildren h ihchildren ih =>
    obtain ⟨rfl, hnil⟩ | ⟨xs, rfl, rfl⟩ := List.append_eq_cons_iff.mp hz
    · cases hnil
    · obtain ⟨a, ws, rfl, ha, hws⟩ := ih rfl
      exact ⟨_ :: a, ws, rfl, .ruleRef hr hchildren ha, hws⟩

theorem derives_loop_iff :
    Derives g v [.loop body] w ↔
      ∃ ws : List (List TreeNode), w = ws.flatten ∧ ∀ z ∈ ws, Derives g v [.node body] z := by
  constructor
  · intro h
    have h : Derives g v ([] ++ [.loop body]) w := h
    obtain ⟨a, ws, rfl, ha, hws⟩ := h.exists_iterations
    cases ha
    exact ⟨ws, rfl, hws⟩
  · rintro ⟨ws, rfl, hws⟩
    induction ws with
    | nil => exact .stop .nil
    | cons z ws ih =>
      obtain ⟨hz, hws⟩ := List.forall_mem_cons.mp hws
      exact .again (hz.append (ih hws))

theorem derives_sequence_iff {ns : List Node} :
    Derives g v [.node (.sequence ns)] w ↔ Derives g v (ns.map .node) w := by
  constructor
  · intro h
    cases h with
    | sequence h => simpa using h
  · exact fun h => .sequence (by simpa using h)

theorem derives_ofParts_iff {ns : List Node} :
    Derives g v [.node (.ofParts ns)] w ↔ Derives g v (ns.map .node) w := by
  unfold ofParts
  split
  · rfl
  · exact derives_sequence_iff

theorem derives_optional_iff {i : Nat} :
    Derives g v [.node (.optional body i)] w ↔ w = [] ∨ Derives g v [.node body] w := by
  constructor
  · intro h
    cases h with
    | skip h =>
      cases h
      exact .inl rfl
    | enter h => exact .inr h
  · rintro (rfl | h)
    · exact .skip .nil
    · exact .enter h

theorem derives_many_iff {i : Nat} :
    Derives g v [.node (.repetition body i false)] w ↔ Derives g v [.loop body] w := by
  constructor
  · intro h
    cases h with
    | many h => exact h
  · exact .many

theorem derives_atLeastOne_iff {i : Nat} :
    Derives g v [.node (.repetition body i true)] w ↔
      ∃ ws : List (List TreeNode), ws ≠ [] ∧ w = ws.flatten ∧
        ∀ z ∈ ws, Derives g v [.node body] z := by
  constructor
  · intro h
    obtain ⟨a, b, rfl, ha, hb⟩ := h.cases_atLeastOne
    obtain ⟨ws, rfl, hws⟩ := derives_loop_iff.mp hb
    exact ⟨a :: ws, by simp, rfl, List.forall_mem_cons.mpr ⟨ha, hws⟩⟩
  · rintro ⟨ws, hne, rfl, hws⟩
    cases ws with
    | nil => exact absurd rfl hne
    | cons a ws =>
      obtain ⟨ha, hws⟩ := List.forall_mem_cons.mp hws
      have hloop : Derives g v [.loop body] ws.flatten := derives_loop_iff.mpr ⟨ws, rfl, hws⟩
      exact .atLeastOne (ha.append hloop)

theorem derives_alternation_iff {alternatives : List Node} {i : Nat} {description : String} :
    Derives g v [.node (.alternation alternatives i description)] w ↔
      ∃ n ∈ alternatives, Derives g v [.node n] w := by
  constructor
  · intro h
    cases h with
    | alternative hn h => exact ⟨_, hn, h⟩
  · rintro ⟨n, hn, h⟩
    exact .alternative hn h

end

namespace Step

variable {g : Grammar} {v : Vocabulary}

mutual

theorem derives_node_iff (c : RuleScope) : ∀ (step : Step) (s : Numbering) (w : List TreeNode),
    Derives g v [.node (step.node c s).1] w ↔ step.Reads g v w
  | token t, s, w => by
    rw [node, Reads]
    constructor
    · intro h
      cases h with
      | terminal ht h =>
        cases h
        exact ⟨_, ht, rfl⟩
    · rintro ⟨x, hx, rfl⟩
      exact .terminal hx .nil
  | call i r, s, w => by
    rw [node, Reads]
    constructor
    · intro h
      obtain ⟨children, rfl, htree⟩ := h.cases_ruleRef
      exact ⟨children, htree, rfl⟩
    · rintro ⟨children, htree, rfl⟩
      exact htree.derives i
  | optional body, s, w => by
    rw [node, Reads]
    exact derives_optional_iff.trans
      (or_congr_right (derives_ofParts_iff.trans (derives_nodes_iff c body _ w)))
  | many body, s, w => by
    rw [node, Reads]
    refine derives_many_iff.trans (derives_loop_iff.trans ?_)
    simp only [derives_ofParts_iff, derives_nodes_iff c body]
  | atLeastOne body, s, w => by
    rw [node, Reads]
    refine derives_atLeastOne_iff.trans ?_
    simp only [derives_ofParts_iff, derives_nodes_iff c body]
  | choice description alternatives, s, w => by
    rw [node, Reads]
    exact derives_alternation_iff.trans (derives_bodyNodes_iff c alternatives _ w)

theorem derives_nodes_iff (c : RuleScope) : ∀ (body : List Step) (s : Numbering)
    (w : List TreeNode), Derives g v ((nodes c body s).1.map .node) w ↔ BodyReads g v body w
  | [], s, w => by
    rw [nodes, BodyReads]
    constructor
    · intro h
      cases h
      rfl
    · rintro rfl
      exact .nil
  | step :: rest, s, w => by
    rw [nodes, BodyReads, List.map_cons, ← List.singleton_append, derives_append_iff]
    simp only [derives_node_iff c step, derives_nodes_iff c rest]

theorem derives_bodyNodes_iff (c : RuleScope) : ∀ (bodies : List (List Step)) (s : Numbering)
    (w : List TreeNode),
    (∃ n ∈ (bodyNodes c bodies s).1, Derives g v [.node n] w) ↔ OneReads g v bodies w
  | [], s, w => by simp [bodyNodes, OneReads]
  | body :: rest, s, w => by
    simp only [bodyNodes, OneReads, List.exists_mem_cons_iff, derives_ofParts_iff,
      derives_nodes_iff c body, derives_bodyNodes_iff c rest]

end

/-- The node of a rule, which is the one that is recorded step by step, has the shape of the body.
In the order in which nodes come before their parts, the tokens of each type and the decisions of
each kind are numbered 1, 2, 3 and so on. In any grammar the node reads what the steps read. -/
theorem ruleNode_faithful (c : RuleScope) (body : List Step) :
    recordRule c body = ruleNode c body ∧
    (ruleNode c body).1.StandsForBody body ∧
    (∀ k, ∃ m, (ruleNode c body).1.preorder.filterMap (·.number? k) = List.range' 1 m) ∧
    ∀ g v w, Derives g v [.node (ruleNode c body).1] w ↔ BodyReads g v body w := by
  refine ⟨recordRule_eq c body, Node.standsForBody_ofParts (nodes_standFor c body _),
    fun k => ?_, fun g v w => derives_ofParts_iff.trans (derives_nodes_iff c body _ w)⟩
  obtain ⟨m, -, hnumbers⟩ := (nodes_countUp c body .empty).ofParts k
  have hdrawn : Numbering.empty.drawn k = 0 := by cases k <;> rfl
  rw [numbersOf, preorderAll, preorderAll, List.append_nil, hdrawn] at hnumbers
  exact ⟨m, hnumbers⟩

/-- The inner repetition has the second number, although it ends before the outer one does. -/
example (c : RuleScope) :
    (ruleNode c [.token 0, .many [.token 1, .many [.token 0]]]).1 =
      .sequence [.terminal 0 1, .repetition (.sequence [.terminal 1 1,
        .repetition (.terminal 0 2) 2 false]) 1 false] := by
  simp only [ruleNode, nodes, node, Numbering.token_eq]
  rfl

end Step

end StrongLL
