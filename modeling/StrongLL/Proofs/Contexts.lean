import StrongLL.Analysis
import StrongLL.Proofs.LeftRecursion

/-!
# StrongLL.Proofs.Contexts

The nodes of a grammar and what follows them:

* `Grammar.mem_contexts`    — the contexts of a grammar are those of the bodies of its rules.
* `Grammar.Covers`          — a node belongs to them with all nodes within it.
* `Node.contexts_map_fst`   — they come in the order of the nodes.
* `Grammar.mem_invocations` — an invocation is the context of a node that refers to a rule.
* `Grammar.mem_forks`       — a decision is the context of a node with ways to go on.
* `Grammar.Proper.context`  — a proper grammar has proper nodes with proper parts after them.
-/

namespace StrongLL

namespace Grammar

variable {g : Grammar}

theorem mem_contexts {r : RuleId} {n : Node} {after : List Pending} :
    (r, n, after) ∈ g.contexts ↔
      ∃ rule, g.get? r = some rule ∧ (n, after) ∈ rule.body.contexts [] := by
  simp only [contexts, List.mem_flatMap, List.mem_map, List.mem_zipIdx_iff_getElem?]
  constructor
  · intro h
    obtain ⟨⟨rule, id⟩, hrule, ⟨m, a⟩, hmem, heq⟩ := h
    obtain ⟨rfl, rfl, rfl⟩ : id = r ∧ m = n ∧ a = after := by simpa using heq
    exact ⟨rule, hrule, hmem⟩
  · intro h
    obtain ⟨rule, hrule, hmem⟩ := h
    exact ⟨(rule, r), hrule, (n, after), hmem, rfl⟩

theorem mem_invocations {caller target : RuleId} {after : List Pending} :
    (caller, target, after) ∈ g.invocations ↔
      ∃ i, (caller, .ruleRef target i, after) ∈ g.contexts := by
  simp only [invocations, List.mem_filterMap]
  constructor
  · intro h
    obtain ⟨⟨r, n, a⟩, hmem, heq⟩ := h
    cases n with
    | ruleRef t i =>
      obtain ⟨rfl, rfl, rfl⟩ : r = caller ∧ t = target ∧ a = after := by simpa using heq
      exact ⟨i, hmem⟩
    | _ => simp at heq
  · intro h
    obtain ⟨i, hmem⟩ := h
    exact ⟨_, hmem, rfl⟩

theorem mem_forks {key : DecisionKey} {fork : Fork} :
    (key, fork) ∈ g.forks ↔ ∃ n after, (key.rule, n, after) ∈ g.contexts ∧
      n.occurrence? = some key.occurrence ∧ n.fork? after = some fork := by
  simp only [forks, List.mem_filterMap]
  constructor
  · intro h
    obtain ⟨⟨r, n, after⟩, hmem, heq⟩ := h
    cases ho : n.occurrence? with
    | none => simp [ho] at heq
    | some o =>
      cases hf : n.fork? after with
      | none => simp [ho, hf] at heq
      | some f =>
        obtain ⟨rfl, rfl⟩ : ⟨r, o⟩ = key ∧ f = fork := by simpa [ho, hf] using heq
        exact ⟨n, after, hmem, ho, hf⟩
  · intro h
    obtain ⟨n, after, hmem, ho, hf⟩ := h
    exact ⟨_, hmem, by simp [ho, hf]⟩

section

variable {r : RuleId} {i : Nat} {after : List Pending}

theorem optional_mem_forks {body : Node} (h : (r, .optional body i, after) ∈ g.contexts) :
    (⟨r, ⟨.optional, i⟩⟩, ⟨[(.entering, .node body :: after)], some (.skipping, after)⟩) ∈
      g.forks :=
  mem_forks.mpr ⟨_, _, h, rfl, rfl⟩

theorem repetition_mem_forks {body : Node} {atLeastOne : Bool}
    (h : (r, .repetition body i atLeastOne, after) ∈ g.contexts) :
    (⟨r, ⟨.ofRepetition atLeastOne, i⟩⟩,
      ⟨[(.iterating, .node body :: .loop body :: after)], some (.exiting, after)⟩) ∈ g.forks :=
  mem_forks.mpr ⟨_, _, h, rfl, rfl⟩

theorem alternation_mem_forks {alternatives : List Node} {description : String}
    (h : (r, .alternation alternatives i description, after) ∈ g.contexts) :
    (⟨r, ⟨.choice, i⟩⟩,
      ⟨alternatives.zipIdx.map fun (n, j) => (.alternative (j + 1), .node n :: after), none⟩) ∈
      g.forks :=
  mem_forks.mpr ⟨_, _, h, rfl, rfl⟩

end

/-- The nodes and what follows them occur in the body of `r`. It passes from a node to its parts. -/
def Covers (g : Grammar) (r : RuleId) (xs : List (Node × List Pending)) : Prop :=
  ∀ x ∈ xs, (r, x) ∈ g.contexts

theorem covers_body {r : RuleId} {rule : Rule} (hr : g.get? r = some rule) :
    g.Covers r (rule.body.contexts []) := fun _ hx => mem_contexts.mpr ⟨rule, hr, hx⟩

theorem Covers.subset {r : RuleId} {xs ys : List (Node × List Pending)} (h : g.Covers r xs)
    (hsub : ys ⊆ xs) : g.Covers r ys := fun x hx => h x (hsub hx)

theorem Covers.node {r : RuleId} {n : Node} {after : List Pending}
    (h : g.Covers r (n.contexts after)) : (r, n, after) ∈ g.contexts :=
  h _ (by cases n <;> simp [Node.contexts])

theorem lt_of_mem_contexts {r : RuleId} {x : Node × List Pending} (h : (r, x) ∈ g.contexts) :
    r < g.size := by
  obtain ⟨rule, hr, -⟩ := mem_contexts.mp h
  exact get?_eq_some_lt hr

end Grammar

/-! ## Nodes within nodes -/

mutual

theorem Node.contexts_subset :
    ∀ (n : Node) (after : List Pending) (x : Node × List Pending), x ∈ n.contexts after →
      x.1.contexts x.2 ⊆ n.contexts after
  | .terminal t i, after, x, hx => by
    obtain rfl : x = _ := by simpa [Node.contexts] using hx
    exact List.Subset.refl _
  | .sequence parts, after, x, hx => by
    obtain rfl | hx := List.mem_cons.mp hx
    · exact List.Subset.refl _
    · exact List.subset_cons_of_subset _ (Node.partContexts_subset parts after x hx)
  | .optional body i, after, x, hx => by
    obtain rfl | hx := List.mem_cons.mp hx
    · exact List.Subset.refl _
    · exact List.subset_cons_of_subset _ (Node.contexts_subset body after x hx)
  | .repetition body i atLeastOne, after, x, hx => by
    obtain rfl | hx := List.mem_cons.mp hx
    · exact List.Subset.refl _
    · exact List.subset_cons_of_subset _ (Node.contexts_subset body (.loop body :: after) x hx)
  | .alternation alternatives i description, after, x, hx => by
    obtain rfl | hx := List.mem_cons.mp hx
    · exact List.Subset.refl _
    · exact List.subset_cons_of_subset _ (Node.alternativeContexts_subset alternatives after x hx)
  | .ruleRef r i, after, x, hx => by
    obtain rfl : x = _ := by simpa [Node.contexts] using hx
    exact List.Subset.refl _

theorem Node.partContexts_subset :
    ∀ (parts : List Node) (after : List Pending) (x : Node × List Pending),
      x ∈ Node.partContexts after parts → x.1.contexts x.2 ⊆ Node.partContexts after parts
  | [], after, x, hx => by simp [Node.partContexts] at hx
  | n :: rest, after, x, hx => by
    rw [Node.partContexts] at hx ⊢
    obtain hx | hx := List.mem_append.mp hx
    · exact List.subset_append_of_subset_left _ (Node.contexts_subset n _ x hx)
    · exact List.subset_append_of_subset_right _ (Node.partContexts_subset rest after x hx)

theorem Node.alternativeContexts_subset :
    ∀ (alternatives : List Node) (after : List Pending) (x : Node × List Pending),
      x ∈ Node.alternativeContexts after alternatives →
      x.1.contexts x.2 ⊆ Node.alternativeContexts after alternatives
  | [], after, x, hx => by simp [Node.alternativeContexts] at hx
  | n :: rest, after, x, hx => by
    rw [Node.alternativeContexts] at hx ⊢
    obtain hx | hx := List.mem_append.mp hx
    · exact List.subset_append_of_subset_left _ (Node.contexts_subset n after x hx)
    · exact List.subset_append_of_subset_right _ (Node.alternativeContexts_subset rest after x hx)

end

theorem Grammar.covers_of_mem {g : Grammar} {r : RuleId} {n : Node} {after : List Pending}
    (h : (r, n, after) ∈ g.contexts) : g.Covers r (n.contexts after) := by
  obtain ⟨rule, hr, hmem⟩ := mem_contexts.mp h
  exact (covers_body hr).subset (Node.contexts_subset rule.body [] (n, after) hmem)

/-! ## In the order of the nodes -/

mutual

theorem Node.contexts_map_fst (after : List Pending) :
    ∀ n : Node, (n.contexts after).map (·.1) = n.preorder
  | .terminal t i => by simp [Node.contexts, Node.preorder]
  | .sequence parts => by
    simp [Node.contexts, Node.preorder, Node.partContexts_map_fst after parts]
  | .optional body i => by
    simp [Node.contexts, Node.preorder, Node.contexts_map_fst after body]
  | .repetition body i atLeastOne => by
    simp [Node.contexts, Node.preorder, Node.contexts_map_fst (.loop body :: after) body]
  | .alternation alternatives i description => by
    simp [Node.contexts, Node.preorder, Node.alternativeContexts_map_fst after alternatives]
  | .ruleRef r i => by simp [Node.contexts, Node.preorder]

theorem Node.partContexts_map_fst (after : List Pending) :
    ∀ parts : List Node, (Node.partContexts after parts).map (·.1) = Node.preorderAll parts
  | [] => by simp [Node.partContexts, Node.preorderAll]
  | n :: rest => by
    rw [Node.partContexts, Node.preorderAll, List.map_append, Node.contexts_map_fst _ n,
      Node.partContexts_map_fst after rest]

theorem Node.alternativeContexts_map_fst (after : List Pending) :
    ∀ alternatives : List Node,
      (Node.alternativeContexts after alternatives).map (·.1) = Node.preorderAll alternatives
  | [] => by simp [Node.alternativeContexts, Node.preorderAll]
  | n :: rest => by
    rw [Node.alternativeContexts, Node.preorderAll, List.map_append, Node.contexts_map_fst _ n,
      Node.alternativeContexts_map_fst after rest]

end

theorem Grammar.mem_repetitions {g : Grammar} {r : RuleId} {body : Node} {i : Nat}
    {atLeastOne : Bool} {after : List Pending}
    (h : (r, .repetition body i atLeastOne, after) ∈ g.contexts) :
    (r, ⟨.ofRepetition atLeastOne, i⟩, body) ∈ g.repetitions := by
  obtain ⟨rule, hr, hmem⟩ := mem_contexts.mp h
  have hpre : .repetition body i atLeastOne ∈ rule.body.preorder := by
    rw [← Node.contexts_map_fst []]
    exact List.mem_map.mpr ⟨_, hmem, rfl⟩
  simp only [repetitions, List.mem_flatMap, List.mem_zipIdx_iff_getElem?, List.mem_filterMap]
  exact ⟨(rule, r), hr, _, hpre, rfl⟩

theorem Grammar.exists_context_of_mem_repetitions {g : Grammar} {r : RuleId} {o : Occurrence}
    {body : Node} (h : (r, o, body) ∈ g.repetitions) :
    ∃ i atLeastOne after, (r, .repetition body i atLeastOne, after) ∈ g.contexts := by
  simp only [repetitions, List.mem_flatMap, List.mem_zipIdx_iff_getElem?, List.mem_filterMap] at h
  obtain ⟨⟨rule, id⟩, hrule, n, hpre, heq⟩ := h
  cases n with
  | repetition m i atLeastOne =>
    obtain ⟨rfl, -, rfl⟩ : id = r ∧ _ = o ∧ m = body := by simpa using heq
    rw [← Node.contexts_map_fst []] at hpre
    obtain ⟨⟨n, after⟩, hmem, rfl⟩ := List.mem_map.mp hpre
    exact ⟨i, atLeastOne, after, mem_contexts.mpr ⟨rule, hrule, hmem⟩⟩
  | _ => simp at heq

/-! ## Proper bodies -/

section

variable {types rules : Nat}

/-- A node and what follows it are proper. -/
def ProperContext (types rules : Nat) (x : Node × List Pending) : Prop :=
  x.1.Proper types rules ∧ ∀ y ∈ x.2, y.part.Proper types rules

mutual

theorem Node.Proper.contexts {after : List Pending}
    (hafter : ∀ y ∈ after, y.part.Proper types rules) :
    ∀ n : Node, n.Proper types rules → ∀ x ∈ n.contexts after, ProperContext types rules x
  | .terminal t i, hn, x, hx => by
    obtain rfl : x = _ := by simpa [Node.contexts] using hx
    exact ⟨hn, hafter⟩
  | .sequence parts, hn, x, hx => by
    obtain rfl | hx := List.mem_cons.mp hx
    · exact ⟨hn, hafter⟩
    · cases hn with
      | sequence hparts => exact properPartContexts hafter parts hparts x hx
  | .optional body i, hn, x, hx => by
    obtain rfl | hx := List.mem_cons.mp hx
    · exact ⟨hn, hafter⟩
    · cases hn with
      | optional hbody => exact Node.Proper.contexts hafter body hbody x hx
  | .repetition body i atLeastOne, hn, x, hx => by
    obtain rfl | hx := List.mem_cons.mp hx
    · exact ⟨hn, hafter⟩
    · cases hn with
      | repetition hbody =>
        refine Node.Proper.contexts ?_ body hbody x hx
        intro y hy
        obtain rfl | hy := List.mem_cons.mp hy
        · exact hbody
        · exact hafter y hy
  | .alternation alternatives i description, hn, x, hx => by
    obtain rfl | hx := List.mem_cons.mp hx
    · exact ⟨hn, hafter⟩
    · cases hn with
      | alternation _ halts => exact properAlternativeContexts hafter alternatives halts x hx
  | .ruleRef r i, hn, x, hx => by
    obtain rfl : x = _ := by simpa [Node.contexts] using hx
    exact ⟨hn, hafter⟩

theorem properPartContexts {after : List Pending}
    (hafter : ∀ y ∈ after, y.part.Proper types rules) :
    ∀ parts : List Node, (∀ n ∈ parts, n.Proper types rules) →
      ∀ x ∈ Node.partContexts after parts, ProperContext types rules x
  | [], _, x, hx => by simp [Node.partContexts] at hx
  | n :: rest, hparts, x, hx => by
    rw [Node.partContexts] at hx
    obtain hx | hx := List.mem_append.mp hx
    · refine Node.Proper.contexts ?_ n (hparts n (by simp)) x hx
      intro y hy
      obtain hy | hy := List.mem_append.mp hy
      · obtain ⟨m, hm, rfl⟩ := List.mem_map.mp hy
        exact hparts m (by simp [hm])
      · exact hafter y hy
    · exact properPartContexts hafter rest (fun m hm => hparts m (by simp [hm])) x hx

theorem properAlternativeContexts {after : List Pending}
    (hafter : ∀ y ∈ after, y.part.Proper types rules) :
    ∀ alternatives : List Node, (∀ n ∈ alternatives, n.Proper types rules) →
      ∀ x ∈ Node.alternativeContexts after alternatives, ProperContext types rules x
  | [], _, x, hx => by simp [Node.alternativeContexts] at hx
  | n :: rest, halts, x, hx => by
    rw [Node.alternativeContexts] at hx
    obtain hx | hx := List.mem_append.mp hx
    · exact Node.Proper.contexts hafter n (halts n (by simp)) x hx
    · exact properAlternativeContexts hafter rest (fun m hm => halts m (by simp [hm])) x hx

end

end

namespace Grammar

variable {g : Grammar} {types : Nat}

theorem Proper.context (hg : g.Proper types) {r : RuleId} {x : Node × List Pending}
    (h : (r, x) ∈ g.contexts) : ProperContext types g.size x := by
  obtain ⟨rule, hr, hx⟩ := mem_contexts.mp h
  exact Node.Proper.contexts (by simp) rule.body (hg r rule hr) x hx

theorem Proper.invocation (hg : g.Proper types) {caller target : RuleId} {after : List Pending}
    (h : (caller, target, after) ∈ g.invocations) :
    caller < g.size ∧ target < g.size ∧ ∀ y ∈ after, y.part.Proper types g.size := by
  obtain ⟨i, hi⟩ := mem_invocations.mp h
  obtain ⟨hcall, hafter⟩ := hg.context hi
  cases hcall with
  | ruleRef htarget => exact ⟨lt_of_mem_contexts hi, htarget, hafter⟩

theorem Proper.continues (hg : g.Proper types) {r : RuleId} {outer : List Pending}
    (h : Continues g r outer) : ∀ y ∈ outer, y.part.Proper types g.size := by
  induction h with
  | entry => simp
  | call hcall _ ih =>
    intro y hy
    obtain hy | hy := List.mem_append.mp hy
    · exact (hg.invocation hcall).2.2 y hy
    · exact ih y hy

end Grammar

end StrongLL
