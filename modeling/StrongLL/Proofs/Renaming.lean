import Mathlib.Data.Finset.Card
import Mathlib.Logic.Equiv.Basic
import StrongLL.Proofs.Choice

/-!
# StrongLL.Proofs.Renaming

The numbers of rules are only names:

* `Node.rename`, `Pending.rename`, `Rule.rename`, `Fork.rename` — every rule `r` replaced by `σ r`.
* `Grammar.Renames σ g g'` — `g'` has the rules of `g` at other places.
* `Expands.rename`, `Leads.rename`, `Continues.rename` — what a grammar can do, the other can do.
* `Renames.leftRecursive_iff`, `Renames.progressive_iff`, `Renames.ambiguous_iff`,
  `Renames.admits_iff` — so neither has a fault that the other has not, and both choose alike.

The inverse permutation leads back, so each fact is shown in one direction first.
-/

namespace StrongLL

/-! ## Renamed nodes -/

namespace Node

mutual

def rename (σ : RuleId → RuleId) : Node → Node
  | terminal t i => terminal t i
  | sequence parts => sequence (renameAll σ parts)
  | optional body i => optional (body.rename σ) i
  | repetition body i atLeastOne => repetition (body.rename σ) i atLeastOne
  | alternation alternatives i description => alternation (renameAll σ alternatives) i description
  | ruleRef r i => ruleRef (σ r) i

def renameAll (σ : RuleId → RuleId) : List Node → List Node
  | [] => []
  | n :: rest => n.rename σ :: renameAll σ rest

end

theorem renameAll_eq_map (σ : RuleId → RuleId) (ns : List Node) :
    renameAll σ ns = ns.map (·.rename σ) := by
  induction ns with
  | nil => rfl
  | cons n rest ih => rw [renameAll, ih, List.map_cons]

mutual

theorem rename_rename {σ τ : RuleId → RuleId} (h : ∀ r, τ (σ r) = r) :
    ∀ n : Node, (n.rename σ).rename τ = n
  | terminal t i => rfl
  | sequence parts => by simp only [rename, renameAll_renameAll h parts]
  | optional body i => by simp only [rename, rename_rename h body]
  | repetition body i atLeastOne => by simp only [rename, rename_rename h body]
  | alternation alternatives i description => by
    simp only [rename, renameAll_renameAll h alternatives]
  | ruleRef r i => by simp only [rename, h]

theorem renameAll_renameAll {σ τ : RuleId → RuleId} (h : ∀ r, τ (σ r) = r) :
    ∀ ns : List Node, renameAll τ (renameAll σ ns) = ns
  | [] => rfl
  | n :: rest => by simp only [renameAll, rename_rename h n, renameAll_renameAll h rest]

end

mutual

theorem rename_id : ∀ n : Node, n.rename id = n
  | terminal t i => rfl
  | sequence parts => by simp only [rename, renameAll_id parts]
  | optional body i => by simp only [rename, rename_id body]
  | repetition body i atLeastOne => by simp only [rename, rename_id body]
  | alternation alternatives i description => by simp only [rename, renameAll_id alternatives]
  | ruleRef r i => rfl

theorem renameAll_id : ∀ ns : List Node, renameAll id ns = ns
  | [] => rfl
  | n :: rest => by simp only [renameAll, rename_id n, renameAll_id rest]

end

@[simp] theorem occurrence?_rename (σ : RuleId → RuleId) (n : Node) :
    (n.rename σ).occurrence? = n.occurrence? := by
  cases n <;> rfl

end Node

def Pending.rename (σ : RuleId → RuleId) : Pending → Pending
  | .node n => .node (n.rename σ)
  | .loop body => .loop (body.rename σ)

/-- All of the parts renamed. -/
def renamed (σ : RuleId → RuleId) (xs : List Pending) : List Pending := xs.map (·.rename σ)

section

variable {σ τ : RuleId → RuleId}

@[simp] theorem renamed_nil : renamed σ [] = [] := rfl

@[simp] theorem renamed_cons (x : Pending) (xs : List Pending) :
    renamed σ (x :: xs) = x.rename σ :: renamed σ xs := rfl

@[simp] theorem renamed_append (xs ys : List Pending) :
    renamed σ (xs ++ ys) = renamed σ xs ++ renamed σ ys := List.map_append

theorem renamed_map_node (ns : List Node) :
    renamed σ (ns.map .node) = (Node.renameAll σ ns).map .node := by
  simp only [renamed, Node.renameAll_eq_map, List.map_map]
  rfl

theorem Pending.rename_rename (h : ∀ r, τ (σ r) = r) (x : Pending) :
    (x.rename σ).rename τ = x := by
  cases x <;> simp only [Pending.rename, Node.rename_rename h]

theorem renamed_renamed (h : ∀ r, τ (σ r) = r) (xs : List Pending) :
    renamed τ (renamed σ xs) = xs := by
  induction xs with
  | nil => rfl
  | cons x xs ih => rw [renamed_cons, renamed_cons, ih, Pending.rename_rename h]

theorem renamed_id (xs : List Pending) : renamed id xs = xs := by
  induction xs with
  | nil => rfl
  | cons x xs ih => cases x <;> simp only [renamed_cons, ih, Pending.rename, Node.rename_id]

end

def Rule.rename (σ : RuleId → RuleId) (r : Rule) : Rule := ⟨r.name, r.body.rename σ⟩

def DecisionKey.rename (σ : RuleId → RuleId) (key : DecisionKey) : DecisionKey :=
  ⟨σ key.rule, key.occurrence⟩

def Fork.rename (σ : RuleId → RuleId) (f : Fork) : Fork where
  branches := f.branches.map fun (label, pending) => (label, renamed σ pending)
  exit := f.exit.map fun (label, pending) => (label, renamed σ pending)

theorem Fork.ways_rename (σ : RuleId → RuleId) (f : Fork) :
    (f.rename σ).ways = f.ways.map fun (label, pending) => (label, renamed σ pending) := by
  cases h : f.exit <;> simp [ways, rename, h]

namespace Node

theorem fork?_rename (σ : RuleId → RuleId) (after : List Pending) (n : Node) :
    (n.rename σ).fork? (renamed σ after) = (n.fork? after).map (·.rename σ) := by
  cases n with
  | alternation alternatives i description =>
    simp [rename, fork?, Fork.rename, renameAll_eq_map, List.zipIdx_map, Pending.rename]
  | _ => rfl

mutual

theorem contexts_rename (σ : RuleId → RuleId) : ∀ (n : Node) (after : List Pending),
    (n.rename σ).contexts (renamed σ after) =
      (n.contexts after).map fun (m, xs) => (m.rename σ, renamed σ xs)
  | terminal t i, after => rfl
  | sequence parts, after => by
    simp only [rename, contexts, List.map_cons, partContexts_rename σ parts after]
  | optional body i, after => by
    simp only [rename, contexts, List.map_cons, contexts_rename σ body after]
  | repetition body i atLeastOne, after => by
    have hbody := contexts_rename σ body (.loop body :: after)
    rw [renamed_cons, Pending.rename] at hbody
    simp only [rename, contexts, List.map_cons, hbody]
  | alternation alternatives i description, after => by
    simp only [rename, contexts, List.map_cons, alternativeContexts_rename σ alternatives after]
  | ruleRef r i, after => rfl

theorem partContexts_rename (σ : RuleId → RuleId) : ∀ (parts : List Node) (after : List Pending),
    partContexts (renamed σ after) (renameAll σ parts) =
      (partContexts after parts).map fun (m, xs) => (m.rename σ, renamed σ xs)
  | [], after => rfl
  | n :: rest, after => by
    have hn := contexts_rename σ n (rest.map .node ++ after)
    rw [renamed_append, renamed_map_node] at hn
    simp only [renameAll, partContexts, List.map_append, hn, partContexts_rename σ rest after]

theorem alternativeContexts_rename (σ : RuleId → RuleId) :
    ∀ (alternatives : List Node) (after : List Pending),
      alternativeContexts (renamed σ after) (renameAll σ alternatives) =
        (alternativeContexts after alternatives).map fun (m, xs) => (m.rename σ, renamed σ xs)
  | [], after => rfl
  | n :: rest, after => by
    simp only [renameAll, alternativeContexts, List.map_append, contexts_rename σ n after,
      alternativeContexts_rename σ rest after]

end

end Node

/-! ## Renamed grammars -/

namespace Grammar

/-- The second grammar has the rules of the first, the rule of each number at the number that
replaces it. -/
def Renames (σ : Equiv.Perm RuleId) (g g' : Grammar) : Prop :=
  ∀ r, g'.get? (σ r) = (g.get? r).map (·.rename σ)

end Grammar

/-- A permutation that maps the numbers below `m` to those below `n` finds as many of both. -/
theorem eq_of_perm_lt_iff {σ : Equiv.Perm Nat} {m n : Nat} (h : ∀ r, σ r < n ↔ r < m) : n = m := by
  have himage : (Finset.range m).map σ.toEmbedding = Finset.range n := by
    ext r
    simp only [Finset.mem_map, Finset.mem_range, Equiv.coe_toEmbedding]
    constructor
    · rintro ⟨a, ha, rfl⟩
      exact (h a).mpr ha
    · intro hr
      exact ⟨σ.symm r, (h _).mp (by simpa using hr), σ.apply_symm_apply r⟩
  simpa using (congrArg Finset.card himage).symm

namespace Grammar

namespace Renames

variable {σ : Equiv.Perm RuleId} {g g' : Grammar}

theorem get? (h : g.Renames σ g') {r : RuleId} {rule : Rule} (hr : g.get? r = some rule) :
    g'.get? (σ r) = some (rule.rename σ) := by
  rw [h, hr]
  rfl

theorem symm (h : g.Renames σ g') : g'.Renames σ.symm g := by
  intro r
  have hr := h (σ.symm r)
  rw [Equiv.apply_symm_apply] at hr
  rw [hr, Option.map_map]
  cases g.get? (σ.symm r) with
  | none => rfl
  | some rule =>
    simp only [Option.map_some, Function.comp_apply, Rule.rename,
      Node.rename_rename σ.symm_apply_apply]

theorem lt_size_iff (h : g.Renames σ g') {r : RuleId} : σ r < g'.size ↔ r < g.size := by
  have hsome : ∀ (g : Grammar) r, (g.get? r).isSome = true ↔ r < g.size := fun g r => by
    simp [Grammar.get?, Grammar.size]
  rw [← hsome, ← hsome, h, Option.isSome_map]

theorem size_eq (h : g.Renames σ g') : g'.size = g.size :=
  eq_of_perm_lt_iff fun _ => h.lt_size_iff

end Renames

end Grammar

open Grammar

section

variable {σ : Equiv.Perm RuleId} {g g' : Grammar} (h : g.Renames σ g')

include h

theorem Expands.rename {xs left : List Pending} {p : Path} (hx : Expands g xs p left) :
    Expands g' (renamed σ xs) p (renamed σ left) := by
  induction hx with
  | refl => exact .refl
  | terminal _ ih => exact .terminal ih
  | sequence _ ih =>
    rw [renamed_append, renamed_map_node] at ih
    exact .sequence ih
  | skip _ ih => exact .skip ih
  | enter _ ih => exact .enter ih
  | many _ ih => exact .many ih
  | atLeastOne _ ih => exact .atLeastOne ih
  | stop _ ih => exact .stop ih
  | again _ ih => exact .again ih
  | @alternative alternatives n i description rest left p hn _ ih =>
    refine .alternative (n := n.rename σ) ?_ ih
    rw [Node.renameAll_eq_map]
    exact List.mem_map_of_mem hn
  | ruleRef hr _ ih => exact .ruleRef (h.get? hr) ih

theorem Leads.rename {n : Node} {r : RuleId} (hn : Leads g n r) : Leads g' (n.rename σ) (σ r) := by
  induction hn with
  | ruleRef => exact .ruleRef
  | @sequence before after n r hbefore _ ih =>
    have hparts : (Node.sequence (before ++ n :: after)).rename σ =
        .sequence (before.map (·.rename σ) ++ n.rename σ :: after.map (·.rename σ)) := by
      rw [Node.rename, Node.renameAll_eq_map, List.map_append, List.map_cons]
    rw [hparts]
    refine .sequence (fun m hm => ?_) ih
    obtain ⟨m', hm', rfl⟩ := List.mem_map.mp hm
    exact (hbefore m' hm').rename h
  | optional _ ih => exact .optional ih
  | repetition _ ih => exact .repetition ih
  | @alternation alternatives n i description r hn _ ih =>
    refine .alternation (n := n.rename σ) ?_ ih
    rw [Node.renameAll_eq_map]
    exact List.mem_map_of_mem hn

theorem Grammar.mem_contexts_rename {r : RuleId} {n : Node} {after : List Pending}
    (hx : (r, n, after) ∈ g.contexts) : (σ r, n.rename σ, renamed σ after) ∈ g'.contexts := by
  obtain ⟨rule, hr, hmem⟩ := mem_contexts.mp hx
  refine mem_contexts.mpr ⟨rule.rename σ, h.get? hr, ?_⟩
  have hbody := Node.contexts_rename σ rule.body []
  rw [renamed_nil] at hbody
  rw [Rule.rename, hbody]
  exact List.mem_map_of_mem hmem

theorem Continues.rename {r : RuleId} {outer : List Pending} (hr : Continues g r outer) :
    Continues g' (σ r) (renamed σ outer) := by
  induction hr with
  | entry => exact .entry
  | call hcall _ ih =>
    rw [renamed_append]
    refine .call ?_ ih
    obtain ⟨i, hi⟩ := mem_invocations.mp hcall
    exact mem_invocations.mpr ⟨i, mem_contexts_rename h hi⟩

end

namespace Grammar.Renames

variable {σ : Equiv.Perm RuleId} {g g' : Grammar} {k : Nat}

/-- What holds of the renamed parts too holds of no others: the inverse renaming leads back. -/
theorem expands_iff (h : g.Renames σ g') {xs left : List Pending} {p : Path} :
    Expands g' (renamed σ xs) p (renamed σ left) ↔ Expands g xs p left := by
  constructor
  · intro hx
    have hback := hx.rename h.symm
    rwa [renamed_renamed σ.symm_apply_apply, renamed_renamed σ.symm_apply_apply] at hback
  · exact fun hx => hx.rename h

theorem erasable_iff (h : g.Renames σ g') {xs : List Pending} :
    g'.Erasable (renamed σ xs) ↔ g.Erasable xs :=
  @expands_iff σ g g' h xs [] []

theorem opens (h : g.Renames σ g') {xs : List Pending} {p : Path} (hp : g.Opens k xs p) :
    g'.Opens k (renamed σ xs) p := by
  obtain ⟨left, hx, hend⟩ := hp
  refine ⟨renamed σ left, hx.rename h, hend.imp id ?_⟩
  rintro ⟨hlen, rfl⟩
  exact ⟨hlen, rfl⟩

theorem leftCalls (h : g.Renames σ g') {a b : RuleId} (hab : g.LeftCalls a b) :
    g'.LeftCalls (σ a) (σ b) := by
  obtain ⟨rule, hr, hb⟩ := hab
  exact ⟨rule.rename σ, h.get? hr, hb.rename h⟩

theorem leftRecursive (h : g.Renames σ g') (hrec : g.LeftRecursive) : g'.LeftRecursive := by
  obtain ⟨r, hr⟩ := hrec
  exact ⟨σ r, hr.lift σ fun _ _ hab => h.leftCalls hab⟩

theorem leftRecursive_iff (h : g.Renames σ g') : g'.LeftRecursive ↔ g.LeftRecursive :=
  ⟨h.symm.leftRecursive, h.leftRecursive⟩

theorem progressive (h : g.Renames σ g') (hprog : g.Progressive) : g'.Progressive := by
  intro r o body hmem herasable
  obtain ⟨i, atLeastOne, after, hcontext⟩ := exists_context_of_mem_repetitions hmem
  have hback := mem_repetitions (mem_contexts_rename h.symm hcontext)
  have herasable : g.Erasable (renamed σ.symm [.node body]) := h.symm.erasable_iff.mpr herasable
  exact hprog _ _ _ hback herasable

theorem progressive_iff (h : g.Renames σ g') : g'.Progressive ↔ g.Progressive :=
  ⟨h.symm.progressive, h.progressive⟩

theorem ways (h : g.Renames σ g') {r : RuleId} {xs : List Pending} {p : Path}
    (hp : g.Ways k r xs p) : g'.Ways k (σ r) (renamed σ xs) p := by
  obtain ⟨outer, houter, hopens⟩ := hp
  have hopens := h.opens hopens
  rw [renamed_append] at hopens
  exact ⟨renamed σ outer, houter.rename h, hopens⟩

theorem ways_iff (h : g.Renames σ g') {r : RuleId} {xs : List Pending} {p : Path} :
    g'.Ways k (σ r) (renamed σ xs) p ↔ g.Ways k r xs p := by
  constructor
  · intro hp
    have hback := h.symm.ways hp
    rwa [Equiv.symm_apply_apply, renamed_renamed σ.symm_apply_apply] at hback
  · exact h.ways

theorem mem_forks (h : g.Renames σ g') {key : DecisionKey} {fork : Fork}
    (hx : (key, fork) ∈ g.forks) : (key.rename σ, fork.rename σ) ∈ g'.forks := by
  obtain ⟨n, after, hcontext, ho, hfork⟩ := Grammar.mem_forks.mp hx
  refine Grammar.mem_forks.mpr ⟨_, _, mem_contexts_rename h hcontext, ?_, ?_⟩
  · rw [Node.occurrence?_rename]
    exact ho
  · rw [Node.fork?_rename, hfork]
    rfl

theorem mem_keys_iff (h : g.Renames σ g') {key : DecisionKey} :
    key.rename σ ∈ g'.forks.map (·.1) ↔ key ∈ g.forks.map (·.1) := by
  constructor
  · intro hkey
    obtain ⟨⟨key', fork⟩, hx, heq⟩ := List.mem_map.mp hkey
    obtain rfl : key' = key.rename σ := heq
    have hback := h.symm.mem_forks hx
    have hkey' : (key.rename σ).rename σ.symm = key := by simp [DecisionKey.rename]
    rw [hkey'] at hback
    exact List.mem_map_of_mem hback
  · intro hkey
    obtain ⟨x, hx, rfl⟩ := List.mem_map.mp hkey
    exact List.mem_map_of_mem (h.mem_forks hx)

theorem ambiguous (h : g.Renames σ g') {v : Vocabulary} {x : DecisionKey × Fork}
    (hx : g.Ambiguous v k x) : g'.Ambiguous v k (x.1.rename σ, x.2.rename σ) := by
  obtain ⟨first, second, hsub, p, q, hp, hq, hmeets⟩ := hx
  refine ⟨(first.1, renamed σ first.2), (second.1, renamed σ second.2), ?_, p, q, h.ways hp,
    h.ways hq, hmeets⟩
  show List.Sublist _ (x.2.rename σ).ways
  rw [Fork.ways_rename]
  exact hsub.map fun way => (way.1, renamed σ way.2)

/-- Some decision is ambiguous in both grammars, or in none. -/
theorem exists_ambiguous_iff (h : g.Renames σ g') {v : Vocabulary} :
    (∃ x ∈ g'.forks, g'.Ambiguous v k x) ↔ ∃ x ∈ g.forks, g.Ambiguous v k x := by
  have carry : ∀ {σ : Equiv.Perm RuleId} {g g' : Grammar}, g.Renames σ g' →
      (∃ x ∈ g.forks, g.Ambiguous v k x) → ∃ x ∈ g'.forks, g'.Ambiguous v k x := by
    intro σ g g' h hx
    obtain ⟨x, hmem, hambiguous⟩ := hx
    exact ⟨_, h.mem_forks hmem, h.ambiguous hambiguous⟩
  exact ⟨carry h.symm, carry h⟩

theorem admits_iff (h : g.Renames σ g') {v : Vocabulary} {r : RuleId} {xs : List Pending}
    {kinds : List TypeId} :
    g'.Admits v k (σ r) (renamed σ xs) kinds ↔ g.Admits v k r xs kinds := by
  unfold Admits
  simp only [h.ways_iff]

end Grammar.Renames

end StrongLL
