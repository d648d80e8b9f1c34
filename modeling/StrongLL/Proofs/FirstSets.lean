import StrongLL.Proofs.LeftRecursion

/-!
# StrongLL.Proofs.FirstSets

First sets are exact:

* `Contract`               — a way to say what a computation returns, kept by sequencing.
* `Grammar.IsFirst`        — a set holds the opening paths of some parts and no others.
* `Contract.node_first`    — the equations give exact sets if what they ask for is exact. They
  ask for the rules that the node leads to, and for no others.
* `Contract.pending_first` — the same for pending parts.

Whatever is `known` of the rules that are asked for is known afterwards of every rule that the
first part leads to.
-/

namespace StrongLL

structure Contract (m : Type → Type) [Monad m] where
  Ensures : {α : Type} → m α → (α → Prop) → Prop
  pure {α : Type} {a : α} {post : α → Prop} : post a → Ensures (pure a) post
  bind {α β : Type} {x : m α} {f : α → m β} {mid : α → Prop} {post : β → Prop} :
    Ensures x mid → (∀ a, mid a → Ensures (f a) post) → Ensures (x >>= f) post
  mono {α : Type} {x : m α} {mid post : α → Prop} :
    Ensures x mid → (∀ a, mid a → post a) → Ensures x post

theorem exists_mem_left {α β : Type} {R : α → β → Prop} {xs : List α} {ys : List β}
    (h : List.Forall₂ R xs ys) : ∀ x ∈ xs, ∃ y ∈ ys, R x y := by
  induction h with
  | nil => simp
  | @cons x y xs ys hxy _ ih =>
    intro z hz
    obtain rfl | hz := List.mem_cons.mp hz
    · exact ⟨y, by simp, hxy⟩
    · obtain ⟨w, hw, hR⟩ := ih z hz
      exact ⟨w, by simp [hw], hR⟩

namespace Contract

variable {m : Type → Type} [Monad m] (C : Contract m)

theorem mapM {α β : Type} {f : α → m β} {R : α → β → Prop} {xs : List α}
    (h : ∀ x ∈ xs, C.Ensures (f x) (R x)) : C.Ensures (xs.mapM f) (List.Forall₂ R xs) := by
  suffices key : ∀ (xs : List α) (done : List β), (∀ x ∈ xs, C.Ensures (f x) (R x)) →
      C.Ensures (List.mapM.loop f xs done) fun ys =>
        ∃ zs, ys = done.reverse ++ zs ∧ List.Forall₂ R xs zs by
    refine C.mono (key xs [] h) ?_
    intro ys hmade
    obtain ⟨zs, rfl, hzs⟩ := hmade
    simpa using hzs
  intro xs
  induction xs with
  | nil =>
    intro done _
    exact C.pure ⟨[], by simp, .nil⟩
  | cons x xs ih =>
    intro done h
    refine C.bind (h x (by simp)) fun y hy => ?_
    refine C.mono (ih (y :: done) fun x' hx' => h x' (by simp [hx'])) ?_
    intro ys hmade
    obtain ⟨zs, rfl, hzs⟩ := hmade
    exact ⟨y :: zs, by simp, .cons hy hzs⟩

/-- `extendM` extends by tails that are as they should be, and asks only for those it needs. -/
theorem extendM_tails {k : Nat} {heads : PathSet} {tails : Nat → m PathSet}
    {R : Nat → PathSet → Prop}
    (h : ∀ p ∈ heads, p.length < k → C.Ensures (tails (k - p.length)) (R (k - p.length))) :
    C.Ensures (PathSet.extendM k heads tails) fun s => ∃ made : Nat → PathSet,
      s = PathSet.extend k heads made ∧
      ∀ p ∈ heads, p.length < k → R (k - p.length) (made (k - p.length)) := by
  have hrooms : ∀ room ∈ PathSet.rooms k heads,
      ∃ p ∈ heads, p.length < k ∧ room = k - p.length := by
    intro room hroom
    obtain ⟨p, hp, rfl⟩ := List.mem_map.mp (List.mem_eraseDups.mp hroom)
    obtain ⟨hp, hlt⟩ := List.mem_filter.mp hp
    exact ⟨p, hp, by simpa using hlt, rfl⟩
  have hknown : C.Ensures
      ((PathSet.rooms k heads).mapM fun room => do return (room, ← tails room))
      (List.Forall₂ (fun room (entry : Nat × PathSet) => entry.1 = room ∧ R room entry.2)
        (PathSet.rooms k heads)) := by
    refine C.mapM fun room hroom => ?_
    obtain ⟨p, hp, hlt, rfl⟩ := hrooms room hroom
    exact C.bind (h p hp hlt) fun s hs => C.pure ⟨rfl, hs⟩
  refine C.bind hknown fun known hknown => C.pure ⟨_, rfl, fun p hp hlt => ?_⟩
  -- every room that a head leaves has an entry, and all entries of a room are right
  have hshort : p ∈ heads.filter (·.length < k) := List.mem_filter.mpr ⟨hp, by simpa using hlt⟩
  have hroom : k - p.length ∈ PathSet.rooms k heads :=
    List.mem_eraseDups.mpr (List.mem_map.mpr ⟨p, hshort, rfl⟩)
  generalize PathSet.rooms k heads = rooms at hknown hroom
  induction hknown with
  | nil => cases hroom
  | @cons room entry rooms known hentry _ ih =>
    obtain ⟨key, s⟩ := entry
    obtain ⟨rfl, hs⟩ : key = room ∧ _ := hentry
    by_cases heq : k - p.length = key
    · subst heq
      simpa [List.lookup_cons] using hs
    · have hne : (k - p.length == key) = false := by simpa using heq
      rw [List.lookup_cons, hne]
      exact ih ((List.mem_cons.mp hroom).resolve_left heq)

/-- What the paths of the tails are tells what the extended paths are. -/
theorem extendM {k : Nat} {heads : PathSet} {tails : Nat → m PathSet} {T : Nat → Path → Prop}
    {Q : Nat → Prop}
    (h : ∀ p ∈ heads, p.length < k → C.Ensures (tails (k - p.length)) fun s =>
      (∀ t, t ∈ s ↔ T (k - p.length) t) ∧ Q (k - p.length)) :
    C.Ensures (PathSet.extendM k heads tails) fun s =>
      (∀ q, q ∈ s ↔ ∃ p ∈ heads, (k ≤ p.length ∧ q = p) ∨
        (p.length < k ∧ ∃ t, T (k - p.length) t ∧ q = p ++ t)) ∧
      ∀ p ∈ heads, p.length < k → Q (k - p.length) := by
  refine C.mono (C.extendM_tails (R := fun room s => (∀ t, t ∈ s ↔ T room t) ∧ Q room) h) ?_
  rintro s ⟨made, rfl, hmade⟩
  refine ⟨fun q => ?_, fun p hp hlt => (hmade p hp hlt).2⟩
  rw [PathSet.mem_extend]
  refine exists_congr fun p => and_congr_right fun hp => or_congr_right ?_
  refine and_congr_right fun hlt => ?_
  simp only [(hmade p hp hlt).1]

end Contract

/-- The set holds exactly the opening paths of the parts. -/
def Grammar.IsFirst (g : Grammar) (k : Nat) (xs : List Pending) (s : PathSet) : Prop :=
  ∀ p, p ∈ s ↔ g.Opens k xs p

namespace Contract

open Grammar

variable {m : Type → Type} [Monad m] (C : Contract m) {g : Grammar} {env : Surroundings m}

/-- Smaller depths are answered rightly. -/
def Below (g : Grammar) (env : Surroundings m) : Prop :=
  ∀ j < env.depth, ∀ xs, C.Ensures (env.below j xs) (g.IsFirst j xs)

theorem loop_first (hk : 0 < env.depth) (hbelow : C.Below g env) {body : Node} {once : PathSet}
    (honce : g.IsFirst env.depth [.node body] once) :
    C.Ensures (loopFirst env body once) (g.IsFirst env.depth [.loop body]) := by
  refine C.bind (C.extendM (T := fun room => g.Opens room [.loop body]) (Q := fun _ => True) ?_)
    fun more ⟨hmore, _⟩ => C.pure fun q => ?_
  · intro p hp hlt
    have hne : p ≠ [] := by simpa using (List.mem_filter.mp hp).2
    have hpos := List.length_pos_iff.mpr hne
    exact C.mono (hbelow _ (by omega) _) fun s hs => ⟨hs, trivial⟩
  rw [PathSet.mem_union, hmore, opens_loop hk]
  simp only [PathSet.epsilon, List.mem_singleton, List.mem_filter, honce _, decide_eq_true_eq,
    ne_eq, and_comm]

/-- One part before others: its paths, extended by those of the others. The others are asked for
at the same depth only if the part can be empty. -/
theorem cons_first (hk : 0 < env.depth) {x : Pending} (ys : List Pending) {head : PathSet}
    {same : m PathSet} {below : Nat → m PathSet} {Q : Prop} (hhead : g.IsFirst env.depth [x] head)
    (hsame : g.Erasable [x] → C.Ensures same fun s => g.IsFirst env.depth ys s ∧ Q)
    (hrest : ∀ j < env.depth, C.Ensures (below j) (g.IsFirst j ys)) :
    C.Ensures
      (PathSet.extendM env.depth head fun room => if room = env.depth then same else below room)
      fun s => g.IsFirst env.depth (x :: ys) s ∧ (g.Erasable [x] → Q) := by
  refine C.mono (C.extendM (T := fun room => g.Opens room ys)
    (Q := fun room => room = env.depth → Q) ?_) ?_
  · intro p hp hlt
    by_cases hnil : p = []
    · subst hnil
      have hx : g.Erasable [x] := (opens_nil_iff_erasable hk).mp ((hhead []).mp hp)
      simp only [List.length_nil, Nat.sub_zero, if_true]
      exact C.mono (hsame hx) fun s hs => ⟨hs.1, fun _ => hs.2⟩
    · have hpos := List.length_pos_iff.mpr hnil
      have hne : ¬ env.depth - p.length = env.depth := by omega
      rw [if_neg hne]
      exact C.mono (hrest _ (by omega)) fun s hs => ⟨hs, fun h => absurd h hne⟩
  · intro s h
    obtain ⟨hs, hQ⟩ := h
    refine ⟨fun q => ?_, fun hx => ?_⟩
    · rw [hs, opens_cons]
      simp only [hhead _]
    · have hmem : [] ∈ head := (hhead []).mpr ((opens_nil_iff_erasable hk).mpr hx)
      exact hQ [] hmem hk (by simp)

variable {known : RuleId → Prop}

mutual

theorem node_first (hk : 0 < env.depth) (hbelow : C.Below g env) : ∀ n : Node,
    (∀ r, Leads g n r → C.Ensures (env.rule r) fun s =>
      g.IsFirst env.depth [.node (.ruleRef r 0)] s ∧ known r) →
    C.Ensures (n.first env) fun s =>
      g.IsFirst env.depth [.node n] s ∧ ∀ r, Leads g n r → known r
  | .terminal t i, _ => by
    rw [Node.first]
    refine C.pure ⟨fun p => ?_, fun r hr => by cases hr⟩
    rw [opens_terminal hk, List.mem_singleton]
  | .sequence parts, hrule => by
    rw [Node.first]
    refine C.mono (parts_first hk hbelow parts hrule) ?_
    intro s h
    obtain ⟨hs, hknown⟩ := h
    exact ⟨fun p => (hs p).trans (opens_sequence hk).symm, hknown⟩
  | .optional body i, hrule => by
    rw [Node.first]
    refine C.bind (node_first hk hbelow body fun r hr => hrule r (.optional hr)) ?_
    intro s h
    obtain ⟨hs, hknown⟩ := h
    refine C.pure ⟨fun p => ?_, ?_⟩
    · rw [PathSet.mem_union, hs, opens_optional hk, PathSet.epsilon, List.mem_singleton]
    · intro r hr
      cases hr with
      | optional hr => exact hknown r hr
  | .repetition body i false, hrule => by
    rw [Node.first]
    refine C.bind (node_first hk hbelow body fun r hr => hrule r (.repetition hr)) ?_
    intro once h
    obtain ⟨honce, hknown⟩ := h
    refine C.mono (C.loop_first hk hbelow honce) fun s hs => ⟨fun p => ?_, ?_⟩
    · rw [hs, opens_many hk]
    · intro r hr
      cases hr with
      | repetition hr => exact hknown r hr
  | .repetition body i true, hrule => by
    rw [Node.first]
    have hbody := node_first hk hbelow body fun r hr => hrule r (.repetition hr)
    refine C.bind hbody ?_
    intro once h
    obtain ⟨honce, hknown⟩ := h
    refine C.mono (C.cons_first hk [.loop body] (Q := True) honce ?_ ?_) ?_
    · intro _
      refine C.bind hbody fun once h => ?_
      exact C.mono (C.loop_first hk hbelow h.1) fun s hs => ⟨hs, trivial⟩
    · exact fun j hj => hbelow j hj _
    · intro s h
      obtain ⟨hs, _⟩ := h
      refine ⟨fun p => (hs p).trans (opens_atLeastOne hk).symm, ?_⟩
      intro r hr
      cases hr with
      | repetition hr => exact hknown r hr
  | .alternation alternatives i description, hrule => by
    rw [Node.first]
    refine C.mono (alternatives_first hk hbelow alternatives fun n hn r hr =>
      hrule r (.alternation hn hr)) ?_
    intro s h
    obtain ⟨hs, hknown⟩ := h
    refine ⟨fun p => (hs p).trans (opens_alternation hk).symm, ?_⟩
    intro r hr
    cases hr with
    | alternation hn hr => exact hknown _ hn r hr
  | .ruleRef r i, hrule => by
    rw [Node.first]
    refine C.mono (hrule r .ruleRef) ?_
    intro s h
    obtain ⟨hs, hknown⟩ := h
    refine ⟨fun p => ?_, ?_⟩
    · rw [hs, opens_ruleRef hk, opens_ruleRef hk]
    · intro r' hr'
      cases hr'
      exact hknown

theorem parts_first (hk : 0 < env.depth) (hbelow : C.Below g env) : ∀ parts : List Node,
    (∀ r, Leads g (.sequence parts) r → C.Ensures (env.rule r) fun s =>
      g.IsFirst env.depth [.node (.ruleRef r 0)] s ∧ known r) →
    C.Ensures (sequenceFirst env parts) fun s =>
      g.IsFirst env.depth (parts.map .node) s ∧ ∀ r, Leads g (.sequence parts) r → known r
  | [], _ => by
    rw [sequenceFirst]
    refine C.pure ⟨fun p => ?_, fun r hr => absurd hr Leads.not_sequence_nil⟩
    rw [List.map_nil, opens_nil, PathSet.epsilon, List.mem_singleton]
  | n :: rest, hrule => by
    rw [sequenceFirst]
    refine C.bind (node_first hk hbelow n fun r hr => hrule r hr.sequence_head) ?_
    intro head h
    obtain ⟨hhead, hknown⟩ := h
    refine C.mono (C.cons_first hk (rest.map .node) hhead
      (fun hn => parts_first hk hbelow rest fun r hr => hrule r (hr.sequence_tail hn))
      fun j hj => hbelow j hj _) ?_
    intro s h
    obtain ⟨hs, hrest⟩ := h
    refine ⟨hs, fun r hr => ?_⟩
    obtain hr | ⟨hn, hr⟩ := hr.cases_sequence_cons
    · exact hknown r hr
    · exact hrest hn r hr

theorem alternatives_first (hk : 0 < env.depth) (hbelow : C.Below g env) :
    ∀ alternatives : List Node,
    (∀ n ∈ alternatives, ∀ r, Leads g n r → C.Ensures (env.rule r) fun s =>
      g.IsFirst env.depth [.node (.ruleRef r 0)] s ∧ known r) →
    C.Ensures (alternativesFirst env alternatives) fun s =>
      (∀ p, p ∈ s ↔ ∃ n ∈ alternatives, g.Opens env.depth [.node n] p) ∧
      ∀ n ∈ alternatives, ∀ r, Leads g n r → known r
  | [], _ => by
    rw [alternativesFirst]
    exact C.pure ⟨by simp, by simp⟩
  | n :: rest, hrule => by
    rw [alternativesFirst]
    refine C.bind (node_first hk hbelow n fun r hr => hrule n (by simp) r hr) ?_
    intro preferred h
    obtain ⟨hpreferred, hknown⟩ := h
    refine C.bind (alternatives_first hk hbelow rest fun n' hn' => hrule n' (by simp [hn'])) ?_
    intro others h
    obtain ⟨hothers, hrest⟩ := h
    refine C.pure ⟨fun p => ?_, ?_⟩
    · rw [PathSet.mem_union, hpreferred, hothers]
      simp
    · intro n' hn'
      rcases List.mem_cons.mp hn' with rfl | hn'
      · exact hknown
      · exact hrest n' hn'

end

theorem pending_first (hk : 0 < env.depth) (hbelow : C.Below g env)
    (hrule : ∀ r, C.Ensures (env.rule r) fun s =>
      g.IsFirst env.depth [.node (.ruleRef r 0)] s ∧ known r) (xs : List Pending) :
    C.Ensures (pendingFirst env xs) fun s =>
      g.IsFirst env.depth xs s ∧ ∀ x ∈ xs.head?, ∀ r, Leads g x.part r → known r := by
  induction xs with
  | nil =>
    rw [pendingFirst]
    refine C.pure ⟨fun p => ?_, by simp⟩
    rw [opens_nil, PathSet.epsilon, List.mem_singleton]
  | cons x rest ih =>
    have hx : C.Ensures (x.first env) fun s =>
        g.IsFirst env.depth [x] s ∧ ∀ r, Leads g x.part r → known r := by
      cases x with
      | node n => exact C.node_first hk hbelow n fun r _ => hrule r
      | loop body =>
        refine C.bind (C.node_first hk hbelow body fun r _ => hrule r) ?_
        intro once h
        obtain ⟨honce, hknown⟩ := h
        exact C.mono (C.loop_first hk hbelow honce) fun s hs => ⟨hs, hknown⟩
    rw [pendingFirst]
    refine C.bind hx ?_
    intro head h
    obtain ⟨hhead, hknown⟩ := h
    refine C.mono (C.cons_first hk rest (Q := True) hhead
      (fun _ => C.mono ih fun s hs => ⟨hs.1, trivial⟩) fun j hj => hbelow j hj _) ?_
    intro s h
    obtain ⟨hs, _⟩ := h
    exact ⟨hs, fun y hy => by simpa [← Option.some.inj hy] using hknown⟩

end Contract

end StrongLL
