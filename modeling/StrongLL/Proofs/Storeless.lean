import StrongLL.Proofs.Renaming

/-!
# StrongLL.Proofs.Storeless

A store saves work and changes no answer:

* `Translation`            — a map between two kinds of computations that keeps sequencing. The
  equations for first sets commute with it, and with a renaming of rules.
* `Both`                   — two computations side by side, so that a contract can compare them.
* `Grammar.plainFirst`     — first sets computed without a store, always from the start.
* `Grammar.plainRule_agree` — the set of a grounded rule does not depend on the active rules.
* `FirstCache.Consistent`  — a store knows what would be computed without it.
* `Grammar.exec_first`     — on such a store a call answers what it would answer without one.
* `Grammar.plainFirst_rename` — the answers, with the order of their paths, do not depend on the
  numbers of the rules.
-/

namespace StrongLL

/-! ## Translations -/

structure Translation (m n : Type → Type) [Monad m] [Monad n] where
  app {α : Type} : m α → n α
  app_pure {α : Type} (a : α) : app (pure a) = pure a
  app_bind {α β : Type} (x : m α) (f : α → m β) : app (x >>= f) = app x >>= fun a => app (f a)

namespace Translation

variable {m n : Type → Type} [Monad m] [Monad n] (T : Translation m n)

theorem mapM {α β : Type} (f : α → m β) (xs : List α) :
    T.app (xs.mapM f) = xs.mapM fun x => T.app (f x) := by
  suffices key : ∀ (xs : List α) (done : List β),
      T.app (List.mapM.loop f xs done) = List.mapM.loop (fun x => T.app (f x)) xs done from
    key xs []
  intro xs
  induction xs with
  | nil => exact fun done => T.app_pure done.reverse
  | cons x xs ih =>
    intro done
    rw [List.mapM.loop, List.mapM.loop, T.app_bind]
    simp only [ih]

theorem extendM (k : Nat) (heads : PathSet) (tails : Nat → m PathSet) :
    T.app (PathSet.extendM k heads tails) =
      PathSet.extendM k heads fun room => T.app (tails room) := by
  simp only [PathSet.extendM, T.app_bind, T.mapM, T.app_pure]

/-- The second surroundings answer for the renamed parts what the first answer for the parts. -/
structure Carries (σ : RuleId → RuleId) (env : Surroundings m) (env' : Surroundings n) : Prop where
  depth : env'.depth = env.depth
  rule (r : RuleId) : env'.rule (σ r) = T.app (env.rule r)
  below (j : Nat) (xs : List Pending) : env'.below j (renamed σ xs) = T.app (env.below j xs)

variable {T} {σ : RuleId → RuleId} {env : Surroundings m} {env' : Surroundings n}

theorem Carries.loop_first (h : T.Carries σ env env') (body : Node) (once : PathSet) :
    loopFirst env' (body.rename σ) once = T.app (loopFirst env body once) := by
  have hbelow : ∀ room, env'.below room [.loop (body.rename σ)] =
      T.app (env.below room [.loop body]) := fun room => h.below room [.loop body]
  simp only [loopFirst, T.app_bind, T.extendM, T.app_pure, h.depth, hbelow]

mutual

theorem Carries.node_first (h : T.Carries σ env env') :
    ∀ n : Node, (n.rename σ).first env' = T.app (n.first env)
  | .terminal t i => by
    simp only [Node.rename, Node.first, T.app_pure]
  | .sequence parts => by
    simp only [Node.rename, Node.first, h.sequence_first parts]
  | .optional body i => by
    simp only [Node.rename, Node.first, h.node_first body, T.app_bind, T.app_pure]
  | .repetition body i false => by
    simp only [Node.rename, Node.first, h.node_first body, h.loop_first body, T.app_bind]
  | .repetition body i true => by
    have hbelow : ∀ room, env'.below room [.loop (body.rename σ)] =
        T.app (env.below room [.loop body]) := fun room => h.below room [.loop body]
    simp only [Node.rename, Node.first, h.node_first body, h.loop_first body, h.depth, hbelow,
      T.app_bind, T.extendM, apply_ite T.app]
  | .alternation alternatives i description => by
    simp only [Node.rename, Node.first, h.alternatives_first alternatives]
  | .ruleRef r i => by
    simp only [Node.rename, Node.first, h.rule]

theorem Carries.sequence_first (h : T.Carries σ env env') :
    ∀ parts : List Node,
      sequenceFirst env' (Node.renameAll σ parts) = T.app (sequenceFirst env parts)
  | [] => by simp only [Node.renameAll, sequenceFirst, T.app_pure]
  | n :: rest => by
    have hbelow : ∀ room, env'.below room ((Node.renameAll σ rest).map .node) =
        T.app (env.below room (rest.map .node)) := by
      intro room
      rw [← renamed_map_node]
      exact h.below room _
    simp only [Node.renameAll, sequenceFirst, h.node_first n, h.sequence_first rest, h.depth,
      hbelow, T.app_bind, T.extendM, apply_ite T.app]

theorem Carries.alternatives_first (h : T.Carries σ env env') :
    ∀ alternatives : List Node,
      alternativesFirst env' (Node.renameAll σ alternatives) =
        T.app (alternativesFirst env alternatives)
  | [] => by simp only [Node.renameAll, alternativesFirst, T.app_pure]
  | n :: rest => by
    simp only [Node.renameAll, alternativesFirst, h.node_first n, h.alternatives_first rest,
      T.app_bind, T.app_pure]

end

theorem Carries.pending_first (h : T.Carries σ env env') (xs : List Pending) :
    pendingFirst env' (renamed σ xs) = T.app (pendingFirst env xs) := by
  induction xs with
  | nil => simp only [renamed_nil, pendingFirst, T.app_pure]
  | cons x rest ih =>
    have hx : (x.rename σ).first env' = T.app (x.first env) := by
      cases x with
      | node n => exact h.node_first n
      | loop body =>
        simp only [Pending.rename, Pending.first, h.node_first body, h.loop_first body, T.app_bind]
    simp only [renamed_cons, pendingFirst, hx, ih, h.depth, h.below, T.app_bind, T.extendM,
      apply_ite T.app]

end Translation

/-! ## Two computations side by side -/

structure Both (m n : Type → Type) (α : Type) where
  first : m α
  second : n α

section

variable {m n : Type → Type} [Monad m] [Monad n]

instance : Monad (Both m n) where
  pure a := ⟨pure a, pure a⟩
  bind x f := ⟨x.first >>= fun a => (f a).first, x.second >>= fun a => (f a).second⟩

namespace Both

def toFirst : Translation (Both m n) m where
  app x := x.first
  app_pure _ := rfl
  app_bind _ _ := rfl

def toSecond : Translation (Both m n) n where
  app x := x.second
  app_pure _ := rfl
  app_bind _ _ := rfl

variable (k : Nat) (rule : RuleId → m PathSet) (rule' : RuleId → n PathSet)
  (below : Nat → List Pending → m PathSet) (below' : Nat → List Pending → n PathSet)

/-- Two surroundings of one depth. -/
def surroundings : Surroundings (Both m n) :=
  ⟨k, fun r => ⟨rule r, rule' r⟩, fun j xs => ⟨below j xs, below' j xs⟩⟩

theorem carries_first :
    toFirst.Carries id (surroundings k rule rule' below below') ⟨k, rule, below⟩ where
  depth := rfl
  rule _ := rfl
  below _ xs := by
    rw [renamed_id]
    rfl

theorem carries_second :
    toSecond.Carries id (surroundings k rule rule' below below') ⟨k, rule', below'⟩ where
  depth := rfl
  rule _ := rfl
  below _ xs := by
    rw [renamed_id]
    rfl

theorem node_first (n : Node) :
    n.first (surroundings k rule rule' below below') =
      ⟨n.first ⟨k, rule, below⟩, n.first ⟨k, rule', below'⟩⟩ := by
  have hfirst := (carries_first k rule rule' below below').node_first n
  have hsecond := (carries_second k rule rule' below below').node_first n
  rw [Node.rename_id] at hfirst hsecond
  rw [hfirst, hsecond]
  rfl

theorem pending_first (xs : List Pending) :
    pendingFirst (surroundings k rule rule' below below') xs =
      ⟨pendingFirst ⟨k, rule, below⟩ xs, pendingFirst ⟨k, rule', below'⟩ xs⟩ := by
  have hfirst := (carries_first k rule rule' below below').pending_first xs
  have hsecond := (carries_second k rule rule' below below').pending_first xs
  rw [renamed_id] at hfirst hsecond
  rw [hfirst, hsecond]
  rfl

end Both

end

/-! ## Without a store -/

namespace Grammar

/-- The set of a rule at depth `k`, computed anew each time. -/
def plainRule (g : Grammar) (k : Nat)
    (below : Nat → List Pending → Except LeftRecursion PathSet) (room : Nat)
    (active : List RuleId) (id : RuleId) : Except LeftRecursion PathSet :=
  if id ∈ active then .error ⟨active.dropWhile (· ≠ id) ++ [id]⟩
  else
    match room, g.get? id with
    | room + 1, some r =>
      r.body.first { depth := k, rule := plainRule g k below room (active ++ [id]), below }
    | _, _ => .ok []

/-- The set of pending parts, given the sets at smaller depths. -/
def plainAt (g : Grammar) (below : Nat → List Pending → Except LeftRecursion PathSet) :
    Nat → List Pending → Except LeftRecursion PathSet
  | 0, _ => .ok .epsilon
  | k + 1, xs => pendingFirst ⟨k + 1, g.plainRule (k + 1) below g.size [], below⟩ xs

/-- The sets at all depths below `k`. -/
def plainBelow (g : Grammar) : Nat → Nat → List Pending → Except LeftRecursion PathSet
  | 0, _, _ => .ok []
  | k + 1, j, xs => if j = k then g.plainAt (plainBelow g k) k xs else plainBelow g k j xs

def plainFirst (g : Grammar) (k : Nat) (xs : List Pending) : Except LeftRecursion PathSet :=
  g.plainAt (g.plainBelow k) k xs

variable {g : Grammar} {k : Nat}

theorem plainBelow_of_lt {j : Nat} (h : j < k) (xs : List Pending) :
    g.plainBelow k j xs = g.plainFirst j xs := by
  induction k with
  | zero => omega
  | succ k ih =>
    rw [plainBelow]
    by_cases hj : j = k
    · rw [if_pos hj, hj]
      rfl
    · rw [if_neg hj]
      exact ih (by omega)

section

variable {below : Nat → List Pending → Except LeftRecursion PathSet} {room : Nat}
  {active : List RuleId} {id : RuleId}

theorem plainRule_of_mem (h : id ∈ active) :
    g.plainRule k below room active id = .error ⟨active.dropWhile (· ≠ id) ++ [id]⟩ := by
  unfold plainRule
  rw [if_pos h]

theorem plainRule_of_none (h : id ∉ active) (hr : g.get? id = none) :
    g.plainRule k below room active id = .ok [] := by
  unfold plainRule
  rw [if_neg h]
  simp [hr]

theorem plainRule_zero (h : id ∉ active) : g.plainRule k below 0 active id = .ok [] := by
  unfold plainRule
  rw [if_neg h]

theorem plainRule_of_some (h : id ∉ active) {r : Rule} (hr : g.get? id = some r) :
    g.plainRule k below (room + 1) active id =
      r.body.first ⟨k, g.plainRule k below room (active ++ [id]), below⟩ := by
  rw [plainRule, if_neg h]
  simp [hr]

theorem Active.not_mem (h : g.Active room active id) (hid : g.Grounded id) : id ∉ active := by
  intro hmem
  obtain ⟨before, path, rfl, -⟩ := List.eq_append_cons_of_mem hmem
  have hchain := h.chain
  rw [List.append_assoc] at hchain
  exact hid.not_cycle (transGen_of_isChain path id hchain.right_of_append)

/-- There is room for a rule of the grammar that is not active. -/
theorem Active.exists_room (h : g.Active room active id) (hid : id ∉ active) {r : Rule}
    (hr : g.get? id = some r) : ∃ rest, room = rest + 1 := by
  cases room with
  | zero => exact absurd (get?_eq_some_lt hr) (Nat.not_lt.mpr (h.size_le hid))
  | succ rest => exact ⟨rest, rfl⟩

end

end Grammar

/-- Both computations end alike, and a result is right. -/
def agreement :
    Contract (Both (Except LeftRecursion) (Except LeftRecursion)) where
  Ensures x post := x.first = x.second ∧ ∀ a, x.first = .ok a → post a
  pure h := ⟨rfl, fun _ heq => Except.ok.inj heq ▸ h⟩
  bind {α β x f mid post} hx hf := by
    obtain ⟨y, z⟩ := x
    obtain ⟨rfl, hmid⟩ : y = z ∧ _ := hx
    cases y with
    | error l => exact ⟨rfl, fun a heq => by cases heq⟩
    | ok a => exact hf a (hmid a rfl)
  mono hx hpost := ⟨hx.1, fun a heq => hpost a (hx.2 a heq)⟩

namespace Grammar

variable {g : Grammar} {k : Nat}

/-- The set of a grounded rule is the same whatever rules are active. -/
theorem plainRule_agree (hk : 0 < k)
    {below : Nat → List Pending → Except LeftRecursion PathSet}
    (hbelow : ∀ j < k, ∀ xs s, below j xs = .ok s → g.IsFirst j xs s) {id : RuleId}
    (hid : g.Grounded id) {room room' : Nat} {active active' : List RuleId}
    (h : g.Active room active id) (h' : g.Active room' active' id) :
    agreement.Ensures ⟨g.plainRule k below room active id, g.plainRule k below room' active' id⟩
      (g.IsRuleFirst k id) := by
  induction hid generalizing room room' active active' with
  | intro id hacc ih =>
    have hgrounded : g.Grounded id := ⟨id, hacc⟩
    have hmem := h.not_mem hgrounded
    have hmem' := h'.not_mem hgrounded
    cases hr : g.get? id with
    | none =>
      rw [plainRule_of_none hmem hr, plainRule_of_none hmem' hr]
      exact agreement.pure (isRuleFirst_of_none hk hr)
    | some r =>
      obtain ⟨room, rfl⟩ := h.exists_room hmem hr
      obtain ⟨room', rfl⟩ := h'.exists_room hmem' hr
      rw [plainRule_of_some hmem hr, plainRule_of_some hmem' hr, ← Both.node_first]
      refine agreement.mono (@Contract.node_first _ _ agreement g _ g.Grounded hk ?_ r.body ?_) ?_
      · intro j hj xs
        exact ⟨rfl, fun s hs => hbelow j hj xs s hs⟩
      · intro b hb
        have hcall : g.LeftCalls id b := ⟨r, hr, hb⟩
        exact ih b hcall (h.callee hmem hcall) (h'.callee hmem' hcall)
      · intro s hs
        exact isRuleFirst_of_body hk hr hs.1 hs.2

end Grammar

/-- All stored sets are right, and what would be computed without the store, whatever rules are
active. -/
structure FirstCache.Consistent (g : Grammar) (c : FirstCache) : Prop where
  isRuleFirst {id : RuleId} {k : Nat} {s : PathSet} :
    c.get? id k = some s → g.IsRuleFirst k id s
  plain {id : RuleId} {k : Nat} {s : PathSet} {room : Nat} {active : List RuleId} :
    c.get? id k = some s → g.Active room active id →
      g.plainRule k (g.plainBelow k) room active id = .ok s

namespace FirstCache

variable {g : Grammar}

theorem consistent_empty : empty.Consistent g where
  isRuleFirst h := by cases h
  plain h := by cases h

theorem Consistent.add {c : FirstCache} (hc : c.Consistent g) {id : RuleId} {k : Nat} {s : PathSet}
    (hs : g.IsRuleFirst k id s)
    (hplain : ∀ {room active}, g.Active room active id →
      g.plainRule k (g.plainBelow k) room active id = .ok s) : (c.add id k s).Consistent g where
  isRuleFirst {r j t} h := by
    rw [get?_add] at h
    split at h
    · rename_i heq
      obtain ⟨rfl, rfl⟩ := heq
      cases h
      exact hs
    · exact hc.isRuleFirst h
  plain {r j t room active} h hactive := by
    rw [get?_add] at h
    split at h
    · rename_i heq
      obtain ⟨rfl, rfl⟩ := heq
      cases h
      exact hplain hactive
    · exact hc.plain h hactive

end FirstCache

/-- From a consistent store the first computation makes a consistent store and ends like the second,
which has none; and a result is right. -/
def storeless (g : Grammar) : Contract (Both FirstM (Except LeftRecursion)) where
  Ensures x post := ∀ c, c.Consistent g → (x.first.exec c).2.Consistent g ∧
    (x.first.exec c).1 = x.second ∧ ∀ a, x.second = .ok a → post a
  pure h := fun _ hc => ⟨hc, rfl, fun _ heq => Except.ok.inj heq ▸ h⟩
  bind {α β x f mid post} hx hf := by
    intro c hc
    obtain ⟨y, z⟩ := x
    obtain ⟨hc', heq, hmid⟩ := hx c hc
    have heq : (y.exec c).1 = z := heq
    subst heq
    show (FirstM.exec (y >>= _) c).2.Consistent g ∧ (FirstM.exec (y >>= _) c).1 = _ ∧ _
    rw [FirstM.exec_bind]
    rcases hrun : FirstM.exec y c with ⟨l | a, c'⟩
    · rw [hrun] at hc'
      exact ⟨hc', rfl, by simp [bind, Except.bind]⟩
    · rw [hrun] at hc' hmid
      exact hf a (hmid a rfl) c' hc'
  mono hx hpost := fun c hc =>
    let ⟨hc', heq, hmid⟩ := hx c hc
    ⟨hc', heq, fun a h => hpost a (hmid a h)⟩

namespace Grammar

variable {g : Grammar} {k : Nat}

/-- What is known is returned, what is in progress is refused, and only else there is something to
compute, with a store and without. -/
theorem storeless_recall {room : Nat} {active : List RuleId} {id : RuleId} {x : FirstM PathSet}
    (hactive : g.Active room active id)
    (hx : id ∉ active → (storeless g).Ensures
      ⟨x, g.plainRule k (g.plainBelow k) room active id⟩ (g.IsRuleFirst k id)) :
    (storeless g).Ensures
      ⟨do
        match (← get).get? id k with
        | some s => return s
        | none => if id ∈ active then throw ⟨active.dropWhile (· ≠ id) ++ [id]⟩ else x,
        g.plainRule k (g.plainBelow k) room active id⟩
      (g.IsRuleFirst k id) := by
  intro c hc
  dsimp only
  rw [FirstM.exec_get_bind]
  cases hget : c.get? id k with
  | some s =>
    rw [hc.plain hget hactive]
    exact ⟨hc, rfl, fun _ heq => Except.ok.inj heq ▸ hc.isRuleFirst hget⟩
  | none =>
    by_cases hid : id ∈ active
    · rw [plainRule_of_mem hid]
      simp only [hid, if_true]
      exact ⟨hc, rfl, fun _ heq => by cases heq⟩
    · simp only [hid, if_false]
      exact hx hid c hc

theorem storeless_ruleFirst (hk : 0 < k) {below : Nat → List Pending → FirstM PathSet}
    (hbelow : ∀ j < k, ∀ xs,
      (storeless g).Ensures ⟨below j xs, g.plainBelow k j xs⟩ (g.IsFirst j xs)) :
    ∀ room active id, g.Active room active id →
      (storeless g).Ensures
        ⟨g.ruleFirst k below room active id, g.plainRule k (g.plainBelow k) room active id⟩
        (g.IsRuleFirst k id) := by
  have hplain : ∀ j < k, ∀ xs s, g.plainBelow k j xs = .ok s → g.IsFirst j xs s :=
    fun j hj xs => (hbelow j hj xs .empty FirstCache.consistent_empty).2.2
  intro room
  induction room with
  | zero =>
    intro active id hactive
    unfold ruleFirst
    refine storeless_recall hactive fun hid => ?_
    have hr : g.get? id = none := List.getElem?_eq_none (hactive.size_le hid)
    rw [plainRule_of_none hid hr]
    exact (storeless g).pure (isRuleFirst_of_none hk hr)
  | succ room ih =>
    intro active id hactive
    unfold ruleFirst
    refine storeless_recall hactive fun hid => ?_
    cases hr : g.get? id with
    | none =>
      rw [plainRule_of_none hid hr]
      exact (storeless g).pure (isRuleFirst_of_none hk hr)
    | some r =>
      have hrule : ∀ b, Leads g r.body b → (storeless g).Ensures
          ⟨g.ruleFirst k below room (active ++ [id]) b,
            g.plainRule k (g.plainBelow k) room (active ++ [id]) b⟩ (g.IsRuleFirst k b) :=
        fun b hb => ih (active ++ [id]) b (hactive.callee hid ⟨r, hr, hb⟩)
      let env := Both.surroundings k (g.ruleFirst k below room (active ++ [id]))
        (g.plainRule k (g.plainBelow k) room (active ++ [id])) below (g.plainBelow k)
      have henv : (storeless g).Below g env := hbelow
      have hbody := (storeless g).mono ((storeless g).node_first hk henv r.body hrule)
        fun s hs => isRuleFirst_of_body hk hr hs.1 hs.2
      rw [Both.node_first, ← plainRule_of_some hid hr] at hbody
      intro c hc
      obtain ⟨hc', heq, hs⟩ := hbody c hc
      dsimp only at hc' heq hs ⊢
      rw [FirstM.exec_bind]
      rcases hrun : FirstM.exec (r.body.first
        ⟨k, g.ruleFirst k below room (active ++ [id]), below⟩) c with ⟨l | s, c'⟩
      · rw [hrun] at hc' heq
        exact ⟨hc', heq, hs⟩
      · rw [hrun] at hc' heq
        have hresult := hs s heq.symm
        -- the set would be the same had other rules been active
        have hadd : (c'.add id k s).Consistent g := hc'.add hresult fun hother => by
          have hagree := plainRule_agree hk hplain hresult.2 hactive hother
          exact hagree.1.symm.trans heq.symm
        exact ⟨hadd, heq, hs⟩

theorem storeless_firstWithin : ∀ fuel k, k ≤ fuel → ∀ xs,
    (storeless g).Ensures ⟨g.firstWithin fuel k xs, g.plainFirst k xs⟩ (g.IsFirst k xs) := by
  intro fuel
  induction fuel with
  | zero =>
    intro k hk xs
    obtain rfl : k = 0 := by omega
    exact (storeless g).pure (by simp [IsFirst, PathSet.epsilon])
  | succ fuel ih =>
    intro k hk xs
    cases k with
    | zero => exact (storeless g).pure (by simp [IsFirst, PathSet.epsilon])
    | succ k =>
      have hbelow : ∀ j < k + 1, ∀ xs, (storeless g).Ensures
          ⟨g.firstWithin fuel j xs, g.plainBelow (k + 1) j xs⟩ (g.IsFirst j xs) := by
        intro j hj xs
        rw [plainBelow_of_lt hj]
        exact ih j (by omega) xs
      have hrule := fun r => storeless_ruleFirst (Nat.succ_pos k) hbelow g.size [] r (.none r)
      let env := Both.surroundings (k + 1) (g.ruleFirst (k + 1) (g.firstWithin fuel) g.size [])
        (g.plainRule (k + 1) (g.plainBelow (k + 1)) g.size []) (g.firstWithin fuel)
        (g.plainBelow (k + 1))
      have henv : (storeless g).Below g env := hbelow
      have hxs := (storeless g).pending_first (Nat.succ_pos k) henv hrule xs
      rw [Both.pending_first] at hxs
      rw [firstWithin]
      exact (storeless g).mono hxs fun s hs => hs.1

theorem storeless_first (xs : List Pending) :
    (storeless g).Ensures ⟨g.first k xs, g.plainFirst k xs⟩ (g.IsFirst k xs) :=
  storeless_firstWithin k k (Nat.le_refl k) xs

/-- Whatever a consistent store holds, a call answers what it answers without a store, and leaves a
consistent store. -/
theorem exec_first {c : FirstCache} (hc : c.Consistent g) (xs : List Pending) :
    ((g.first k xs).exec c).1 = g.plainFirst k xs ∧ ((g.first k xs).exec c).2.Consistent g :=
  let ⟨hc', heq, _⟩ := storeless_first xs c hc
  ⟨heq, hc'⟩

theorem isFirst_of_plainFirst {xs : List Pending} {s : PathSet} (h : g.plainFirst k xs = .ok s) :
    g.IsFirst k xs s :=
  (storeless_first xs .empty FirstCache.consistent_empty).2.2 s h

end Grammar

/-! ## The order of the paths -/

def LeftRecursion.rename (σ : RuleId → RuleId) (l : LeftRecursion) : LeftRecursion :=
  ⟨l.cycle.map σ⟩

/-- Reports of left recursion renamed, results left alone. -/
def renameReports (σ : RuleId → RuleId) :
    Translation (Except LeftRecursion) (Except LeftRecursion) where
  app x := x.mapError (·.rename σ)
  app_pure _ := rfl
  app_bind x _ := by cases x <;> rfl

namespace Grammar.Renames

variable {σ : Equiv.Perm RuleId} {g g' : Grammar} {k : Nat}

theorem plainRule_renamed_of_mem {below below' : Nat → List Pending → Except LeftRecursion PathSet}
    {room : Nat} {active : List RuleId} {id : RuleId} (hid : id ∈ active) :
    g'.plainRule k below' room (active.map σ) (σ id) =
      (renameReports σ).app (g.plainRule k below room active id) := by
  rw [plainRule_of_mem hid, plainRule_of_mem (List.mem_map_of_mem hid), List.dropWhile_map]
  have hne : (fun r => decide (r ≠ σ id)) ∘ σ = fun r => decide (r ≠ id) := by
    funext r
    simp
  rw [hne, ← List.map_singleton, ← List.map_append]
  rfl

theorem plainRule (h : g.Renames σ g')
    {below below' : Nat → List Pending → Except LeftRecursion PathSet}
    (hbelow : ∀ j xs, below' j (renamed σ xs) = (renameReports σ).app (below j xs)) :
    ∀ room active id, g'.plainRule k below' room (active.map σ) (σ id) =
      (renameReports σ).app (g.plainRule k below room active id) := by
  have hmem : ∀ active id, σ id ∈ List.map σ active ↔ id ∈ active := fun active id =>
    List.mem_map_of_injective σ.injective
  intro room
  induction room with
  | zero =>
    intro active id
    by_cases hid : id ∈ active
    · exact plainRule_renamed_of_mem hid
    · have hid' : σ id ∉ active.map σ := fun h => hid ((hmem active id).mp h)
      rw [plainRule_zero hid, plainRule_zero hid']
      rfl
  | succ room ih =>
    intro active id
    by_cases hid : id ∈ active
    · exact plainRule_renamed_of_mem hid
    have hid' : σ id ∉ active.map σ := fun h => hid ((hmem active id).mp h)
    cases hr : g.get? id with
    | none =>
      have hr' : g'.get? (σ id) = none := by rw [h, hr]; rfl
      rw [plainRule_of_none hid hr, plainRule_of_none hid' hr']
      rfl
    | some r =>
      have hcarries : (renameReports σ).Carries σ
          ⟨k, g.plainRule k below room (active ++ [id]), below⟩
          ⟨k, g'.plainRule k below' room (active.map σ ++ [σ id]), below'⟩ := by
        refine ⟨rfl, fun b => ?_, hbelow⟩
        have hb := ih (active ++ [id]) b
        rwa [List.map_append] at hb
      rw [plainRule_of_some hid hr, plainRule_of_some hid' (h.get? hr)]
      exact hcarries.node_first r.body

theorem plainAt (h : g.Renames σ g')
    {below below' : Nat → List Pending → Except LeftRecursion PathSet}
    (hbelow : ∀ j xs, below' j (renamed σ xs) = (renameReports σ).app (below j xs))
    (xs : List Pending) :
    g'.plainAt below' k (renamed σ xs) = (renameReports σ).app (g.plainAt below k xs) := by
  cases k with
  | zero => rfl
  | succ k =>
    have hcarries : (renameReports σ).Carries σ
        ⟨k + 1, g.plainRule (k + 1) below g.size [], below⟩
        ⟨k + 1, g'.plainRule (k + 1) below' g'.size [], below'⟩ := by
      refine ⟨rfl, fun b => ?_, hbelow⟩
      rw [h.size_eq]
      exact h.plainRule hbelow g.size [] b
    exact hcarries.pending_first xs

theorem plainBelow (h : g.Renames σ g') : ∀ k j xs,
    g'.plainBelow k j (renamed σ xs) = (renameReports σ).app (g.plainBelow k j xs) := by
  intro k
  induction k with
  | zero => exact fun j xs => rfl
  | succ k ih =>
    intro j xs
    rw [Grammar.plainBelow, Grammar.plainBelow]
    by_cases hj : j = k
    · rw [if_pos hj, if_pos hj]
      exact h.plainAt ih xs
    · rw [if_neg hj, if_neg hj]
      exact ih j xs

/-- The same paths in the same order, or the same cycle renamed. -/
theorem plainFirst (h : g.Renames σ g') (xs : List Pending) :
    g'.plainFirst k (renamed σ xs) = (g.plainFirst k xs).mapError (·.rename σ) :=
  h.plainAt (h.plainBelow k) xs

end Grammar.Renames

end StrongLL
