import StrongLL.Analysis
import StrongLL.Proofs.FirstSets

/-!
# StrongLL.Proofs.FirstStore

First sets with a store are exact too, and left recursion is found where it is:

* `Grammar.Grounded`      — a rule from which no chain of leading invocations goes on forever.
* `FirstCache.Sound`      — all stored sets are exact, and all stored rules grounded.
* `storeContract`         — from a sound store a computation makes a sound store, with a right
  result or a true report of left recursion.
* `Grammar.ensures_first` — the set of pending parts keeps that contract.
* `Grammar.ensures_checkLeftRecursion` — the check of a grammar misses no left recursion.
-/

namespace StrongLL

namespace Grammar

def Grounded (g : Grammar) (r : RuleId) : Prop := Acc (fun b a => g.LeftCalls a b) r

variable {g : Grammar}

theorem Grounded.not_cycle {r : RuleId} (h : g.Grounded r) :
    ¬ Relation.TransGen g.LeftCalls r r := by
  induction h with
  | intro r _ ih =>
    intro hcycle
    obtain ⟨b, hb, hback⟩ := Relation.TransGen.head'_iff.mp hcycle
    exact ih b hb (Relation.TransGen.tail' hback hb)

/-- A rule in progress that is asked for again closes a cycle. -/
theorem isLeftCycle_of_mem {active : List RuleId} {id : RuleId}
    (hchain : (active ++ [id]).IsChain g.LeftCalls) (hnodup : active.Nodup) (hid : id ∈ active) :
    g.IsLeftCycle ⟨active.dropWhile (· ≠ id) ++ [id]⟩ := by
  obtain ⟨before, path, rfl, hbefore⟩ := List.eq_append_cons_of_mem hid
  have hdrop : (before ++ id :: path).dropWhile (· ≠ id) = id :: path := by
    have hall : ∀ a ∈ before, (decide (a ≠ id)) = true := by
      intro a ha
      have hne : a ≠ id := fun h => hbefore (h ▸ ha)
      simpa using hne
    rw [List.dropWhile_append_of_pos hall]
    simp
  refine ⟨id, path, ?_, (List.nodup_append.mp hnodup).2.1, ?_⟩
  · show (before ++ id :: path).dropWhile (· ≠ id) ++ [id] = id :: path ++ [id]
    rw [hdrop]
  · show ((before ++ id :: path).dropWhile (· ≠ id) ++ [id]).IsChain g.LeftCalls
    rw [hdrop]
    rw [List.append_assoc] at hchain
    exact hchain.right_of_append

end Grammar

namespace FirstCache

structure Sound (g : Grammar) (c : FirstCache) : Prop where
  isFirst {id : RuleId} {k : Nat} {s : PathSet} :
    c.get? id k = some s → g.IsFirst k [.node (.ruleRef id 0)] s
  grounded {id : RuleId} {k : Nat} {s : PathSet} : c.get? id k = some s → g.Grounded id

variable {g : Grammar}

theorem sound_empty : empty.Sound g where
  isFirst h := by cases h
  grounded h := by cases h

theorem get?_add {c : FirstCache} {id r : RuleId} {k j : Nat} {s : PathSet} :
    (c.add id k s).get? r j = if r = id ∧ j = k then some s else c.get? r j := by
  by_cases h : (r, j) = (id, k)
  · obtain ⟨rfl, rfl⟩ : r = id ∧ j = k := by simpa using h
    simp [add, get?]
  · have hne : ((r, j) == (id, k)) = false := by simpa using h
    rw [if_neg (by simpa using h)]
    simp [add, get?, List.lookup_cons, hne]

theorem Sound.add {c : FirstCache} (hc : c.Sound g) {id : RuleId} {k : Nat} {s : PathSet}
    (hs : g.IsFirst k [.node (.ruleRef id 0)] s) (hid : g.Grounded id) :
    (c.add id k s).Sound g where
  isFirst {r j t} h := by
    rw [get?_add] at h
    split at h
    · rename_i heq
      obtain ⟨rfl, rfl⟩ := heq
      cases h
      exact hs
    · exact hc.isFirst h
  grounded {r j t} h := by
    rw [get?_add] at h
    split at h
    · rename_i heq
      exact heq.1 ▸ hid
    · exact hc.grounded h

end FirstCache

namespace FirstM

variable {α β : Type}

/-- The run of a computation from a store: its outcome and the store it leaves. -/
def exec (x : FirstM α) (c : FirstCache) : Except LeftRecursion α × FirstCache := x.run.run c

theorem exec_bind (x : FirstM α) (f : α → FirstM β) (c : FirstCache) :
    exec (x >>= f) c =
      match exec x c with
      | (.ok a, c) => exec (f a) c
      | (.error l, c) => (.error l, c) := by
  simp only [exec, ExceptT.run, StateT.run, bind, ExceptT.bind, ExceptT.mk, StateT.bind,
    ExceptT.bindCont]
  rcases x c with ⟨_ | a, c'⟩ <;> rfl

theorem exec_get_bind (f : FirstCache → FirstM β) (c : FirstCache) :
    exec (get >>= f) c = exec (f c) c := rfl

def Ensures (g : Grammar) (x : FirstM α) (post : α → Prop) : Prop :=
  ∀ c, c.Sound g → (exec x c).2.Sound g ∧
    match (exec x c).1 with
    | .ok a => post a
    | .error l => g.IsLeftCycle l

end FirstM

/-- From a sound store a computation makes a sound store, with a right result or a true report of
left recursion. -/
def storeContract (g : Grammar) : Contract FirstM where
  Ensures := FirstM.Ensures g
  pure h := fun c hc => ⟨hc, h⟩
  bind {α β x f mid post} hx hf := by
    intro c hc
    obtain ⟨hc', hresult⟩ := hx c hc
    rw [FirstM.exec_bind]
    rcases hrun : FirstM.exec x c with ⟨l | a, c'⟩
    · rw [hrun] at hc' hresult
      exact ⟨hc', hresult⟩
    · rw [hrun] at hc' hresult
      exact hf a hresult c' hc'
  mono {α x mid post} hx hpost := by
    intro c hc
    obtain ⟨hc', hresult⟩ := hx c hc
    refine ⟨hc', ?_⟩
    rcases hrun : FirstM.exec x c with ⟨l | a, c'⟩
    · rw [hrun] at hresult
      exact hresult
    · rw [hrun] at hresult
      exact hpost a hresult

/-- A computation that starts without any sets known keeps the contract as it stands. -/
theorem FirstM.Ensures.result {g : Grammar} {α : Type} {x : FirstM α} {post : α → Prop}
    (h : x.Ensures g post) :
    match x.result with
    | .ok a => post a
    | .error l => g.IsLeftCycle l :=
  (h .empty FirstCache.sound_empty).2

namespace Grammar

variable {g : Grammar} {k : Nat}

/-- The set of a rule, and that it is grounded. -/
def IsRuleFirst (g : Grammar) (k : Nat) (id : RuleId) (s : PathSet) : Prop :=
  g.IsFirst k [.node (.ruleRef id 0)] s ∧ g.Grounded id

theorem isRuleFirst_of_none (hk : 0 < k) {id : RuleId} (h : g.get? id = none) :
    g.IsRuleFirst k id [] := by
  constructor
  · intro p
    rw [opens_ruleRef hk]
    simp [h]
  · refine ⟨id, fun b hb => ?_⟩
    obtain ⟨rule, hr, -⟩ := hb
    rw [h] at hr
    cases hr

theorem isRuleFirst_of_body (hk : 0 < k) {id : RuleId} {r : Rule} {s : PathSet}
    (hr : g.get? id = some r) (hs : g.IsFirst k [.node r.body] s)
    (hleads : ∀ b, Leads g r.body b → g.Grounded b) : g.IsRuleFirst k id s := by
  constructor
  · intro p
    rw [hs, opens_ruleRef hk]
    simp [hr]
  · refine ⟨id, fun b hb => ?_⟩
    obtain ⟨rule, hrule, hb⟩ := hb
    obtain rfl : r = rule := Option.some.inj (hr.symm.trans hrule)
    exact hleads b hb

/-- Distinct rules of the grammar that are as many as it has leave none out. -/
theorem mem_of_all_active {active : List RuleId} (hnodup : active.Nodup)
    (hlt : ∀ r ∈ active, r < g.size) (hlen : active.length = g.size) {id : RuleId}
    (hid : id < g.size) : id ∈ active := by
  have hsub : active.Subperm (List.range g.size) :=
    List.subperm_of_subset hnodup fun r hr => List.mem_range.mpr (hlt r hr)
  have hperm : active.Perm (List.range g.size) := hsub.perm_of_length_le (by simp [hlen])
  exact hperm.mem_iff.mpr (List.mem_range.mpr hid)

/-- The rules that are active when `id` is asked for, each of which leads to the next. They are
distinct, and there is room for as many more as the grammar has. -/
structure Active (g : Grammar) (room : Nat) (active : List RuleId) (id : RuleId) : Prop where
  chain : (active ++ [id]).IsChain g.LeftCalls
  nodup : active.Nodup
  lt : ∀ r ∈ active, r < g.size
  length : room + active.length = g.size

namespace Active

variable {room : Nat} {active : List RuleId} {id b : RuleId}

theorem none (id : RuleId) : g.Active g.size [] id := by
  constructor <;> simp

/-- With no room left all rules are active. -/
theorem size_le (h : g.Active 0 active id) (hid : id ∉ active) : g.size ≤ id := by
  have hfull : active.length = g.size := by simpa using h.length
  exact Nat.le_of_not_lt fun hlt => hid (mem_of_all_active h.nodup h.lt hfull hlt)

theorem callee (h : g.Active (room + 1) active id) (hid : id ∉ active) (hb : g.LeftCalls id b) :
    g.Active room (active ++ [id]) b where
  chain := h.chain.append (.singleton b) (by simpa using hb)
  nodup := by
    refine List.nodup_append.mpr ⟨h.nodup, by simp, ?_⟩
    rintro a ha c hc rfl
    obtain rfl := List.mem_singleton.mp hc
    exact hid ha
  lt := by
    intro a ha
    obtain ha | ha := List.mem_append.mp ha
    · exact h.lt a ha
    · obtain rfl := List.mem_singleton.mp ha
      exact hb.lt
  length := by
    have := h.length
    simp only [List.length_append, List.length_singleton]
    omega

end Active

/-- What is known is returned, what is in progress is refused, and only else there is something to
compute. -/
theorem ensures_recall {room : Nat} {active : List RuleId} {id : RuleId} {x : FirstM PathSet}
    (hactive : g.Active room active id)
    (hx : id ∉ active → (storeContract g).Ensures x (g.IsRuleFirst k id)) :
    (storeContract g).Ensures
      (do
        match (← get).get? id k with
        | some s => return s
        | none => if id ∈ active then throw ⟨active.dropWhile (· ≠ id) ++ [id]⟩ else x)
      (g.IsRuleFirst k id) := by
  intro c hc
  rw [FirstM.exec_get_bind]
  cases hget : c.get? id k with
  | some s => exact ⟨hc, hc.isFirst hget, hc.grounded hget⟩
  | none =>
    by_cases hid : id ∈ active
    · simp only [hid, if_true]
      exact ⟨hc, isLeftCycle_of_mem hactive.chain hactive.nodup hid⟩
    · simp only [hid, if_false]
      exact hx hid c hc

theorem ensures_ruleFirst (hk : 0 < k) {below : Nat → List Pending → FirstM PathSet}
    (hbelow : ∀ j < k, ∀ xs, (storeContract g).Ensures (below j xs) (g.IsFirst j xs)) :
    ∀ room active id, g.Active room active id →
      (storeContract g).Ensures (g.ruleFirst k below room active id) (g.IsRuleFirst k id) := by
  intro room
  induction room with
  | zero =>
    intro active id hactive
    unfold ruleFirst
    refine ensures_recall hactive fun hid => (storeContract g).pure ?_
    exact isRuleFirst_of_none hk (List.getElem?_eq_none (hactive.size_le hid))
  | succ room ih =>
    intro active id hactive
    unfold ruleFirst
    refine ensures_recall hactive fun hid => ?_
    cases hr : g.get? id with
    | none => exact (storeContract g).pure (isRuleFirst_of_none hk hr)
    | some r =>
      have hrule : ∀ b, Leads g r.body b → (storeContract g).Ensures
          (g.ruleFirst k below room (active ++ [id]) b) (g.IsRuleFirst k b) := fun b hb =>
        ih (active ++ [id]) b (hactive.callee hid ⟨r, hr, hb⟩)
      let env : Surroundings FirstM := ⟨k, g.ruleFirst k below room (active ++ [id]), below⟩
      have henv : (storeContract g).Below g env := hbelow
      have hbody := (storeContract g).node_first hk henv r.body hrule
      refine (storeContract g).bind hbody fun s hs c hc => ?_
      have hrule : g.IsRuleFirst k id s := isRuleFirst_of_body hk hr hs.1 hs.2
      exact ⟨hc.add hrule.1 hrule.2, hrule⟩

theorem ensures_firstWithin : ∀ fuel k, k ≤ fuel → ∀ xs,
    (storeContract g).Ensures (g.firstWithin fuel k xs) fun s =>
      g.IsFirst k xs s ∧ (0 < k → ∀ x ∈ xs.head?, ∀ r, Leads g x.part r → g.Grounded r) := by
  intro fuel
  induction fuel with
  | zero =>
    intro k hk xs
    obtain rfl : k = 0 := by omega
    exact (storeContract g).pure ⟨by simp [IsFirst, PathSet.epsilon], by simp⟩
  | succ fuel ih =>
    intro k hk xs
    cases k with
    | zero => exact (storeContract g).pure ⟨by simp [IsFirst, PathSet.epsilon], by simp⟩
    | succ k =>
      have hbelow : ∀ j < k + 1, ∀ xs,
          (storeContract g).Ensures (g.firstWithin fuel j xs) (g.IsFirst j xs) := fun j hj xs =>
        (storeContract g).mono (ih j (by omega) xs) fun s hs => hs.1
      rw [firstWithin]
      have hrule : ∀ r, (storeContract g).Ensures
          (g.ruleFirst (k + 1) (g.firstWithin fuel) g.size [] r) (g.IsRuleFirst (k + 1) r) :=
        fun r => ensures_ruleFirst (Nat.succ_pos k) hbelow g.size [] r (.none r)
      let env : Surroundings FirstM :=
        ⟨k + 1, g.ruleFirst (k + 1) (g.firstWithin fuel) g.size [], g.firstWithin fuel⟩
      have henv : (storeContract g).Below g env := hbelow
      have hxs := (storeContract g).pending_first (Nat.succ_pos k) henv hrule xs
      exact (storeContract g).mono hxs fun s hs => ⟨hs.1, fun _ => hs.2⟩

theorem ensures_first (xs : List Pending) :
    (storeContract g).Ensures (g.first k xs) (g.IsFirst k xs) :=
  (storeContract g).mono (ensures_firstWithin k k (Nat.le_refl k) xs) fun _ hs => hs.1

theorem ensures_firstOfRule (hk : 0 < k) (r : RuleId) :
    (storeContract g).Ensures (g.firstOfRule k r) fun _ => g.Grounded r :=
  (storeContract g).mono (ensures_firstWithin k k (Nat.le_refl k) [.node (.ruleRef r 0)])
    fun _ hs => hs.2 hk (.node (.ruleRef r 0)) rfl r .ruleRef

/-- The check of all rules finds left recursion if there is any. -/
theorem ensures_checkLeftRecursion :
    (storeContract g).Ensures g.checkLeftRecursion fun _ => ¬ g.LeftRecursive := by
  have hall : ∀ rules : List RuleId,
      (storeContract g).Ensures (rules.forM fun id => do let _ ← g.firstOfRule 1 id) fun _ =>
        ∀ r ∈ rules, g.Grounded r := by
    intro rules
    induction rules with
    | nil => exact (storeContract g).pure (by simp)
    | cons r rules ih =>
      have hr : (storeContract g).Ensures (do let _ ← g.firstOfRule 1 r) fun _ => g.Grounded r :=
        (storeContract g).bind (ensures_firstOfRule Nat.one_pos r) fun _ h =>
          (storeContract g).pure h
      refine (storeContract g).bind hr fun _ hr => (storeContract g).mono ih fun _ hrest => ?_
      simpa using ⟨hr, hrest⟩
  refine (storeContract g).mono (hall (List.range g.size)) ?_
  intro _ hgrounded h
  obtain ⟨r, hr⟩ := h
  obtain ⟨b, hb, -⟩ := Relation.TransGen.head'_iff.mp hr
  exact (hgrounded r (List.mem_range.mpr hb.lt)).not_cycle hr

end Grammar

end StrongLL
