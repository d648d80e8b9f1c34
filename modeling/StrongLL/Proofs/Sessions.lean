import StrongLL.Prediction.FirstStack
import StrongLL.Proofs.Storeless

/-!
# StrongLL.Proofs.Sessions

What has been asked before changes no answer:

* `historyless`               — computations that end alike from all consistent stores.
* `stacked`                   — a computation with the rules in progress at hand, and one that finds
  them on a stack and leaves the stack as it was.
* `Grammar.stacked_ruleFirst` — the set of a rule keeps that contract: of the entries of the stack
  only those of the present depth matter.
* `Grammar.session_eq_fresh`  — in a session each call is answered as if it were the first one, and
  the stack is empty after it.
-/

namespace StrongLL

/-! ## Any store -/

/-- From all consistent stores a computation ends alike, and makes a consistent store. -/
def historyless (g : Grammar) : Contract FirstM where
  Ensures x post := ∃ outcome,
    (∀ c, c.Consistent g → (x.exec c).1 = outcome ∧ (x.exec c).2.Consistent g) ∧
      ∀ a, outcome = .ok a → post a
  pure {α a post} h := ⟨.ok a, fun _ hc => ⟨rfl, hc⟩, fun _ heq => Except.ok.inj heq ▸ h⟩
  bind {α β x f mid post} hx hf := by
    obtain ⟨outcome, hrun, hmid⟩ := hx
    cases outcome with
    | error l =>
      refine ⟨.error l, fun c hc => ?_, fun _ heq => by cases heq⟩
      obtain ⟨heq, hc'⟩ := hrun c hc
      rw [FirstM.exec_bind]
      rcases hx : FirstM.exec x c with ⟨_ | _, c'⟩ <;> rw [hx] at heq hc' <;> cases heq
      exact ⟨rfl, hc'⟩
    | ok a =>
      obtain ⟨outcome, hrest, hpost⟩ := hf a (hmid a rfl)
      refine ⟨outcome, fun c hc => ?_, hpost⟩
      obtain ⟨heq, hc'⟩ := hrun c hc
      rw [FirstM.exec_bind]
      rcases hx : FirstM.exec x c with ⟨_ | _, c'⟩ <;> rw [hx] at heq hc' <;> cases heq
      exact hrest c' hc'
  mono hx hpost :=
    let ⟨outcome, hrun, hmid⟩ := hx
    ⟨outcome, hrun, fun a heq => hpost a (hmid a heq)⟩

namespace Grammar

variable {g : Grammar} {k : Nat}

theorem historyless_first (xs : List Pending) :
    (historyless g).Ensures (g.first k xs) fun _ => True :=
  ⟨g.plainFirst k xs, fun _ hc => exec_first hc xs, fun _ _ => trivial⟩

theorem historyless_followSets : (historyless g).Ensures (g.followSets k) fun _ => True := by
  have hsites : (historyless g).Ensures (g.callSites k) fun _ => True :=
    (historyless g).mono ((historyless g).mapM (R := fun _ _ => True) fun _ _ =>
      (historyless g).bind (historyless_first _) fun _ _ => (historyless g).pure trivial)
      fun _ _ => trivial
  exact (historyless g).bind hsites fun _ _ => (historyless g).pure trivial

theorem historyless_answer (call : FirstCall) :
    (historyless g).Ensures (call.answer g) fun _ => True := by
  cases call with
  | rule id k =>
    exact (historyless g).bind (historyless_first _) fun _ _ => (historyless g).pure trivial
  | node n k =>
    exact (historyless g).bind (historyless_first _) fun _ _ => (historyless g).pure trivial
  | followSets k =>
    exact (historyless g).bind historyless_followSets fun _ _ => (historyless g).pure trivial

/-- A consistent store answers as one that knows nothing. -/
theorem exec_answer {c : FirstCache} (hc : c.Consistent g) (call : FirstCall) :
    ((call.answer g).exec c).1 = (call.answer g).result ∧
      ((call.answer g).exec c).2.Consistent g := by
  obtain ⟨outcome, hrun, -⟩ := historyless_answer (g := g) call
  have hempty := (hrun .empty FirstCache.consistent_empty).1
  obtain ⟨hend, hc'⟩ := hrun c hc
  exact ⟨hend.trans hempty.symm, hc'⟩

end Grammar

/-! ## The stack -/

namespace StackM

variable {α β : Type}

theorem exec_bind (x : StackM α) (f : α → StackM β) (s : FirstStack) :
    exec (x >>= f) s =
      match exec x s with
      | (.ok a, s) => exec (f a) s
      | (.error l, s) => (.error l, s) := by
  simp only [exec, ExceptT.run, StateT.run, bind, ExceptT.bind, ExceptT.mk, StateT.bind,
    ExceptT.bindCont]
  rcases x s with ⟨_ | a, s'⟩ <;> rfl

theorem exec_get_bind (f : FirstStack → StackM β) (s : FirstStack) :
    exec (get >>= f) s = exec (f s) s := rfl

theorem exec_during (entry : RuleId × Nat) (x : StackM α) (s : FirstStack) :
    exec (during entry x) s = ((exec x (s.push entry)).1, (exec x (s.push entry)).2.pop) := rfl

end StackM

/-- From a sound store both computations end alike with the same store, the second one with the
stack that it has found. -/
def stacked (g : Grammar) (stack : List (RuleId × Nat)) : Contract (Both FirstM StackM) where
  Ensures x post := (storeContract g).Ensures x.first post ∧ ∀ c, c.Sound g →
    x.second.exec ⟨c, stack⟩ = ((x.first.exec c).1, ⟨(x.first.exec c).2, stack⟩)
  pure h := ⟨(storeContract g).pure h, fun _ _ => rfl⟩
  bind {α β x f mid post} hx hf := by
    obtain ⟨y, z⟩ := x
    obtain ⟨hy, hz⟩ := hx
    refine ⟨(storeContract g).bind hy fun a ha => (hf a ha).1, fun c hc => ?_⟩
    obtain ⟨hc', hmid⟩ := hy c hc
    have hz := hz c hc
    show StackM.exec (z >>= _) _ = ((FirstM.exec (y >>= _) c).1, ⟨(FirstM.exec (y >>= _) c).2, _⟩)
    rw [StackM.exec_bind, FirstM.exec_bind, hz]
    dsimp only at hc' hmid ⊢
    rcases hrun : FirstM.exec y c with ⟨l | a, c'⟩
    · rfl
    · rw [hrun] at hc' hmid
      exact (hf a hmid).2 c' hc'
  mono {α x mid post} hx hpost := by
    obtain ⟨hfirst, hsecond⟩ := hx
    exact ⟨(storeContract g).mono hfirst hpost, hsecond⟩

namespace Grammar

variable {g : Grammar} {k : Nat}

section

variable {lower : List (RuleId × Nat)} {active : List RuleId}

/-- Of the rules on the stack those of the present depth are the innermost ones. -/
theorem mem_stack_iff (hlower : ∀ e ∈ lower, k < e.2) (id : RuleId) :
    (lower ++ active.map (·, k)).contains (id, k) ↔ id ∈ active := by
  have hnot : (id, k) ∉ lower := fun h => Nat.lt_irrefl k (hlower _ h)
  simp [hnot]

theorem cycle_of_stack (hlower : ∀ e ∈ lower, k < e.2) (id : RuleId) :
    ((lower ++ active.map (·, k)).dropWhile (· ≠ (id, k))).map (·.1) =
      active.dropWhile (· ≠ id) := by
  have hall : ∀ e ∈ lower, decide (e ≠ (id, k)) = true := by
    intro e he
    have hne : e ≠ (id, k) := by
      rintro rfl
      exact Nat.lt_irrefl k (hlower _ he)
    simpa using hne
  have hentry : ((fun e => decide (e ≠ (id, k))) ∘ fun r => (r, k)) = fun r => decide (r ≠ id) := by
    funext r
    simp
  rw [List.dropWhile_append_of_pos hall, List.dropWhile_map, hentry, List.map_map]
  exact List.map_id _

end

theorem stacked_during {stack : List (RuleId × Nat)} {entry : RuleId × Nat} {α : Type}
    {x : FirstM α} {y : StackM α} {post : α → Prop}
    (h : (stacked g (stack ++ [entry])).Ensures ⟨x, y⟩ post) :
    (stacked g stack).Ensures ⟨x, StackM.during entry y⟩ post := by
  refine ⟨h.1, fun c hc => ?_⟩
  have hpush : y.exec (FirstStack.push ⟨c, stack⟩ entry) = _ := h.2 c hc
  dsimp only
  rw [StackM.exec_during, hpush]
  simp [FirstStack.pop]

/-- What is known is returned, what is in progress is refused, and only else there is something to
compute, with the rules at hand and with the stack. -/
theorem stacked_recall {room : Nat} {lower : List (RuleId × Nat)} {active : List RuleId}
    {id : RuleId} {x : FirstM PathSet} {y : StackM PathSet} (hlower : ∀ e ∈ lower, k < e.2)
    (hactive : g.Active room active id)
    (hxy : id ∉ active →
      (stacked g (lower ++ active.map (·, k))).Ensures ⟨x, y⟩ (g.IsRuleFirst k id)) :
    (stacked g (lower ++ active.map (·, k))).Ensures
      ⟨do
        match (← get).get? id k with
        | some s => return s
        | none => if id ∈ active then throw ⟨active.dropWhile (· ≠ id) ++ [id]⟩ else x,
      do
        match (← get).cache.get? id k with
        | some s => return s
        | none =>
          let active := (← get).active
          if active.contains (id, k) then
            throw ⟨(active.dropWhile (· ≠ (id, k))).map (·.1) ++ [id]⟩
          else y⟩
      (g.IsRuleFirst k id) := by
  refine ⟨ensures_recall hactive fun hid => (hxy hid).1, fun c hc => ?_⟩
  dsimp only
  rw [FirstM.exec_get_bind, StackM.exec_get_bind]
  dsimp only
  cases hget : c.get? id k with
  | some s => rfl
  | none =>
    dsimp only
    rw [StackM.exec_get_bind]
    simp only [mem_stack_iff hlower]
    by_cases hid : id ∈ active
    · rw [if_pos hid, if_pos hid, cycle_of_stack hlower]
      rfl
    · rw [if_neg hid, if_neg hid]
      exact (hxy hid).2 c hc

theorem stacked_ruleFirst (hk : 0 < k) {lower : List (RuleId × Nat)}
    (hlower : ∀ e ∈ lower, k < e.2) {below : Nat → List Pending → FirstM PathSet}
    {below' : Nat → List Pending → StackM PathSet}
    (hbelow : ∀ stack : List (RuleId × Nat), (∀ e ∈ stack, k ≤ e.2) → ∀ j < k, ∀ xs,
      (stacked g stack).Ensures ⟨below j xs, below' j xs⟩ (g.IsFirst j xs)) :
    ∀ room active id, g.Active room active id →
      (stacked g (lower ++ active.map (·, k))).Ensures
        ⟨g.ruleFirst k below room active id, g.stackRule k below' room id⟩
        (g.IsRuleFirst k id) := by
  have hstack : ∀ active : List RuleId, ∀ e ∈ lower ++ active.map (·, k), k ≤ e.2 := by
    intro active e he
    obtain he | he := List.mem_append.mp he
    · exact Nat.le_of_lt (hlower e he)
    · obtain ⟨r, -, rfl⟩ := List.mem_map.mp he
      exact Nat.le_refl k
  intro room
  induction room with
  | zero =>
    intro active id hactive
    unfold ruleFirst stackRule
    refine stacked_recall hlower hactive fun hid => ?_
    have hr : g.get? id = none := List.getElem?_eq_none (hactive.size_le hid)
    exact (stacked g _).pure (isRuleFirst_of_none hk hr)
  | succ room ih =>
    intro active id hactive
    unfold ruleFirst stackRule
    refine stacked_recall hlower hactive fun hid => ?_
    cases hr : g.get? id with
    | none => exact (stacked g _).pure (isRuleFirst_of_none hk hr)
    | some r =>
      have hrule : ∀ b, Leads g r.body b →
          (stacked g (lower ++ (active ++ [id]).map (·, k))).Ensures
            ⟨g.ruleFirst k below room (active ++ [id]) b, g.stackRule k below' room b⟩
            (g.IsRuleFirst k b) :=
        fun b hb => ih (active ++ [id]) b (hactive.callee hid ⟨r, hr, hb⟩)
      let env := Both.surroundings k (g.ruleFirst k below room (active ++ [id]))
        (g.stackRule k below' room) below below'
      have henv : (stacked g (lower ++ (active ++ [id]).map (·, k))).Below g env :=
        hbelow _ (hstack (active ++ [id]))
      have hbody := (stacked g _).node_first hk henv r.body hrule
      rw [Both.node_first, List.map_append, ← List.append_assoc] at hbody
      refine (stacked g _).bind (f := fun s => ⟨_, _⟩) (stacked_during hbody) fun s hs => ?_
      have hresult : g.IsRuleFirst k id s := isRuleFirst_of_body hk hr hs.1 hs.2
      exact ⟨fun c hc => ⟨hc.add hresult.1 hresult.2, hresult⟩, fun c _ => rfl⟩

theorem stacked_firstWithin : ∀ fuel k, k ≤ fuel → ∀ stack : List (RuleId × Nat),
    (∀ e ∈ stack, k < e.2) → ∀ xs,
      (stacked g stack).Ensures ⟨g.firstWithin fuel k xs, g.stackWithin fuel k xs⟩
        (g.IsFirst k xs) := by
  have hepsilon : ∀ stack xs, (stacked g stack).Ensures (Pure.pure .epsilon) (g.IsFirst 0 xs) :=
    fun stack xs => (stacked g stack).pure (by simp [IsFirst, PathSet.epsilon])
  intro fuel
  induction fuel with
  | zero =>
    intro k hk stack _ xs
    obtain rfl : k = 0 := by omega
    exact hepsilon stack xs
  | succ fuel ih =>
    intro k hk stack hstack xs
    cases k with
    | zero => exact hepsilon stack xs
    | succ k =>
      have hbelow : ∀ stack : List (RuleId × Nat), (∀ e ∈ stack, k + 1 ≤ e.2) → ∀ j < k + 1,
          ∀ xs, (stacked g stack).Ensures ⟨g.firstWithin fuel j xs, g.stackWithin fuel j xs⟩
            (g.IsFirst j xs) :=
        fun stack hstack j hj =>
          ih j (by omega) stack fun e he => Nat.lt_of_lt_of_le hj (hstack e he)
      have hrule : ∀ r, (stacked g stack).Ensures
          ⟨g.ruleFirst (k + 1) (g.firstWithin fuel) g.size [] r,
            g.stackRule (k + 1) (g.stackWithin fuel) g.size r⟩ (g.IsRuleFirst (k + 1) r) := by
        intro r
        have hr := stacked_ruleFirst (Nat.succ_pos k) hstack hbelow g.size [] r (.none r)
        rwa [List.map_nil, List.append_nil] at hr
      let env := Both.surroundings (k + 1) (g.ruleFirst (k + 1) (g.firstWithin fuel) g.size [])
        (g.stackRule (k + 1) (g.stackWithin fuel) g.size) (g.firstWithin fuel) (g.stackWithin fuel)
      have henv : (stacked g stack).Below g env :=
        hbelow stack fun e he => Nat.le_of_lt (hstack e he)
      have hxs := (stacked g stack).pending_first (Nat.succ_pos k) henv hrule xs
      rw [Both.pending_first] at hxs
      rw [firstWithin, stackWithin]
      exact (stacked g stack).mono hxs fun s hs => hs.1

theorem stacked_first (xs : List Pending) :
    (stacked g []).Ensures ⟨g.first k xs, g.stackFirst k xs⟩ fun _ => True :=
  (stacked g []).mono (stacked_firstWithin k k (Nat.le_refl k) [] (by simp) xs)
    fun _ _ => trivial

theorem stacked_followSets :
    (stacked g []).Ensures ⟨g.followSets k, g.stackFollowSets k⟩ fun _ => True := by
  let site : RuleId × RuleId × List Pending → Both FirstM StackM CallSite :=
    fun x => do return ⟨x.1, x.2.1, ← ⟨g.first k x.2.2, g.stackFirst k x.2.2⟩⟩
  have hpair : (⟨g.callSites k, g.stackCallSites k⟩ : Both FirstM StackM (List CallSite)) =
      g.invocations.mapM site :=
    congrArg₂ Both.mk (Both.toFirst.mapM site _).symm (Both.toSecond.mapM site _).symm
  have hsites : (stacked g []).Ensures ⟨g.callSites k, g.stackCallSites k⟩ fun _ => True := by
    rw [hpair]
    exact (stacked g []).mono ((stacked g []).mapM (R := fun _ _ => True) fun x _ =>
      (stacked g []).bind (stacked_first x.2.2) fun _ _ => (stacked g []).pure trivial)
      fun _ _ => trivial
  exact (stacked g []).bind hsites fun _ _ => (stacked g []).pure trivial

theorem stacked_answer (call : FirstCall) :
    (stacked g []).Ensures ⟨call.answer g, call.stackAnswer g⟩ fun _ => True := by
  cases call with
  | rule id k =>
    exact (stacked g []).bind (stacked_first _) fun _ _ => (stacked g []).pure trivial
  | node n k =>
    exact (stacked g []).bind (stacked_first _) fun _ _ => (stacked g []).pure trivial
  | followSets k =>
    exact (stacked g []).bind stacked_followSets fun _ _ => (stacked g []).pure trivial

end Grammar

/-! ## Sessions -/

theorem FirstCache.Consistent.sound {g : Grammar} {c : FirstCache} (hc : c.Consistent g) :
    c.Sound g where
  isFirst h := (hc.isRuleFirst h).1
  grounded h := (hc.isRuleFirst h).2

namespace Grammar

variable {g : Grammar}

theorem answers_of_consistent {c : FirstCache} (hc : c.Consistent g) (calls : List FirstCall) :
    g.answers calls c = calls.map fun call => (call.answer g).result := by
  induction calls generalizing c with
  | nil => rfl
  | cons call calls ih =>
    obtain ⟨heq, hc'⟩ := exec_answer hc call
    show ((call.answer g).exec c).1 :: g.answers calls ((call.answer g).exec c).2 = _
    rw [heq, ih hc', List.map_cons]

theorem session_of_consistent {c : FirstCache} (hc : c.Consistent g) (calls : List FirstCall) :
    g.session calls ⟨c, []⟩ = calls.map fun call => ((call.answer g).result, []) := by
  induction calls generalizing c with
  | nil => rfl
  | cons call calls ih =>
    obtain ⟨heq, hc'⟩ := exec_answer hc call
    have hstack := (stacked_answer (g := g) call).2 c hc.sound
    dsimp only at hstack
    rw [session, hstack]
    dsimp only
    rw [heq, ih hc', List.map_cons]

/-- Whatever has been asked before, by calls that were answered and by calls that were refused, each
call is answered as if it were the first one, and no rule is left in progress. -/
theorem session_eq_fresh (g : Grammar) (calls : List FirstCall) :
    g.answers calls .empty = (calls.map fun call => (call.answer g).result) ∧
      g.session calls .empty = calls.map fun call => ((call.answer g).result, []) :=
  ⟨answers_of_consistent FirstCache.consistent_empty calls,
    session_of_consistent FirstCache.consistent_empty calls⟩

/-- Three calls fail, and the fourth one does not notice it. -/
example : session ⟨[⟨"sum", .sequence [.optional (.terminal 0 1) 1, .ruleRef 1 1]⟩,
      ⟨"product", .sequence [.ruleRef 0 1, .terminal 2 1]⟩]⟩
    [.rule 0 1, .rule 1 1, .rule 0 1, .node (.terminal 2 1) 1] .empty =
    [(.error ⟨[0, 1, 0]⟩, []), (.error ⟨[1, 0, 1]⟩, []), (.error ⟨[0, 1, 0]⟩, []),
      (.ok (.paths [[2]]), [])] := by
  decide +kernel

end Grammar

end StrongLL
