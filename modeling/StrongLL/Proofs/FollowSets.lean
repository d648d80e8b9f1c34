import Mathlib.Data.Set.Card
import Mathlib.Order.Monotone.Basic
import StrongLL.Proofs.Contexts
import StrongLL.Proofs.FirstStore

/-!
# StrongLL.Proofs.FollowSets

Follow sets are exact:

* `Grammar.Follows` — what may come after a rule: the opening paths of all its continuations.
* `Grammar.Trails`  — the same path collected from at most so many call sites.
* `Trails.bounded`  — as many call sites as there are pairs of a rule and a number of types still
  to be collected are enough.
* `FollowSets.Sound`, `FollowSets.Complete` — what one visit of all call sites keeps and adds.
* `Grammar.ensures_followSets` — the sets hold what follows the rules, and nothing else.
-/

namespace StrongLL

namespace PathSet

theorem mem_append {k : Nat} {s t : PathSet} {q : Path} :
    q ∈ append k s t ↔
      ∃ p ∈ s, (k ≤ p.length ∧ q = p) ∨
        (p.length < k ∧ ∃ u ∈ t, q = p ++ u.take (k - p.length)) := by
  rw [append, mem_extend]
  simp only [List.mem_map, exists_exists_and_eq_and]

end PathSet

namespace Grammar

variable {g : Grammar} {k : Nat}

def Follows (g : Grammar) (k : Nat) (r : RuleId) (p : Path) : Prop :=
  ∃ outer, Continues g r outer ∧ g.Opens k outer p

theorem follows_nil (r : RuleId) : g.Follows k r [] := ⟨[], .entry, by simp⟩

/-- The first `j` types after `r`, collected from at most `n` call sites. The paths of a call site
have the full depth. -/
inductive Trails (g : Grammar) (k : Nat) : Nat → RuleId → Nat → Path → Prop where
  | done {n : Nat} {r : RuleId} {j : Nat} : Trails g k n r j []
  | last {n : Nat} {caller r : RuleId} {after : List Pending} {j : Nat} {p : Path} :
      (caller, r, after) ∈ g.invocations → g.Opens k after p → j ≤ p.length →
      Trails g k (n + 1) r j (p.take j)
  | step {n : Nat} {caller r : RuleId} {after : List Pending} {j : Nat} {p t : Path} :
      (caller, r, after) ∈ g.invocations → g.Opens k after p → p.length < j →
      Trails g k n caller (j - p.length) t → Trails g k (n + 1) r j (p ++ t)

namespace Trails

theorem succ {n : Nat} {r : RuleId} {j : Nat} {t : Path} (h : Trails g k n r j t) :
    Trails g k (n + 1) r j t := by
  induction h with
  | done => exact .done
  | last hcall hp hj => exact .last hcall hp hj
  | step hcall hp hj _ ih => exact .step hcall hp hj ih

theorem mono {m n : Nat} {r : RuleId} {j : Nat} {t : Path} (h : Trails g k m r j t)
    (hmn : m ≤ n) : Trails g k n r j t := by
  induction hmn with
  | refl => exact h
  | step _ ih => exact ih.succ

end Trails

/-- Every path after a rule is collected from some number of call sites. A path that a caller cuts
off is part of a longer one there. -/
theorem Follows.exists_trails {types : Nat} (hg : g.Proper types) (hrec : ¬ g.LeftRecursive)
    {r : RuleId} {outer : List Pending} (h : Continues g r outer) :
    ∀ {j : Nat} {t : Path}, j ≤ k → g.Opens j outer t → ∃ n, Trails g k n r j t := by
  induction h with
  | entry =>
    intro j t _ ht
    obtain rfl : t = [] := by simpa using ht
    exact ⟨0, .done⟩
  | @call caller target after outer hcall _ ih =>
    intro j t hj ht
    have hproper := (hg.invocation hcall).2.2
    obtain ⟨q, hq, ⟨hlen, rfl⟩ | ⟨hlen, u, hu, rfl⟩⟩ := opens_append.mp ht
    · obtain ⟨p, hp, rfl⟩ := hq.exists_longer hg hrec hproper hj
      have hp' : j ≤ p.length := by
        rw [List.length_take] at hlen
        omega
      exact ⟨1, .last hcall hp hp'⟩
    · obtain ⟨n, hn⟩ := ih (by omega) hu
      have hq : g.Opens k after q := .of_complete (hq.complete hlen) (by omega)
      exact ⟨n + 1, .step hcall hq hlen hn⟩

section Bound

/-- Where a collection of `t` may stand: a rule, and how many types are still to come. -/
def trailStates (g : Grammar) (k : Nat) (t : Path) (n : Nat) : Set (Fin g.size × Fin (k + 1)) :=
  { x | Trails g k n x.1 x.2 (t.drop (k - x.2)) }

theorem trailStates_mono (t : Path) {m n : Nat} (hmn : m ≤ n) :
    g.trailStates k t m ⊆ g.trailStates k t n :=
  fun _ hx => Trails.mono hx hmn

/-- The places from which one more call site is enough depend on those before only. -/
theorem trailStates_stable (hcallers : ∀ c r after, (c, r, after) ∈ g.invocations → c < g.size)
    {t : Path} {n : Nat} (h : g.trailStates k t n = g.trailStates k t (n + 1)) :
    g.trailStates k t (n + 1) = g.trailStates k t (n + 2) := by
  refine Set.Subset.antisymm (trailStates_mono t (Nat.le_succ _)) ?_
  rintro ⟨r, j⟩ hx
  have hx : Trails g k (n + 2) r j (t.drop (k - j)) := hx
  show Trails g k (n + 1) r j (t.drop (k - j))
  generalize hw : t.drop (k - j) = w at hx
  cases hx with
  | done => exact .done
  | last hcall hp hj => exact .last hcall hp hj
  | @step _ caller _ after _ p u hcall hp hj hu =>
    have hj' := j.isLt
    have hdrop : t.drop (k - (j - p.length)) = u := by
      have : k - (j - p.length) = (k - j) + p.length := by omega
      rw [this, ← List.drop_drop, hw, List.drop_left]
    have hmem : (⟨caller, hcallers _ _ _ hcall⟩, ⟨j - p.length, by omega⟩) ∈
        g.trailStates k t (n + 1) := by
      show Trails g k (n + 1) caller (j - p.length) (t.drop (k - (j - p.length)))
      rw [hdrop]
      exact hu
    rw [← h] at hmem
    have hmem : Trails g k n caller (j - p.length) (t.drop (k - (j - p.length))) := hmem
    rw [hdrop] at hmem
    exact .step hcall hp hj hmem

theorem Trails.bounded (hcallers : ∀ c r after, (c, r, after) ∈ g.invocations → c < g.size)
    {n : Nat} {r : RuleId} {t : Path} (hr : r < g.size) (h : Trails g k n r k t) :
    Trails g k (g.size * (k + 1)) r k t := by
  let count (m : Nat) : Nat := (g.trailStates k t m).ncard
  have hmono : Monotone count := fun a b hab =>
    Set.ncard_le_ncard (trailStates_mono t hab) (Set.toFinite _)
  have hbound : ∀ m, count m ≤ g.size * (k + 1) := by
    intro m
    have := Set.ncard_le_ncard (Set.subset_univ (g.trailStates k t m)) (Set.toFinite _)
    simpa [Set.ncard_univ] using this
  have heq : ∀ m, count m = count (m + 1) → g.trailStates k t m = g.trailStates k t (m + 1) :=
    fun m hm => Set.eq_of_subset_of_ncard_le (trailStates_mono t (Nat.le_succ m))
      (Nat.le_of_eq hm.symm) (Set.toFinite _)
  have hstable : ∀ m, count m = count (m + 1) → count (m + 1) = count (m + 2) := by
    intro m hm
    show (g.trailStates k t (m + 1)).ncard = (g.trailStates k t (m + 2)).ncard
    rw [trailStates_stable hcallers (heq m hm)]
  by_cases hn : n ≤ g.size * (k + 1)
  · exact h.mono hn
  · have hcount : count n = count (g.size * (k + 1)) :=
      Nat.stabilises_of_monotone hmono hbound hstable (by omega)
    have hsets : g.trailStates k t (g.size * (k + 1)) = g.trailStates k t n :=
      Set.eq_of_subset_of_ncard_le (trailStates_mono t (by omega)) (Nat.le_of_eq hcount)
        (Set.toFinite _)
    have hmem : (⟨r, hr⟩, ⟨k, Nat.lt_succ_self k⟩) ∈ g.trailStates k t n := by
      show Trails g k n r k (t.drop (k - k))
      simpa using h
    rw [← hsets] at hmem
    have hmem : Trails g k (g.size * (k + 1)) r k (t.drop (k - k)) := hmem
    simpa using hmem

end Bound

/-- The call sites are the invocations of the grammar, with exact sets. -/
structure CallSitesOf (g : Grammar) (k : Nat) (sites : List CallSite) : Prop where
  sound {site : CallSite} : site ∈ sites →
    ∃ after, (site.caller, site.target, after) ∈ g.invocations ∧ g.IsFirst k after site.after
  complete {caller target : RuleId} {after : List Pending} :
    (caller, target, after) ∈ g.invocations →
    ∃ site ∈ sites, site.caller = caller ∧ site.target = target ∧ g.IsFirst k after site.after

theorem ensures_callSites :
    (storeContract g).Ensures (g.callSites k) (g.CallSitesOf k) := by
  refine (storeContract g).mono ((storeContract g).mapM
    (R := fun (call : RuleId × RuleId × List Pending) site => site.caller = call.1 ∧
      site.target = call.2.1 ∧ g.IsFirst k call.2.2 site.after) ?_) ?_
  · rintro ⟨caller, target, after⟩ _
    exact (storeContract g).bind (ensures_first after) fun s hs =>
      (storeContract g).pure ⟨rfl, rfl, hs⟩
  · intro sites hsites
    constructor
    · intro site hmem
      obtain ⟨⟨caller, target, after⟩, hcall, rfl, rfl, hs⟩ := exists_mem_left hsites.flip site hmem
      exact ⟨after, hcall, hs⟩
    · intro caller target after hcall
      exact exists_mem_left hsites _ hcall

end Grammar

namespace FollowSets

open Grammar

variable {g : Grammar} {k : Nat} {sites : List CallSite} {f : FollowSets}

theorem get_initial (n : Nat) (r : RuleId) : (initial n).get r = .epsilon := by
  unfold get initial
  by_cases h : r < n <;> simp [h]

@[simp] theorem length_propagate (site : CallSite) :
    (propagate k f site).length = f.length := by
  simp [propagate]

theorem get_propagate (site : CallSite) (r : RuleId) :
    (propagate k f site).get r =
      if r = site.target ∧ r < f.length
      then (f.get r).union (PathSet.append k site.after (f.get site.caller))
      else f.get r := by
  unfold propagate get
  rw [List.getElem?_modify]
  by_cases hr : site.target = r
  · subst hr
    by_cases hlt : site.target < f.length <;> simp [hlt]
  · have hne : ¬ r = site.target := fun h => hr h.symm
    simp [hr, hne]

/-- One visit of all call sites. -/
def pass (k : Nat) (sites : List CallSite) (f : FollowSets) : FollowSets :=
  sites.foldl (propagate k) f

theorem settle_eq_iterate (passes : Nat) :
    settle k sites passes f = (pass k sites)^[passes] f := by
  induction passes generalizing f with
  | zero => rfl
  | succ passes ih =>
    rw [settle, Function.iterate_succ_apply]
    show (if pass k sites f = f then f else settle k sites passes (pass k sites f)) = _
    by_cases h : pass k sites f = f
    · rw [if_pos h, h, Function.iterate_fixed h]
    · rw [if_neg h, ih]

/-! ## Nothing but what follows -/

def Sound (g : Grammar) (k : Nat) (f : FollowSets) : Prop :=
  ∀ r, ∀ p ∈ f.get r, g.Follows k r p

theorem sound_initial (n : Nat) : Sound g k (initial n) := by
  intro r p hp
  rw [get_initial] at hp
  obtain rfl := List.mem_singleton.mp hp
  exact follows_nil r

/-- What follows the caller, after what follows the call, follows the callee. -/
theorem Sound.append (hf : Sound g k f) {caller target : RuleId} {after : List Pending}
    {s : PathSet} (hcall : (caller, target, after) ∈ g.invocations) (hs : g.IsFirst k after s) :
    ∀ q ∈ PathSet.append k s (f.get caller), g.Follows k target q := by
  intro q hq
  obtain ⟨p, hp, ⟨hlen, rfl⟩ | ⟨hlen, u, hu, rfl⟩⟩ := PathSet.mem_append.mp hq
  · refine ⟨after ++ [], .call hcall .entry, ?_⟩
    rw [List.append_nil]
    exact (hs q).mp hp
  · obtain ⟨outer, houter, ho⟩ := hf caller u hu
    refine ⟨after ++ outer, .call hcall houter, ?_⟩
    exact opens_append.mpr ⟨p, (hs p).mp hp, .inr ⟨hlen, _, ho.take (Nat.sub_le k _), rfl⟩⟩

theorem Sound.propagate (hf : Sound g k f) {site : CallSite}
    (hsite : ∃ after, (site.caller, site.target, after) ∈ g.invocations ∧
      g.IsFirst k after site.after) : Sound g k (propagate k f site) := by
  obtain ⟨after, hcall, hs⟩ := hsite
  intro r p hp
  rw [get_propagate] at hp
  split at hp
  · rename_i hr
    obtain hp | hp := PathSet.mem_union.mp hp
    · exact hf r p hp
    · rw [hr.1]
      exact hf.append hcall hs p hp
  · exact hf r p hp

theorem Sound.pass (hsites : g.CallSitesOf k sites) (hf : Sound g k f) :
    Sound g k (pass k sites f) := by
  refine List.foldlRecOn sites (FollowSets.propagate k) hf fun f hf site hsite => ?_
  exact hf.propagate (hsites.sound hsite)

/-! ## All that follows -/

/-- All that is collected from at most `n` call sites. -/
def Complete (g : Grammar) (k n : Nat) (f : FollowSets) : Prop :=
  f.length = g.size ∧
    ∀ r < g.size, ∀ j ≤ k, ∀ t, g.Trails k n r j t → ∃ q ∈ f.get r, q.take j = t

theorem subset_propagate (site : CallSite) (r : RuleId) :
    f.get r ⊆ (propagate k f site).get r := by
  intro p hp
  rw [get_propagate]
  split
  · exact PathSet.mem_union.mpr (.inl hp)
  · exact hp

theorem subset_pass (r : RuleId) : f.get r ⊆ (pass k sites f).get r := by
  refine List.foldlRecOn sites (propagate k) (motive := fun h => f.get r ⊆ h.get r)
    (List.Subset.refl _) fun h hsub site _ => ?_
  exact List.Subset.trans hsub (subset_propagate site r)

@[simp] theorem length_pass : (pass k sites f).length = f.length := by
  refine List.foldlRecOn sites (propagate k) (motive := fun h => h.length = f.length)
    rfl fun h hlen site _ => ?_
  rw [length_propagate, hlen]

theorem append_subset {s t u : PathSet} (h : t ⊆ u) :
    PathSet.append k s t ⊆ PathSet.append k s u := by
  intro q hq
  obtain ⟨p, hp, hq | ⟨hlen, x, hx, rfl⟩⟩ := PathSet.mem_append.mp hq
  · exact PathSet.mem_append.mpr ⟨p, hp, .inl hq⟩
  · exact PathSet.mem_append.mpr ⟨p, hp, .inr ⟨hlen, x, h hx, rfl⟩⟩

/-- A visit of all call sites visits each with at least what was there before. -/
theorem append_subset_pass {site : CallSite} (hsite : site ∈ sites)
    (htarget : site.target < f.length) :
    PathSet.append k site.after (f.get site.caller) ⊆ (pass k sites f).get site.target := by
  obtain ⟨before, rest, rfl⟩ := List.append_of_mem hsite
  have hsplit : pass k (before ++ site :: rest) f =
      pass k rest (propagate k (pass k before f) site) := by
    simp [pass]
  rw [hsplit]
  have hcaller : f.get site.caller ⊆ (pass k before f).get site.caller := subset_pass site.caller
  refine List.Subset.trans (append_subset hcaller) ?_
  refine List.Subset.trans ?_ (subset_pass site.target)
  intro q hq
  rw [get_propagate, if_pos ⟨rfl, by simpa using htarget⟩]
  exact PathSet.mem_union.mpr (.inr hq)

theorem complete_initial : Complete g k 0 (initial g.size) := by
  refine ⟨by simp [initial], ?_⟩
  intro r hr j hj t ht
  cases ht
  exact ⟨[], by simp [get_initial, PathSet.epsilon], by simp⟩

theorem Complete.pass {types : Nat} (hg : g.Proper types) (hsites : g.CallSitesOf k sites) {n : Nat}
    (hf : Complete g k n f) : Complete g k (n + 1) (pass k sites f) := by
  obtain ⟨hlen, hf⟩ := hf
  have hnil : ∀ r < g.size, ∃ q, q ∈ f.get r := fun r hr =>
    let ⟨q, hq, _⟩ := hf r hr 0 (Nat.zero_le k) [] .done
    ⟨q, hq⟩
  refine ⟨by simpa using hlen, ?_⟩
  intro r hr j hj t ht
  cases ht with
  | done =>
    obtain ⟨q, hq, htake⟩ := hf r hr j hj [] .done
    exact ⟨q, subset_pass r hq, htake⟩
  | @last _ caller _ after _ p hcall hp hjp =>
    obtain ⟨site, hsite, rfl, rfl, hs⟩ := hsites.complete hcall
    obtain ⟨u, hu⟩ := hnil site.caller (hg.invocation hcall).1
    have htarget : site.target < f.length := hlen ▸ hr
    have hsub := append_subset_pass (k := k) hsite htarget
    by_cases hk : k ≤ p.length
    · exact ⟨p, hsub (PathSet.mem_append.mpr ⟨p, (hs p).mpr hp, .inl ⟨hk, rfl⟩⟩), rfl⟩
    · refine ⟨p ++ u.take (k - p.length), hsub ?_, List.take_append_of_le_length hjp⟩
      exact PathSet.mem_append.mpr ⟨p, (hs p).mpr hp, .inr ⟨by omega, u, hu, rfl⟩⟩
  | @step _ caller _ after _ p u hcall hp hjp hu =>
    obtain ⟨site, hsite, rfl, rfl, hs⟩ := hsites.complete hcall
    obtain ⟨q, hq, rfl⟩ := hf site.caller (hg.invocation hcall).1 (j - p.length) (by omega) u hu
    have htarget : site.target < f.length := hlen ▸ hr
    have hsub := append_subset_pass (k := k) hsite htarget
    refine ⟨p ++ q.take (k - p.length), hsub ?_, ?_⟩
    · exact PathSet.mem_append.mpr ⟨p, (hs p).mpr hp, .inr ⟨by omega, q, hq, rfl⟩⟩
    · rw [List.take_append, List.take_of_length_le (by omega), List.take_take]
      congr 2
      omega

theorem sound_iterate (hsites : g.CallSitesOf k sites) (n : Nat) :
    Sound g k ((FollowSets.pass k sites)^[n] (initial g.size)) := by
  induction n with
  | zero => exact sound_initial g.size
  | succ n ih =>
    rw [Function.iterate_succ_apply']
    exact ih.pass hsites

theorem complete_iterate {types : Nat} (hg : g.Proper types) (hsites : g.CallSitesOf k sites)
    (n : Nat) : Complete g k n ((FollowSets.pass k sites)^[n] (initial g.size)) := by
  induction n with
  | zero => exact complete_initial
  | succ n ih =>
    rw [Function.iterate_succ_apply']
    exact ih.pass hg hsites

/-- What all visits together add up to, as soon as there are enough of them. -/
theorem mem_iterate {types : Nat} (hg : g.Proper types) (hrec : ¬ g.LeftRecursive)
    (hsites : g.CallSitesOf k sites) {n : Nat} (hn : g.size * (k + 1) ≤ n) {r : RuleId}
    (hr : r < g.size) {p : Path} :
    p ∈ ((FollowSets.pass k sites)^[n] (initial g.size)).get r ↔ g.Follows k r p := by
  have hsound := sound_iterate hsites n
  constructor
  · exact hsound r p
  · intro h
    obtain ⟨outer, houter, hp⟩ := h
    obtain ⟨m, hm⟩ := Follows.exists_trails hg hrec houter (Nat.le_refl k) hp
    have hbounded := Trails.bounded (fun c t after hcall => (hg.invocation hcall).1) hr hm
    obtain ⟨q, hq, hqp⟩ :=
      (complete_iterate hg hsites n).2 r hr k (Nat.le_refl k) p (hbounded.mono hn)
    obtain ⟨outer', -, hq'⟩ := hsound r q hq
    rw [List.take_of_length_le hq'.length_le] at hqp
    exact hqp ▸ hq

theorem mem_settle {types : Nat} (hg : g.Proper types) (hrec : ¬ g.LeftRecursive)
    (hsites : g.CallSitesOf k sites) {r : RuleId} (hr : r < g.size) {p : Path} :
    p ∈ (settle k sites (g.size * (k + 1) + 1) (initial g.size)).get r ↔ g.Follows k r p := by
  rw [settle_eq_iterate]
  exact mem_iterate hg hrec hsites (Nat.le_succ _) hr

end FollowSets

namespace Grammar

variable {g : Grammar} {k : Nat}

theorem ensures_followSets {types : Nat} (hg : g.Proper types) (hrec : ¬ g.LeftRecursive) :
    (storeContract g).Ensures (g.followSets k) fun f =>
      ∀ r < g.size, ∀ p, p ∈ f.get r ↔ g.Follows k r p :=
  (storeContract g).bind ensures_callSites fun _ hsites =>
    (storeContract g).pure fun _ hr _ => FollowSets.mem_settle hg hrec hsites hr

end Grammar

end StrongLL
