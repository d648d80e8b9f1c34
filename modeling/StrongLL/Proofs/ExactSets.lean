import StrongLL.Proofs.CycleReport

/-!
# StrongLL.Proofs.ExactSets

First and follow sets, told by the grammar alone and by what closes them:

* `Grammar.IsExactFirst`      — the opening paths of a node and no others, none of them too long.
* `Grammar.first_exact`       — that is what the calls for nodes and rules answer.
* `Grammar.Closed`, `Grammar.Filled` — no invocation leads out of the grammar, and no choice is
  empty. Such a grammar is proper over some number of types.
* `FollowSets.Settles`        — call sites are visited over and over until nothing is added, with no
  bound on the visits.
* `Grammar.FollowClosed`      — what the sets of a family have to hold.
* `Grammar.followSets_least`  — the visits end, with the least closed family, and its sets hold the
  opening paths of all chains of continuations.
-/

namespace StrongLL

/-! ## First sets -/

namespace Grammar

variable {g : Grammar} {k : Nat}

structure IsExactFirst (g : Grammar) (k : Nat) (n : Node) (s : PathSet) : Prop where
  isFirst : g.IsFirst k [.node n] s
  length_le {p : Path} : p ∈ s → p.length ≤ k
  nil_mem : [] ∈ s ↔ k = 0 ∨ g.Erasable [.node n]

theorem opens_nil_iff {xs : List Pending} : g.Opens k xs [] ↔ k = 0 ∨ g.Erasable xs := by
  by_cases hk : k = 0
  · simp [hk]
  · rw [opens_nil_iff_erasable (Nat.pos_of_ne_zero hk)]
    simp [hk]

theorem IsFirst.exact {n : Node} {s : PathSet} (h : g.IsFirst k [.node n] s) :
    g.IsExactFirst k n s where
  isFirst := h
  length_le hp := ((h _).mp hp).length_le
  nil_mem := (h []).trans opens_nil_iff

/-- An invocation of a rule opens like its body. -/
theorem opens_invocation {r i : Nat} {rule : Rule} (hr : g.get? r = some rule) {p : Path} :
    g.Opens k [.node (.ruleRef r i)] p ↔ g.Opens k [.node rule.body] p := by
  by_cases hk : k = 0
  · subst hk
    simp
  · simp [opens_ruleRef (Nat.pos_of_ne_zero hk), hr]

/-- An answer of a store is right, whatever was called before. -/
theorem isFirst_of_exec {c : FirstCache} (hc : c.Sound g) {xs : List Pending} {s : PathSet}
    (h : ((g.first k xs).exec c).1 = .ok s) : g.IsFirst k xs s := by
  have hresult := (ensures_first (k := k) xs c hc).2
  rw [h] at hresult
  exact hresult

/-- Whenever a call for a node or a rule gives a set, the set holds the opening paths of the node or
of the body of the rule, and nothing else. It does not matter what was called before on the same
store. -/
theorem first_exact {c : FirstCache} (hc : FirstCache.Left g c) (k : Nat) :
    (∀ n s, ((g.firstOfNode k n).exec c).1 = .ok s → g.IsExactFirst k n s) ∧
    ∀ r rule s, g.get? r = some rule → ((g.firstOfRule k r).exec c).1 = .ok s →
      g.IsExactFirst k rule.body s := by
  constructor
  · intro n s h
    exact (isFirst_of_exec hc.sound h).exact
  · intro r rule s hr h
    have hs : g.IsFirst k [.node (.ruleRef r 0)] s := isFirst_of_exec hc.sound h
    have hbody : g.IsFirst k [.node rule.body] s := fun p => (hs p).trans (opens_invocation hr)
    exact hbody.exact

/-- Blanks before a word, with a body of the repetition that may itself be empty. -/
def blanksAndWord : Grammar :=
  ⟨[⟨"blanks", .repetition (.optional (.terminal 0 1) 1) 1 false⟩,
    ⟨"line", .sequence [.ruleRef 0 1, .terminal 1 1]⟩]⟩

theorem blanksAndWord_first_exact :
    blanksAndWord.IsExactFirst 2 (.repetition (.optional (.terminal 0 1) 1) 1 false)
      [[], [0], [0, 0]] ∧
    blanksAndWord.IsExactFirst 2 (.sequence [.ruleRef 0 1, .terminal 1 1])
      [[1], [0, 1], [0, 0]] := by
  have hblanks : ((blanksAndWord.firstOfRule 2 0).exec .empty).1 = .ok [[], [0], [0, 0]] :=
    eq_ok_of_toOption (by decide +kernel)
  have hline : ((blanksAndWord.firstOfNode 2 (.sequence [.ruleRef 0 1, .terminal 1 1])).exec
      ((blanksAndWord.firstOfRule 2 0).exec .empty).2).1 = .ok [[1], [0, 1], [0, 0]] :=
    eq_ok_of_toOption (by decide +kernel)
  have hleft : FirstCache.Left blanksAndWord ((blanksAndWord.firstOfRule 2 0).exec .empty).2 :=
    .first 2 [.node (.ruleRef 0 0)] .empty
  exact ⟨(first_exact .empty 2).2 0 _ _ rfl hblanks, (first_exact hleft 2).1 _ _ hline⟩

end Grammar

/-! ## Grammars without dangling invocations and empty choices -/

/-- What a node has to be apart from its parts, for a proper node. -/
def Node.Fits (types rules : Nat) : Node → Prop
  | .terminal t _ => t < types
  | .alternation alternatives _ _ => alternatives ≠ []
  | .ruleRef r _ => r < rules
  | .sequence _ | .optional .. | .repetition .. => True

mutual

theorem Node.proper_of_fits {types rules : Nat} :
    ∀ n : Node, (∀ m ∈ n.preorder, m.Fits types rules) → n.Proper types rules
  | .terminal t i, h => .terminal (h (.terminal t i) (by simp [Node.preorder]))
  | .sequence parts, h =>
    .sequence (Node.all_proper_of_fits parts fun m hm => h m (by simp [Node.preorder, hm]))
  | .optional body i, h =>
    .optional (Node.proper_of_fits body fun m hm => h m (by simp [Node.preorder, hm]))
  | .repetition body i atLeastOne, h =>
    .repetition (Node.proper_of_fits body fun m hm => h m (by simp [Node.preorder, hm]))
  | .alternation alternatives i description, h =>
    .alternation (h (.alternation alternatives i description) (by simp [Node.preorder]))
      (Node.all_proper_of_fits alternatives fun m hm => h m (by simp [Node.preorder, hm]))
  | .ruleRef r i, h => .ruleRef (h (.ruleRef r i) (by simp [Node.preorder]))

theorem Node.all_proper_of_fits {types rules : Nat} :
    ∀ ns : List Node, (∀ m ∈ Node.preorderAll ns, m.Fits types rules) →
      ∀ n ∈ ns, n.Proper types rules
  | [], _, n, hn => by simp at hn
  | m :: rest, h, n, hn => by
    obtain heq | hn := List.mem_cons.mp hn
    · rw [heq]
      exact Node.proper_of_fits m fun x hx => h x (by simp [Node.preorderAll, hx])
    · exact Node.all_proper_of_fits rest (fun x hx => h x (by simp [Node.preorderAll, hx])) n hn

end

namespace Grammar

variable {g : Grammar} {k : Nat}

/-- The nodes of all bodies. -/
def nodes (g : Grammar) : List Node := g.rules.flatMap (·.body.preorder)

/-- Every invocation is one of a rule of the grammar. -/
def Closed (g : Grammar) : Prop := ∀ r i, .ruleRef r i ∈ g.nodes → r < g.size

/-- Every choice has an alternative. -/
def Filled (g : Grammar) : Prop := ∀ i description, .alternation [] i description ∉ g.nodes

theorem exists_types (ns : List Node) : ∃ types, ∀ t i, .terminal t i ∈ ns → t < types := by
  induction ns with
  | nil => exact ⟨0, by simp⟩
  | cons n rest ih =>
    obtain ⟨types, h⟩ := ih
    cases n with
    | terminal t i =>
      refine ⟨max types (t + 1), fun u j hu => ?_⟩
      obtain heq | hu := List.mem_cons.mp hu
      · cases heq
        exact Nat.lt_of_lt_of_le (Nat.lt_succ_self _) (Nat.le_max_right _ _)
      · exact Nat.lt_of_lt_of_le (h u j hu) (Nat.le_max_left _ _)
    | _ => exact ⟨types, fun u j hu => h u j (by simpa using hu)⟩

/-- The nodes that are met in a body fit if their types are among so many. -/
theorem fits_of_mem {ns : List Node} {types rules : Nat}
    (htypes : ∀ t i, .terminal t i ∈ ns → t < types)
    (hclosed : ∀ r i, .ruleRef r i ∈ ns → r < rules)
    (hfilled : ∀ i description, .alternation [] i description ∉ ns) :
    ∀ m ∈ ns, m.Fits types rules := by
  intro m hm
  cases m with
  | terminal t i => exact htypes t i hm
  | alternation alternatives i description =>
    rintro rfl
    exact hfilled i description hm
  | ruleRef r i => exact hclosed r i hm
  | _ => exact trivial

theorem exists_proper_node (hclosed : g.Closed) (hfilled : g.Filled) {n : Node}
    (hrefs : ∀ r i, .ruleRef r i ∈ n.preorder → r < g.size)
    (hchoices : ∀ i description, .alternation [] i description ∉ n.preorder) :
    ∃ types, g.Proper types ∧ n.Proper types g.size := by
  obtain ⟨types, htypes⟩ := exists_types (g.nodes ++ n.preorder)
  have hnodes : ∀ m ∈ g.nodes, m.Fits types g.size :=
    fits_of_mem (fun t i h => htypes t i (List.mem_append_left _ h)) hclosed hfilled
  refine ⟨types, fun r rule hr => Node.proper_of_fits rule.body fun m hm => ?_, ?_⟩
  · exact hnodes m (List.mem_flatMap.mpr ⟨rule, List.mem_of_getElem? hr, hm⟩)
  · exact Node.proper_of_fits n
      (fits_of_mem (fun t i h => htypes t i (List.mem_append_right _ h)) hrefs hchoices)

theorem exists_proper (hclosed : g.Closed) (hfilled : g.Filled) : ∃ types, g.Proper types := by
  obtain ⟨types, hg, -⟩ := exists_proper_node (n := .sequence []) hclosed hfilled
    (by simp [Node.preorder, Node.preorderAll]) (by simp [Node.preorder, Node.preorderAll])
  exact ⟨types, hg⟩

end Grammar

/-! ## Sets that grow no more -/

theorem eraseDups_concat {α : Type} [BEq α] [LawfulBEq α] (xs : List α) (a : α) :
    (xs ++ [a]).eraseDups = if a ∈ xs then xs.eraseDups else xs.eraseDups ++ [a] := by
  rw [List.eraseDups_append]
  by_cases ha : a ∈ xs <;> simp [List.removeAll, List.eraseDups_cons, ha]

theorem nodup_eraseDups {α : Type} [BEq α] [LawfulBEq α] (xs : List α) : xs.eraseDups.Nodup := by
  induction xs using List.reverseRecOn with
  | nil => simp
  | append_singleton xs a ih =>
    rw [eraseDups_concat]
    by_cases ha : a ∈ xs
    · simpa [ha] using ih
    · rw [if_neg ha, List.nodup_append]
      refine ⟨ih, by simp, ?_⟩
      rintro b hb c hc rfl
      obtain rfl := List.mem_singleton.mp hc
      exact ha (List.mem_eraseDups.mp hb)

theorem eraseDups_eq_self {α : Type} [BEq α] [LawfulBEq α] {xs : List α} (h : xs.Nodup) :
    xs.eraseDups = xs := by
  induction xs using List.reverseRecOn with
  | nil => simp
  | append_singleton xs a ih =>
    obtain ⟨hxs, -, hne⟩ := List.nodup_append.mp h
    have ha : a ∉ xs := fun ha => hne a ha a (by simp) rfl
    rw [eraseDups_concat, if_neg ha, ih hxs]

theorem eraseDups_append_of_subset {α : Type} [BEq α] [LawfulBEq α] {xs ys : List α}
    (h : ys ⊆ xs) : (xs ++ ys).eraseDups = xs.eraseDups := by
  have hnone : ys.removeAll xs = [] := by
    simp only [List.removeAll, List.filter_eq_nil_iff]
    exact fun y hy => by simp [h hy]
  rw [List.eraseDups_append, hnone]
  simp

namespace PathSet

theorem union_eq_left {s t : PathSet} (hs : s.Nodup) (ht : t ⊆ s) : s.union t = s := by
  rw [union, eraseDups_append_of_subset ht, eraseDups_eq_self hs]

end PathSet

namespace FollowSets

open Grammar

variable {g : Grammar} {k : Nat} {sites : List CallSite} {f h : FollowSets}

/-- Visit all call sites as long as a visit adds something. -/
inductive Settles (k : Nat) (sites : List CallSite) : FollowSets → FollowSets → Prop where
  | done {f : FollowSets} : pass k sites f = f → Settles k sites f f
  | again {f h : FollowSets} :
      pass k sites f ≠ f → Settles k sites (pass k sites f) h → Settles k sites f h

theorem settles_iterate {n : Nat}
    (hn : pass k sites ((pass k sites)^[n] f) = (pass k sites)^[n] f) :
    Settles k sites f ((pass k sites)^[n] f) := by
  induction n generalizing f with
  | zero => exact .done hn
  | succ n ih =>
    rw [Function.iterate_succ_apply] at hn ⊢
    by_cases hf : pass k sites f = f
    · rw [hf, Function.iterate_fixed hf]
      exact .done hf
    · exact .again hf (ih hn)

/-- No path is kept twice. -/
def Distinct (f : FollowSets) : Prop := ∀ r, (f.get r).Nodup

theorem distinct_initial (n : Nat) : Distinct (initial n) := by
  intro r
  rw [get_initial]
  simp [PathSet.epsilon]

theorem Distinct.propagate (hf : Distinct f) (site : CallSite) :
    Distinct (FollowSets.propagate k f site) := by
  intro r
  rw [get_propagate]
  split
  · exact nodup_eraseDups _
  · exact hf r

theorem Distinct.iterate (hf : Distinct f) (n : Nat) : Distinct ((pass k sites)^[n] f) := by
  induction n with
  | zero => exact hf
  | succ n ih =>
    rw [Function.iterate_succ_apply']
    exact List.foldlRecOn sites (FollowSets.propagate k) ih fun f hf site _ => hf.propagate site

/-- A visit of a call site that brings nothing new leaves everything as it is. -/
theorem propagate_eq_self (hf : Distinct f) {site : CallSite}
    (hsub : PathSet.append k site.after (f.get site.caller) ⊆ f.get site.target) :
    propagate k f site = f := by
  refine List.ext_getElem? fun r => ?_
  unfold propagate
  rw [List.getElem?_modify]
  by_cases hr : site.target = r
  · subst hr
    cases hget : f[site.target]? with
    | none => simp
    | some s =>
      have hs : f.get site.target = s := by simp [get, hget]
      have hunion := PathSet.union_eq_left (hf site.target) hsub
      rw [hs] at hunion
      simp [hunion]
  · simp [hr]

theorem pass_eq_self (hf : Distinct f)
    (hsub : ∀ site ∈ sites, PathSet.append k site.after (f.get site.caller) ⊆ f.get site.target) :
    pass k sites f = f := by
  refine List.foldlRecOn sites (propagate k) (motive := (· = f)) rfl fun h heq site hsite => ?_
  rw [heq]
  exact propagate_eq_self hf (hsub site hsite)

end FollowSets

/-! ## The least closed family -/

namespace Grammar

variable {g : Grammar} {k : Nat}

/-- The input may end after every rule, and what follows a caller follows its callee, too, after
what follows the call. -/
structure FollowClosed (g : Grammar) (k : Nat) (family : RuleId → PathSet) : Prop where
  nil {r : RuleId} : r < g.size → [] ∈ family r
  append {caller target : RuleId} {after : List Pending} {first : PathSet} :
    (caller, target, after) ∈ g.invocations → g.IsFirst k after first →
    PathSet.append k first (family caller) ⊆ family target

/-- The sets of a closed family hold whatever a visit of a call site adds. -/
theorem FollowClosed.propagate {types : Nat} (hg : g.Proper types) {family : RuleId → PathSet}
    (hfamily : g.FollowClosed k family) {sites : List CallSite} (hsites : g.CallSitesOf k sites)
    {site : CallSite} (hsite : site ∈ sites) {f : FollowSets}
    (hf : ∀ r < g.size, f.get r ⊆ family r) :
    ∀ r < g.size, (FollowSets.propagate k f site).get r ⊆ family r := by
  intro r hr p hp
  obtain ⟨after, hcall, hfirst⟩ := hsites.sound hsite
  rw [FollowSets.get_propagate] at hp
  split at hp
  · rename_i htarget
    obtain hp | hp := PathSet.mem_union.mp hp
    · exact hf r hr hp
    · have hcaller := hf site.caller (hg.invocation hcall).1
      have hp := FollowSets.append_subset hcaller hp
      exact htarget.1 ▸ hfamily.append hcall hfirst hp
  · exact hf r hr hp

theorem FollowClosed.iterate {types : Nat} (hg : g.Proper types) {family : RuleId → PathSet}
    (hfamily : g.FollowClosed k family) {sites : List CallSite} (hsites : g.CallSitesOf k sites)
    (n : Nat) : ∀ r < g.size,
      ((FollowSets.pass k sites)^[n] (.initial g.size)).get r ⊆ family r := by
  induction n with
  | zero =>
    intro r hr p hp
    have hp : p ∈ (FollowSets.initial g.size).get r := hp
    rw [FollowSets.get_initial] at hp
    obtain rfl := List.mem_singleton.mp hp
    exact hfamily.nil hr
  | succ n ih =>
    rw [Function.iterate_succ_apply']
    refine List.foldlRecOn sites (FollowSets.propagate k)
      (motive := fun f => ∀ r < g.size, f.get r ⊆ family r) ih fun f hf site hsite => ?_
    exact hfamily.propagate hg hsites hsite hf

/-- What follows the rules is closed. -/
theorem followClosed_of_follows {types : Nat} (hg : g.Proper types) {family : RuleId → PathSet}
    (h : ∀ r < g.size, ∀ p, p ∈ family r ↔ g.Follows k r p) : g.FollowClosed k family where
  nil hr := (h _ hr []).mpr (follows_nil _)
  append {caller target after first} hcall hfirst q hq := by
    obtain ⟨hcaller, htarget, -⟩ := hg.invocation hcall
    refine (h target htarget q).mpr ?_
    obtain ⟨p, hp, ⟨hlen, rfl⟩ | ⟨hlen, u, hu, rfl⟩⟩ := PathSet.mem_append.mp hq
    · refine ⟨after ++ [], .call hcall .entry, ?_⟩
      rw [List.append_nil]
      exact (hfirst q).mp hp
    · obtain ⟨outer, houter, ho⟩ := (h caller hcaller u).mp hu
      refine ⟨after ++ outer, .call hcall houter, ?_⟩
      exact opens_append.mpr
        ⟨p, (hfirst p).mp hp, .inr ⟨hlen, _, ho.take (Nat.sub_le k _), rfl⟩⟩

/-- In a grammar without dangling invocations, empty choices and left recursion, the visits of the
call sites come to an end at every depth. The family they end with is the least closed one, and its
sets hold what comes after a rule along any chain of call sites, out to the end of the input. -/
theorem followSets_least (hclosed : g.Closed) (hfilled : g.Filled) (hrec : ¬ g.LeftRecursive)
    {c : FirstCache} (hc : FirstCache.Left g c) (k : Nat) :
    ∃ sites f, ((g.callSites k).exec c).1 = .ok sites ∧
      FollowSets.Settles k sites (.initial g.size) f ∧ ((g.followSets k).exec c).1 = .ok f ∧
      f.length = g.size ∧ g.FollowClosed k f.get ∧
      (∀ family, g.FollowClosed k family → ∀ r < g.size, f.get r ⊆ family r) ∧
      ∀ r < g.size, ∀ p, p ∈ f.get r ↔ g.Follows k r p := by
  obtain ⟨types, hg⟩ := exists_proper hclosed hfilled
  obtain ⟨sites, hrun⟩ := exists_ok_of_ensures (ensures_callSites (k := k)) hrec hc.sound
  have hsites := (ensures_callSites (k := k) c hc.sound).2
  rw [hrun] at hsites
  let enough := g.size * (k + 1)
  let f := (FollowSets.pass k sites)^[enough] (.initial g.size)
  have hlength : f.length = g.size := (FollowSets.complete_iterate hg hsites enough).1
  have hfollows : ∀ r < g.size, ∀ p, p ∈ f.get r ↔ g.Follows k r p := fun r hr p =>
    FollowSets.mem_iterate hg hrec hsites (Nat.le_refl enough) hr
  have hf : g.FollowClosed k f.get := followClosed_of_follows hg hfollows
  -- a closed family is not changed by another visit
  have hpass : FollowSets.pass k sites f = f := by
    refine FollowSets.pass_eq_self ((FollowSets.distinct_initial g.size).iterate enough) ?_
    intro site hsite
    obtain ⟨after, hcall, hfirst⟩ := hsites.sound hsite
    exact hf.append hcall hfirst
  have hresult : ((g.followSets k).exec c).1 = .ok f := by
    unfold followSets
    rw [FirstM.exec_bind]
    rcases hexec : (g.callSites k).exec c with ⟨result, c'⟩
    obtain rfl : result = .ok sites := by rw [← hrun, hexec]
    show Except.ok (FollowSets.settle k sites (enough + 1) (.initial g.size)) = .ok f
    rw [FollowSets.settle_eq_iterate, Function.iterate_succ_apply', hpass]
  exact ⟨sites, f, hrun, FollowSets.settles_iterate hpass, hresult, hlength, hf,
    fun family hfamily => hfamily.iterate hg hsites enough, hfollows⟩

/-- Brackets around brackets or around nothing. -/
def brackets : Grammar :=
  ⟨[⟨"brackets", .sequence [.terminal 0 1, .optional (.ruleRef 0 1) 1, .terminal 1 1]⟩]⟩

theorem brackets_not_leftRecursive : ¬ brackets.LeftRecursive := by
  refine not_leftRecursive_of_firsts fun r hr => ⟨.empty, .empty, [[0]], ?_⟩
  obtain rfl : r = 0 := Nat.lt_one_iff.mp hr
  exact eq_ok_of_toOption (by decide +kernel)

theorem brackets_followSets_least :
    ∃ f, ((brackets.followSets 2).exec .empty).1 = .ok f ∧ f.get 0 = [[], [1], [1, 1]] ∧
      brackets.FollowClosed 2 f.get ∧
      (∀ family, brackets.FollowClosed 2 family → f.get 0 ⊆ family 0) ∧
      ∀ p, p ∈ f.get 0 ↔ brackets.Follows 2 0 p := by
  have hclosed : brackets.Closed := by
    intro r i h
    have h : (r, i) = (0, 1) := by simpa [brackets, nodes, Node.preorder, Node.preorderAll] using h
    cases h
    exact Nat.one_pos
  have hfilled : brackets.Filled := by
    intro i description h
    simp [brackets, nodes, Node.preorder, Node.preorderAll] at h
  obtain ⟨sites, f, -, -, hresult, -, hf, hleast, hfollows⟩ :=
    followSets_least hclosed hfilled brackets_not_leftRecursive .empty 2
  have hsets : ((brackets.followSets 2).exec .empty).1 = .ok [[[], [1], [1, 1]]] :=
    eq_ok_of_toOption (by decide +kernel)
  obtain rfl : f = [[[], [1], [1, 1]]] := Except.ok.inj (hresult.symm.trans hsets)
  exact ⟨_, hresult, rfl, hf, fun family hfamily => hleast family hfamily 0 Nat.one_pos,
    hfollows 0 Nat.one_pos⟩

end Grammar

end StrongLL
