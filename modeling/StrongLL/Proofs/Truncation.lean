import StrongLL.Proofs.ExactSets

/-!
# StrongLL.Proofs.Truncation

Sets of different depths agree as far as both of them look:

* `PathSet.CutsTo`          — cutting the paths of one set gives the paths of another one.
* `Grammar.cutsTo_of_opens` — so it is with what some lists of parts open with, since no expansion
  gets stuck where the smaller depth ends.
* `Grammar.sets_cutsTo`     — and so with the answers for rules and nodes and with the follow sets,
  whatever was asked before.
-/

namespace StrongLL

/-- Neither set is empty, and the paths of the second one are those of the first one, cut to `j`
types. -/
structure PathSet.CutsTo (j : Nat) (s t : PathSet) : Prop where
  ne_nil : s ≠ []
  cut_ne_nil : t ≠ []
  mem_iff {p : Path} : p ∈ s.map (List.take j) ↔ p ∈ t

theorem FollowSets.length_settle (k : Nat) (sites : List CallSite) (passes rules : Nat) :
    (settle k sites passes (initial rules)).length = rules := by
  rw [settle_eq_iterate]
  induction passes with
  | zero => simp [initial]
  | succ n ih => rw [Function.iterate_succ_apply', length_pass, ih]

namespace Grammar

variable {g : Grammar} {types j k : Nat}

/-- Two sets of opening paths of the same lists of parts, at two depths. -/
theorem cutsTo_of_opens (hg : g.Proper types) (hrec : ¬ g.LeftRecursive) (hjk : j ≤ k)
    {Comes : List Pending → Prop} (hcomes : ∃ xs, Comes xs)
    (hproper : ∀ xs, Comes xs → ∀ x ∈ xs, x.part.Proper types g.size) {s t : PathSet}
    (hs : ∀ p, p ∈ s ↔ ∃ xs, Comes xs ∧ g.Opens k xs p)
    (ht : ∀ p, p ∈ t ↔ ∃ xs, Comes xs ∧ g.Opens j xs p) : s.CutsTo j t := by
  obtain ⟨some, hsome⟩ := hcomes
  refine ⟨?_, ?_, fun {p} => ⟨fun hp => ?_, fun hp => ?_⟩⟩
  · obtain ⟨p, hp⟩ := exists_opens hg hrec k some (hproper some hsome)
    exact List.ne_nil_of_mem ((hs p).mpr ⟨some, hsome, hp⟩)
  · obtain ⟨p, hp⟩ := exists_opens hg hrec j some (hproper some hsome)
    exact List.ne_nil_of_mem ((ht p).mpr ⟨some, hsome, hp⟩)
  · obtain ⟨q, hq, rfl⟩ := List.mem_map.mp hp
    obtain ⟨xs, hxs, hopens⟩ := (hs q).mp hq
    exact (ht _).mpr ⟨xs, hxs, hopens.take hjk⟩
  · obtain ⟨xs, hxs, hopens⟩ := (ht p).mp hp
    -- the expansion goes on behind the smaller depth, whatever it has left
    obtain ⟨q, hq, rfl⟩ := hopens.exists_longer hg hrec (hproper xs hxs) hjk
    exact List.mem_map_of_mem ((hs q).mpr ⟨xs, hxs, hq⟩)

theorem cutsTo_of_isFirst (hg : g.Proper types) (hrec : ¬ g.LeftRecursive) (hjk : j ≤ k)
    {n : Node} (hn : n.Proper types g.size) {s t : PathSet} (hs : g.IsFirst k [.node n] s)
    (ht : g.IsFirst j [.node n] t) : s.CutsTo j t := by
  have hone : ∃ xs, xs = [Pending.node n] := ⟨_, rfl⟩
  refine cutsTo_of_opens hg hrec hjk hone ?_ (fun p => by simp [hs p]) fun p => by simp [ht p]
  rintro xs rfl
  simpa [Pending.part] using hn

theorem cutsTo_of_follows (hg : g.Proper types) (hrec : ¬ g.LeftRecursive) (hjk : j ≤ k)
    {r : RuleId} {s t : PathSet} (hs : ∀ p, p ∈ s ↔ g.Follows k r p)
    (ht : ∀ p, p ∈ t ↔ g.Follows j r p) : s.CutsTo j t :=
  cutsTo_of_opens hg hrec hjk ⟨[], .entry⟩ (fun _ houter => hg.continues houter) hs ht

/-- Without left recursion the store has an answer. -/
theorem exists_first (hrec : ¬ g.LeftRecursive) {c : FirstCache} (hc : c.Sound g) (k : Nat)
    (xs : List Pending) : ∃ s, ((g.first k xs).exec c).1 = .ok s ∧ g.IsFirst k xs s := by
  obtain ⟨s, hs⟩ := exists_ok_of_ensures (ensures_first (k := k) xs) hrec hc
  exact ⟨s, hs, isFirst_of_exec hc hs⟩

theorem exists_followSets (hg : g.Proper types) (hrec : ¬ g.LeftRecursive) {c : FirstCache}
    (hc : c.Sound g) (k : Nat) :
    ∃ f, ((g.followSets k).exec c).1 = .ok f ∧
      f.length = g.size ∧ ∀ r < g.size, ∀ p, p ∈ f.get r ↔ g.Follows k r p := by
  have hsets : (storeContract g).Ensures (g.followSets k) fun f =>
      f.length = g.size ∧ ∀ r < g.size, ∀ p, p ∈ f.get r ↔ g.Follows k r p :=
    (storeContract g).bind ensures_callSites fun sites hsites => (storeContract g).pure
      ⟨FollowSets.length_settle k sites _ g.size,
        fun _ hr _ => FollowSets.mem_settle hg hrec hsites hr⟩
  obtain ⟨f, hf⟩ := exists_ok_of_ensures hsets hrec hc
  have hresult := (hsets c hc).2
  rw [hf] at hresult
  exact ⟨f, hf, hresult⟩

/-- In a grammar without dangling invocations, empty choices and left recursion, looking less far
ahead cuts the paths and changes nothing else: no path appears or vanishes where the smaller depth
ends in the middle of a sequence, of a repetition or of an invoked rule. -/
theorem sets_cutsTo (hclosed : g.Closed) (hfilled : g.Filled) (hrec : ¬ g.LeftRecursive)
    {c c' : FirstCache} (hc : FirstCache.Left g c) (hc' : FirstCache.Left g c') (hjk : j ≤ k) :
    (∀ r < g.size, ∃ s t, ((g.firstOfRule k r).exec c).1 = .ok s ∧
      ((g.firstOfRule j r).exec c').1 = .ok t ∧ s.CutsTo j t) ∧
    (∀ n : Node, (∀ r i, .ruleRef r i ∈ n.preorder → r < g.size) →
      (∀ i description, .alternation [] i description ∉ n.preorder) →
      ∃ s t, ((g.firstOfNode k n).exec c).1 = .ok s ∧
        ((g.firstOfNode j n).exec c').1 = .ok t ∧ s.CutsTo j t) ∧
    ∃ f h, ((g.followSets k).exec c).1 = .ok f ∧ ((g.followSets j).exec c').1 = .ok h ∧
      f.length = g.size ∧ h.length = g.size ∧ ∀ r < g.size, (f.get r).CutsTo j (h.get r) := by
  have hnode : ∀ n : Node, (∀ r i, .ruleRef r i ∈ n.preorder → r < g.size) →
      (∀ i description, .alternation [] i description ∉ n.preorder) →
      ∃ s t, ((g.firstOfNode k n).exec c).1 = .ok s ∧
        ((g.firstOfNode j n).exec c').1 = .ok t ∧ s.CutsTo j t := by
    intro n hrefs hchoices
    obtain ⟨types, hg, hn⟩ := exists_proper_node hclosed hfilled hrefs hchoices
    obtain ⟨s, hs, hfirst⟩ := exists_first hrec hc.sound k [.node n]
    obtain ⟨t, ht, hcut⟩ := exists_first hrec hc'.sound j [.node n]
    exact ⟨s, t, hs, ht, cutsTo_of_isFirst hg hrec hjk hn hfirst hcut⟩
  refine ⟨fun r hr => ?_, hnode, ?_⟩
  · refine hnode (.ruleRef r 0) (fun b i h => ?_) fun i description h => ?_
    · obtain ⟨rfl, -⟩ : b = r ∧ i = 0 := by simpa [Node.preorder] using h
      exact hr
    · simp [Node.preorder] at h
  · obtain ⟨types, hg⟩ := exists_proper hclosed hfilled
    obtain ⟨f, hf, hflength, hfollows⟩ := exists_followSets hg hrec hc.sound k
    obtain ⟨h, hh, hhlength, hcut⟩ := exists_followSets hg hrec hc'.sound j
    exact ⟨f, h, hf, hh, hflength, hhlength, fun r hr =>
      cutsTo_of_follows hg hrec hjk (hfollows r hr) (hcut r hr)⟩

theorem blanksAndWord_cutsTo :
    (∃ s t, ((blanksAndWord.firstOfRule 2 1).exec .empty).1 = .ok s ∧
      ((blanksAndWord.firstOfRule 1 1).exec ((blanksAndWord.firstOfRule 2 0).exec .empty).2).1 =
        .ok t ∧ s.CutsTo 1 t) ∧
    ∃ f h, ((blanksAndWord.followSets 2).exec .empty).1 = .ok f ∧
      ((blanksAndWord.followSets 1).exec ((blanksAndWord.firstOfRule 2 0).exec .empty).2).1 =
        .ok h ∧ (f.get 0).CutsTo 1 (h.get 0) := by
  have hclosed : blanksAndWord.Closed := by
    intro r i h
    have h : (r, i) = (0, 1) := by
      simpa [blanksAndWord, nodes, Node.preorder, Node.preorderAll] using h
    cases h
    exact Nat.two_pos
  have hfilled : blanksAndWord.Filled := by
    intro i description h
    simp [blanksAndWord, nodes, Node.preorder, Node.preorderAll] at h
  have hrec : ¬ blanksAndWord.LeftRecursive := by
    have hfirsts : ∀ r < blanksAndWord.size,
        (((blanksAndWord.firstOfRule 1 r).exec .empty).1.toOption).isSome := by
      decide +kernel
    refine not_leftRecursive_of_firsts fun r hr => ⟨.empty, .empty, ?_⟩
    obtain ⟨s, hs⟩ := Option.isSome_iff_exists.mp (hfirsts r hr)
    exact ⟨s, eq_ok_of_toOption hs⟩
  have hleft : FirstCache.Left blanksAndWord ((blanksAndWord.firstOfRule 2 0).exec .empty).2 :=
    .first 2 [.node (.ruleRef 0 0)] .empty
  obtain ⟨hrule, -, f, h, hf, hh, -, -, hcut⟩ :=
    sets_cutsTo hclosed hfilled hrec .empty hleft (Nat.le_succ 1)
  exact ⟨hrule 1 Nat.one_lt_two, f, h, hf, hh, hcut 0 Nat.two_pos⟩

end Grammar

end StrongLL
