import StrongLL.Proofs.Choice
import StrongLL.Proofs.Truncation
import StrongLL.Proofs.UniqueChoice

/-!
# StrongLL.Proofs.FollowDepth

Decisions need follow sets of their own depth, and deeper ones change nothing:

* `Branch.Alike`, `Decision.Alike` — the same paths in whatever order.
* `Grammar.exists_decisions_of_follow` — follow sets that are deep enough give exact decisions.
* `Decision.Alike.ambiguity?_rel`, `Decision.Alike.predict_eq` — the order of paths has no part in
  which branches meet, nor in which branch is predicted.
* `Ambiguity.SameBranches`, `SameAnswer` — what remains of a table or an ambiguity without that
  order.
* `Grammar.tableOf_followSets`     — tables made from follow sets of two depths answer alike.
-/

namespace StrongLL

/-! ## Decisions with the same paths -/

structure Branch.Alike (b c : Branch) : Prop where
  label : b.label = c.label
  mem_iff {p : Path} : p ∈ b.paths ↔ p ∈ c.paths

structure Decision.Alike (d e : Decision) : Prop where
  key : d.key = e.key
  branches : List.Forall₂ Branch.Alike d.branches e.branches
  exit : List.Forall₂ Branch.Alike d.exit.toList e.exit.toList

/-- Two lists that stand in relation to one list stand in relation to each other. -/
theorem forall₂_of_common {α β γ : Type} {R : α → β → Prop} {S : α → γ → Prop} {T : β → γ → Prop}
    (hT : ∀ x y z, R x y → S x z → T y z) {xs : List α} {ys : List β} {zs : List γ}
    (hR : List.Forall₂ R xs ys) (hS : List.Forall₂ S xs zs) : List.Forall₂ T ys zs := by
  induction hR generalizing zs with
  | nil =>
    cases hS
    exact .nil
  | cons hxy _ ih =>
    cases hS with
    | cons hxz hS => exact .cons (hT _ _ _ hxy hxz) (ih hS)

namespace Grammar

variable {g : Grammar} {k types : Nat}

theorem IsDecision.alike {x : DecisionKey × Fork} {d e : Decision} (hd : g.IsDecision k x d)
    (he : g.IsDecision k x e) : d.Alike e := by
  have hbranch : ∀ way b c, g.IsBranch k x.1.rule way b → g.IsBranch k x.1.rule way c →
      b.Alike c := fun _ _ _ hb hc =>
    ⟨hb.1.trans hc.1.symm, (hb.2 _).trans (hc.2 _).symm⟩
  exact ⟨hd.key.trans he.key.symm, forall₂_of_common hbranch hd.branches he.branches,
    forall₂_of_common hbranch hd.exit he.exit⟩

/-- Without left recursion the store has the decisions, whatever was asked for before. -/
theorem exists_decisions_of_follow (hg : g.Proper types) (hrec : ¬ g.LeftRecursive)
    {c : FirstCache} (hc : c.Sound g) {follow : FollowSets}
    (hfollow : ∀ r < g.size, g.IsFollow k r (follow.get r)) :
    ∃ ds, ((g.decisions k follow).exec c).1 = .ok ds ∧
      List.Forall₂ (g.IsDecision k) g.forks ds := by
  have hds := ensures_decisions hg hrec hfollow
  obtain ⟨ds, hrun⟩ := exists_ok_of_ensures hds hrec hc
  have hresult := (hds c hc).2
  rw [hrun] at hresult
  exact ⟨ds, hrun, hresult⟩

end Grammar

/-! ## What the order of paths has no part in -/

/-- The same two branches of the same decision are named. -/
structure Ambiguity.SameBranches (a b : Ambiguity) : Prop where
  key : a.key = b.key
  first : a.first = b.first
  second : a.second = b.second

theorem findSome?_rel {α β γ δ : Type} {R : α → β → Prop} {S : γ → δ → Prop} {f : α → Option γ}
    {h : β → Option δ} (hrel : ∀ x y, R x y → Option.Rel S (f x) (h y)) {xs : List α} {ys : List β}
    (hxs : List.Forall₂ R xs ys) : Option.Rel S (xs.findSome? f) (ys.findSome? h) := by
  induction hxs with
  | nil => exact .none
  | @cons x y xs ys hxy _ ih =>
    have hfirst := hrel x y hxy
    rw [List.findSome?_cons, List.findSome?_cons]
    generalize f x = found at hfirst ⊢
    generalize h y = found' at hfirst ⊢
    cases hfirst with
    | some hS => exact .some hS
    | none => exact ih

namespace Branch

variable {v : Vocabulary} {depth : Nat} {b c other other' : Branch}

theorem Alike.matches_iff (h : b.Alike c) {upcoming : List TypeId} :
    b.Matches v depth upcoming ↔ c.Matches v depth upcoming :=
  exists_congr fun _ => and_congr_left fun _ => h.mem_iff

theorem isSome_sharedPath?_iff :
    (b.sharedPath? v other).isSome ↔ ∃ p ∈ b.paths, ∃ q ∈ other.paths, v.Meets p q := by
  constructor
  · intro h
    obtain ⟨p, hp⟩ := Option.isSome_iff_exists.mp h
    exact ⟨p, sharedPath?_eq_some hp⟩
  · rintro ⟨p, hp, q, hq, hmeets⟩
    rw [Option.isSome_iff_ne_none]
    exact fun hnone => sharedPath?_eq_none hnone hp hq hmeets

theorem Alike.isSome_sharedPath? (h : b.Alike c) (hother : other.Alike other') :
    (b.sharedPath? v other).isSome ↔ (c.sharedPath? v other').isSome := by
  simp only [isSome_sharedPath?_iff, h.mem_iff, hother.mem_iff]

end Branch

namespace Decision

variable {v : Vocabulary} {depth : Nat} {d e : Decision}

theorem Alike.clash?_rel (h : d.Alike e) {b c other other' : Branch} (hb : b.Alike c)
    (hother : other.Alike other') :
    Option.Rel Ambiguity.SameBranches (d.clash? v b other) (e.clash? v c other') := by
  have hshared := hb.isSome_sharedPath? (v := v) hother
  unfold clash?
  cases hp : b.sharedPath? v other with
  | none =>
    cases hq : c.sharedPath? v other' with
    | none => exact .none
    | some q => simp [hp, hq] at hshared
  | some p =>
    cases hq : c.sharedPath? v other' with
    | none => simp [hp, hq] at hshared
    | some q => exact .some ⟨h.key, hb.label, hother.label⟩

/-- The check goes through the branches in their order, and only asks which of them meet. -/
theorem Alike.go_rel (h : d.Alike e) {bs cs : List Branch} (hbs : List.Forall₂ Branch.Alike bs cs) :
    Option.Rel Ambiguity.SameBranches ((checks.go v d bs).findSome? Prod.snd)
      ((checks.go v e cs).findSome? Prod.snd) := by
  induction hbs with
  | nil => exact .none
  | @cons b c bs cs hb hbs ih =>
    have hfirst : Option.Rel Ambiguity.SameBranches
        ((bs ++ d.exit.toList).findSome? (d.clash? v b))
        ((cs ++ e.exit.toList).findSome? (e.clash? v c)) :=
      findSome?_rel (fun _ _ hother => h.clash?_rel hb hother) (List.rel_append hbs h.exit)
    rw [findSome?_go_cons, findSome?_go_cons]
    generalize (bs ++ d.exit.toList).findSome? (d.clash? v b) = found at hfirst ⊢
    generalize (cs ++ e.exit.toList).findSome? (e.clash? v c) = found' at hfirst ⊢
    cases hfirst with
    | some hsame => exact .some hsame
    | none => exact ih

theorem Alike.ambiguity?_rel (h : d.Alike e) :
    Option.Rel Ambiguity.SameBranches (d.ambiguity? v) (e.ambiguity? v) :=
  h.go_rel h.branches

theorem Alike.predict_eq (h : d.Alike e) (upcoming : List TypeId) :
    (d.function v depth).predict upcoming = (e.function v depth).predict upcoming := by
  classical
  rw [predict_function, predict_function]
  exact (findIdx?_congr h.branches fun b c hbc => by simp only [hbc.matches_iff]).symm

end Decision

/-- A table both times, with the same keys in the same order and the same predictions whatever
comes, or both times an ambiguity of the same branches. -/
inductive SameAnswer :
    Except Ambiguity PredictionTable → Except Ambiguity PredictionTable → Prop where
  | table {s t : PredictionTable} :
      List.Forall₂ (fun x y => x.1 = y.1 ∧ ∀ upcoming, x.2.predict upcoming = y.2.predict upcoming)
        s t → SameAnswer (.ok s) (.ok t)
  | ambiguity {a b : Ambiguity} : a.SameBranches b → SameAnswer (.error a) (.error b)

theorem sameAnswer_tableOf (v : Vocabulary) (depth : Nat) {ds es : List Decision}
    (h : List.Forall₂ Decision.Alike ds es) :
    SameAnswer (tableOf v depth ds) (tableOf v depth es) := by
  induction h with
  | nil => exact .table .nil
  | @cons d e ds es hde _ ih =>
    have hclash := hde.ambiguity?_rel (v := v)
    rw [tableOf, tableOf]
    generalize d.ambiguity? v = found at hclash ⊢
    generalize e.ambiguity? v = found' at hclash ⊢
    cases hclash with
    | some hsame => exact .ambiguity hsame
    | none =>
      generalize tableOf v depth ds = rest at ih ⊢
      generalize tableOf v depth es = rest' at ih ⊢
      cases ih with
      | table hrest => exact .table (.cons ⟨hde.key, hde.predict_eq⟩ hrest)
      | ambiguity hsame => exact .ambiguity hsame

namespace Grammar

variable {g : Grammar} {k depth : Nat}

/-- In a grammar without dangling invocations, empty choices and left recursion, the decisions of
one depth may be made from follow sets of that depth or of any greater one: either table has the
same decisions and predictions, and either failure names the same branches. It does not matter what
was asked for before on any of the stores. -/
theorem tableOf_followSets (v : Vocabulary) (hclosed : g.Closed) (hfilled : g.Filled)
    (hrec : ¬ g.LeftRecursive) (hdepth : depth ≤ k) {c c' e e' : FirstCache}
    (hc : FirstCache.Left g c) (hc' : FirstCache.Left g c') (he : FirstCache.Left g e)
    (he' : FirstCache.Left g e') :
    ∃ follow follow' ds ds', ((g.followSets k).exec c).1 = .ok follow ∧
      ((g.followSets depth).exec c').1 = .ok follow' ∧
      ((g.decisions depth follow).exec e).1 = .ok ds ∧
      ((g.decisions depth follow').exec e').1 = .ok ds' ∧
      SameAnswer (tableOf v depth ds) (tableOf v depth ds') := by
  obtain ⟨types, hg⟩ := exists_proper hclosed hfilled
  obtain ⟨follow, hrun, -, hfollow⟩ := exists_followSets hg hrec hc.sound k
  obtain ⟨follow', hrun', -, hfollow'⟩ := exists_followSets hg hrec hc'.sound depth
  -- the deeper sets, cut to the depth of the decisions, are the other ones
  have hdeep : ∀ r < g.size, g.IsFollow depth r (follow.get r) := fun r hr p =>
    (cutsTo_of_follows hg hrec hdepth (hfollow r hr) (hfollow' r hr)).mem_iff.trans
      (hfollow' r hr p)
  have hexact : ∀ r < g.size, g.IsFollow depth r (follow'.get r) := fun r hr =>
    isFollow_of_follows (hfollow' r hr)
  obtain ⟨ds, hds, hdecisions⟩ := exists_decisions_of_follow hg hrec he.sound hdeep
  obtain ⟨ds', hds', hdecisions'⟩ := exists_decisions_of_follow hg hrec he'.sound hexact
  have halike : List.Forall₂ Decision.Alike ds ds' :=
    forall₂_of_common (fun _ _ _ hd hd' => hd.alike hd') hdecisions hdecisions'
  exact ⟨follow, follow', ds, ds', hrun, hrun', hds, hds', sameAnswer_tableOf v depth halike⟩

/-- Words one after another, each of which may have a mark behind it. -/
def markedWords : Grammar :=
  ⟨[⟨"line", .repetition (.ruleRef 1 1) 1 false⟩,
    ⟨"word", .sequence [.terminal 0 1, .optional (.terminal 1 1) 1]⟩]⟩

def markedVocabulary : Vocabulary := .ofSpecs [{ name := "word" }, { name := "mark" }]

theorem markedWords_tableOf :
    ∃ ds ds', ((markedWords.decisions 1 [[[]], [[], [0, 1], [0], [0, 0]]]).exec .empty).1 =
        .ok ds ∧
      ((markedWords.decisions 1 [[[]], [[], [0]]]).exec
        ((markedWords.followSets 1).exec .empty).2).1 = .ok ds' ∧
      SameAnswer (tableOf markedVocabulary 1 ds) (tableOf markedVocabulary 1 ds') := by
  have hclosed : markedWords.Closed := by
    intro r i h
    have h : (r, i) = (1, 1) := by
      simpa [markedWords, nodes, Node.preorder, Node.preorderAll] using h
    cases h
    exact Nat.one_lt_two
  have hfilled : markedWords.Filled := by
    intro i description h
    simp [markedWords, nodes, Node.preorder, Node.preorderAll] at h
  have hrec : ¬ markedWords.LeftRecursive := by
    have hfirsts : ∀ r < markedWords.size,
        (((markedWords.firstOfRule 1 r).exec .empty).1.toOption).isSome := by
      decide +kernel
    refine not_leftRecursive_of_firsts fun r hr => ⟨.empty, .empty, ?_⟩
    obtain ⟨s, hs⟩ := Option.isSome_iff_exists.mp (hfirsts r hr)
    exact ⟨s, eq_ok_of_toOption hs⟩
  have hdeep : ((markedWords.followSets 2).exec .empty).1 =
      .ok [[[]], [[], [0, 1], [0], [0, 0]]] := eq_ok_of_toOption (by decide +kernel)
  have hshallow : ((markedWords.followSets 1).exec .empty).1 = .ok [[[]], [[], [0]]] :=
    eq_ok_of_toOption (by decide +kernel)
  obtain ⟨follow, follow', ds, ds', hrun, hrun', hds, hds', hsame⟩ :=
    tableOf_followSets markedVocabulary hclosed hfilled hrec (Nat.le_succ 1) .empty .empty .empty
      (.followSets 1 .empty)
  obtain rfl := Except.ok.inj (hrun.symm.trans hdeep)
  obtain rfl := Except.ok.inj (hrun'.symm.trans hshallow)
  exact ⟨ds, ds', hds, hds', hsame⟩

end Grammar

end StrongLL
