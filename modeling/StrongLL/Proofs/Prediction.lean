import StrongLL.Proofs.Decisions

/-!
# StrongLL.Proofs.Prediction

From paths to tables:

* `Vocabulary.Fits`        — a window of token kinds has the types of a path, one by one.
* `Vocabulary.Meets`       — some window fits both of two paths.
* `Fork.ways`, `Grammar.Clash`, `Grammar.Ambiguous` — two ways of a decision cannot be told apart.
* `Decision.ambiguity?_eq_none`, `Decision.ambiguity?_eq_some` — what the check of a decision finds;
  `Decision.go_eq_some` — it finds the first pair of branches there is to find.
* `Grammar.Names`          — an ambiguity names two ways of a fork and a path of the first.
* `tableOf_eq_ok`, `tableOf_eq_error` — the table, or the first ambiguous decision.
-/

namespace StrongLL

namespace Vocabulary

variable {v : Vocabulary}

def Fits (v : Vocabulary) (p : Path) (window : List TypeId) : Prop :=
  List.Forall₂ (fun t kind => v.accepts t kind = true) p window

def Meets (v : Vocabulary) (p q : Path) : Prop :=
  List.Forall₂ (fun s t => ∃ kind, v.accepts s kind = true ∧ v.accepts t kind = true) p q

theorem lt_size_of_accepts {t kind : TypeId} (h : v.accepts t kind = true) : kind < v.size := by
  unfold accepts ancestors at h
  cases hget : v.get? kind with
  | none => simp [hget] at h
  | some type => exact (List.getElem?_eq_some_iff.mp hget).1

theorem mem_members_iff {t kind : TypeId} : kind ∈ v.members t ↔ v.accepts t kind = true := by
  rw [mem_members]
  constructor
  · exact fun h => h.2
  · exact fun h => ⟨lt_size_of_accepts h, h⟩

/-- Two paths that one window fits meet. -/
theorem Fits.meets {p q : Path} {window : List TypeId} (hp : v.Fits p window)
    (hq : v.Fits q window) : v.Meets p q := by
  unfold Fits at hp
  induction hp generalizing q with
  | nil =>
    cases hq
    exact .nil
  | cons hs _ ih =>
    cases hq with
    | cons ht hq => exact .cons ⟨_, hs, ht⟩ (ih hq)

theorem fits_iff_zip {p : Path} {window : List TypeId} :
    v.Fits p window ↔ p.length = window.length ∧
      ((AcceptPath.ofPath v p).zip window).all (fun (types, t) => t ∈ types) = true := by
  induction p generalizing window with
  | nil => cases window <;> simp [Fits, AcceptPath.ofPath]
  | cons t p ih =>
    cases window with
    | nil => simp [Fits]
    | cons kind window =>
      have hih := @ih window
      unfold Fits AcceptPath.ofPath at hih
      unfold Fits AcceptPath.ofPath
      simp only [List.forall₂_cons, hih, List.length_cons, List.map_cons, List.zip_cons_cons,
        List.all_cons, mem_members_iff, Bool.and_eq_true, decide_eq_true_eq]
      constructor
      · intro h
        obtain ⟨h, hlen, hall⟩ := h
        exact ⟨by omega, h, hall⟩
      · intro h
        obtain ⟨hlen, h, hall⟩ := h
        exact ⟨h, by omega, hall⟩

theorem meets_iff_zip {p q : Path} :
    v.Meets p q ↔ (AcceptPath.ofPath v p).meets (AcceptPath.ofPath v q) = true := by
  unfold AcceptPath.meets
  induction p generalizing q with
  | nil => cases q <;> simp [Meets, AcceptPath.ofPath]
  | cons s p ih =>
    cases q with
    | nil => simp [Meets, AcceptPath.ofPath]
    | cons t q =>
      have hih := @ih q
      have hshare : (v.members s).any (· ∈ v.members t) = true ↔
          ∃ kind, v.accepts s kind = true ∧ v.accepts t kind = true := by
        simp [mem_members_iff]
      unfold Meets at hih
      unfold Meets
      rw [List.forall₂_cons, hih, ← hshare]
      simp only [AcceptPath.ofPath, List.map_cons, List.length_cons, List.length_map,
        List.zip_cons_cons, List.all_cons, Bool.and_eq_true, decide_eq_true_eq, Nat.succ_inj]
      constructor
      · intro h
        obtain ⟨h, hlen, hall⟩ := h
        exact ⟨hlen, h, hall⟩
      · intro h
        obtain ⟨hlen, h, hall⟩ := h
        exact ⟨h, hlen, hall⟩

end Vocabulary

/-- A path no longer than the depth accepts the windows that fit it. -/
theorem AcceptPath.accepts_iff_fits {v : Vocabulary} {depth : Nat} {p : Path}
    {window : List TypeId} (hp : p.length ≤ depth) (hwindow : window.length ≤ depth) :
    (ofPath v p).accepts depth window = true ↔ v.Fits p window := by
  rw [Vocabulary.fits_iff_zip]
  unfold accepts
  have hlen : (ofPath v p).length = p.length := by simp [ofPath]
  rw [hlen, Bool.and_eq_true]
  refine and_congr_left fun _ => ?_
  by_cases hshort : p.length < depth
  · rw [if_pos hshort]
    simp [eq_comm]
  · rw [if_neg hshort]
    have heq : p.length = depth := by omega
    simp only [decide_eq_true_eq]
    omega

/-- All ways on from a decision point, the exit last. -/
def Fork.ways (f : Fork) : List (BranchLabel × List Pending) := f.branches ++ f.exit.toList

namespace Grammar

variable {g : Grammar} {v : Vocabulary} {k : Nat}

/-- Two ways on within `r` have opening paths that some token list fits at once, each after its own
chain of callers. -/
def Clash (g : Grammar) (v : Vocabulary) (k : Nat) (r : RuleId) (xs ys : List Pending) : Prop :=
  ∃ p q, g.Ways k r xs p ∧ g.Ways k r ys q ∧ v.Meets p q

/-- Two of the ways of a decision clash. -/
def Ambiguous (g : Grammar) (v : Vocabulary) (k : Nat) (x : DecisionKey × Fork) : Prop :=
  ∃ first second, [first, second].Sublist x.2.ways ∧ g.Clash v k x.1.rule first.2 second.2

/-- The ambiguity is one of the decision: it names two of its ways, and a path of the first that
meets one of the second. -/
def Names (g : Grammar) (v : Vocabulary) (k : Nat) (x : DecisionKey × Fork)
    (a : Ambiguity) : Prop :=
  a.key = x.1 ∧ ∃ xs ys, [(a.first, xs), (a.second, ys)].Sublist x.2.ways ∧
    g.Ways k x.1.rule xs a.path ∧ ∃ q, g.Ways k x.1.rule ys q ∧ v.Meets a.path q

theorem Names.ambiguous {x : DecisionKey × Fork} {a : Ambiguity} (h : g.Names v k x a) :
    g.Ambiguous v k x := by
  obtain ⟨-, xs, ys, hsub, hp, q, hq, hmeets⟩ := h
  exact ⟨_, _, hsub, a.path, q, hp, hq, hmeets⟩

end Grammar

/-! ## Two places of a list -/

structure PairAt {α : Type} (xs : List α) (i j : Nat) (a b : α) : Prop where
  lt : i < j
  first : xs[i]? = some a
  second : xs[j]? = some b

namespace PairAt

variable {α : Type} {x a b : α} {xs : List α} {i j : Nat}

theorem zero (h : xs[j]? = some b) : PairAt (x :: xs) 0 (j + 1) x b := ⟨Nat.succ_pos j, rfl, h⟩

theorem succ (h : PairAt xs i j a b) : PairAt (x :: xs) (i + 1) (j + 1) a b :=
  ⟨Nat.succ_lt_succ h.lt, h.first, h.second⟩

/-- Two places include the first one, or both are behind it. -/
theorem cases_cons (h : PairAt (x :: xs) i j a b) :
    (i = 0 ∧ x = a ∧ ∃ n, j = n + 1 ∧ xs[n]? = some b) ∨
      ∃ m n, i = m + 1 ∧ j = n + 1 ∧ PairAt xs m n a b := by
  obtain ⟨hlt, hfirst, hsecond⟩ := h
  obtain ⟨n, rfl⟩ : ∃ n, j = n + 1 := ⟨j - 1, by omega⟩
  cases i with
  | zero => exact .inl ⟨rfl, Option.some.inj hfirst, n, rfl, hsecond⟩
  | succ m => exact .inr ⟨m, n, rfl, rfl, Nat.lt_of_succ_lt_succ hlt, hfirst, hsecond⟩

theorem sublist (h : PairAt xs i j a b) : [a, b].Sublist xs := by
  induction xs generalizing i j with
  | nil => cases h.first
  | cons x xs ih =>
    obtain ⟨-, rfl, n, -, hn⟩ | ⟨m, n, -, -, h⟩ := h.cases_cons
    · exact .cons_cons _ (List.singleton_sublist.mpr (List.mem_of_getElem? hn))
    · exact .cons _ (ih h)

theorem exists_of_sublist (h : [a, b].Sublist xs) : ∃ i j, PairAt xs i j a b := by
  induction xs with
  | nil => cases h
  | cons x xs ih =>
    cases h with
    | cons _ h =>
      obtain ⟨i, j, hpair⟩ := ih h
      exact ⟨i + 1, j + 1, hpair.succ⟩
    | cons_cons _ h =>
      obtain ⟨j, hj⟩ := List.mem_iff_getElem?.mp (List.singleton_sublist.mp h)
      exact ⟨0, j + 1, .zero hj⟩

end PairAt

/-! ## The check of a decision -/

theorem Branch.sharedPath?_eq_some {v : Vocabulary} {b other : Branch} {p : Path}
    (h : b.sharedPath? v other = some p) : p ∈ b.paths ∧ ∃ q ∈ other.paths, v.Meets p q := by
  unfold sharedPath? at h
  refine ⟨List.mem_of_find?_eq_some h, ?_⟩
  have hany := List.find?_some h
  simpa [← Vocabulary.meets_iff_zip] using hany

theorem Branch.sharedPath?_eq_none {v : Vocabulary} {b other : Branch}
    (h : b.sharedPath? v other = none) {p q : Path} (hp : p ∈ b.paths) (hq : q ∈ other.paths) :
    ¬ v.Meets p q := by
  intro hmeets
  have hnone := List.find?_eq_none.mp h p hp
  refine hnone ?_
  simpa [← Vocabulary.meets_iff_zip] using ⟨q, hq, hmeets⟩

/-- No path is longer than the depth. -/
def Branch.Bounded (depth : Nat) (b : Branch) : Prop := ∀ p ∈ b.paths, p.length ≤ depth

namespace Decision

variable {v : Vocabulary} {d : Decision}

/-- All branches of a decision, the exit last. -/
def all (d : Decision) : List Branch := d.branches ++ d.exit.toList

/-- No path of a branch or of the exit is longer than the depth. -/
def Bounded (depth : Nat) (d : Decision) : Prop := ∀ b ∈ d.all, b.Bounded depth

/-- The ambiguity of a branch against one that comes later. -/
def clash? (v : Vocabulary) (d : Decision) (b other : Branch) : Option Ambiguity :=
  (b.sharedPath? v other).map fun p => ⟨d.key, b.label, other.label, p⟩

theorem findSome?_go_cons (b : Branch) (later : List Branch) :
    (checks.go v d (b :: later)).findSome? Prod.snd =
      ((later ++ d.exit.toList).findSome? (d.clash? v b)).or
        ((checks.go v d later).findSome? Prod.snd) := by
  rw [checks.go, List.findSome?_cons]
  unfold clash?
  generalize (later ++ d.exit.toList).findSome? _ = found
  cases found <;> rfl

theorem sharedPath?_of_go_eq_none {branches : List Branch}
    (h : (checks.go v d branches).findSome? Prod.snd = none) {i j : Nat} {b other : Branch}
    (hpair : PairAt (branches ++ d.exit.toList) i j b other) : b.sharedPath? v other = none := by
  induction branches generalizing i j with
  | nil =>
    -- the exit alone has nothing to meet
    have hj := (List.getElem?_eq_some_iff.mp hpair.second).1
    have hexit : d.exit.toList.length ≤ 1 := by cases d.exit <;> simp
    have hlt := hpair.lt
    rw [List.nil_append] at hj
    omega
  | cons first later ih =>
    rw [findSome?_go_cons, Option.or_eq_none_iff] at h
    rw [List.cons_append] at hpair
    obtain ⟨hfirst, hlater⟩ := h
    obtain ⟨-, rfl, n, -, hn⟩ | ⟨m, n, -, -, hpair⟩ := hpair.cases_cons
    · have hnone := List.findSome?_eq_none_iff.mp hfirst other (List.mem_of_getElem? hn)
      exact Option.map_eq_none_iff.mp hnone
    · exact ih hlater hpair

theorem go_eq_some {branches : List Branch} {a : Ambiguity}
    (h : (checks.go v d branches).findSome? Prod.snd = some a) :
    ∃ i j b other, PairAt (branches ++ d.exit.toList) i j b other ∧ d.clash? v b other = some a ∧
      ∀ m n b' other', PairAt (branches ++ d.exit.toList) m n b' other' →
        b'.sharedPath? v other' ≠ none → i < m ∨ i = m ∧ j ≤ n := by
  induction branches with
  | nil => simp [checks.go] at h
  | cons first later ih =>
    rw [findSome?_go_cons, Option.or_eq_some_iff] at h
    rcases h with h | ⟨hfirst, h⟩
    · obtain ⟨before, other, after, hlater, hclash, hbefore⟩ := List.findSome?_eq_some_iff.mp h
      have hother : (later ++ d.exit.toList)[before.length]? = some other := by simp [hlater]
      refine ⟨0, before.length + 1, first, other, .zero hother, hclash, ?_⟩
      intro m n b' other' hpair hshared
      rw [List.cons_append] at hpair
      obtain ⟨rfl, rfl, n, rfl, hn⟩ | ⟨m, n, rfl, -, -⟩ := hpair.cases_cons
      · refine .inr ⟨rfl, Nat.succ_le_succ (Nat.le_of_not_lt fun hlt => hshared ?_)⟩
        rw [hlater, List.getElem?_append_left hlt] at hn
        exact Option.map_eq_none_iff.mp (hbefore other' (List.mem_of_getElem? hn))
      · exact .inl (Nat.succ_pos m)
    · obtain ⟨i, j, b, other, hpair, hclash, hleast⟩ := ih h
      refine ⟨i + 1, j + 1, b, other, hpair.succ, hclash, ?_⟩
      intro m n b' other' hpair' hshared
      rw [List.cons_append] at hpair'
      obtain ⟨-, rfl, n, -, hn⟩ | ⟨m, n, rfl, rfl, hlater⟩ := hpair'.cases_cons
      · have hnone := List.findSome?_eq_none_iff.mp hfirst other' (List.mem_of_getElem? hn)
        exact absurd (Option.map_eq_none_iff.mp hnone) hshared
      · obtain hlt | ⟨rfl, hle⟩ := hleast m n b' other' hlater hshared
        · exact .inl (Nat.succ_lt_succ hlt)
        · exact .inr ⟨rfl, Nat.succ_le_succ hle⟩

theorem ambiguity?_eq_none (h : d.ambiguity? v = none) {b other : Branch}
    (hsub : [b, other].Sublist d.all) {p q : Path} (hp : p ∈ b.paths) (hq : q ∈ other.paths) :
    ¬ v.Meets p q := by
  obtain ⟨i, j, hpair⟩ := PairAt.exists_of_sublist hsub
  exact Branch.sharedPath?_eq_none (sharedPath?_of_go_eq_none h hpair) hp hq

theorem ambiguity?_eq_some {a : Ambiguity} (h : d.ambiguity? v = some a) :
    a.key = d.key ∧ ∃ b other, [b, other].Sublist d.all ∧ a.first = b.label ∧
      a.second = other.label ∧ a.path ∈ b.paths ∧ ∃ q ∈ other.paths, v.Meets a.path q := by
  obtain ⟨i, j, b, other, hpair, hclash, -⟩ := go_eq_some h
  obtain ⟨p, hp, rfl⟩ := Option.map_eq_some_iff.mp hclash
  exact ⟨rfl, b, other, hpair.sublist, rfl, rfl, Branch.sharedPath?_eq_some hp⟩

end Decision

/-! ## Decisions against forks -/

theorem sublist_of_forall₂ {α β : Type} {R : α → β → Prop} {xs : List α} {ys zs : List β}
    (h : List.Forall₂ R xs ys) (hsub : zs.Sublist ys) :
    ∃ ws, ws.Sublist xs ∧ List.Forall₂ R ws zs := by
  induction h generalizing zs with
  | nil =>
    obtain rfl := List.sublist_nil.mp hsub
    exact ⟨[], .slnil, .nil⟩
  | @cons x y xs ys hxy _ ih =>
    cases hsub with
    | cons _ hsub =>
      obtain ⟨ws, hws, hR⟩ := ih hsub
      exact ⟨ws, .cons _ hws, hR⟩
    | cons_cons _ hsub =>
      obtain ⟨ws, hws, hR⟩ := ih hsub
      exact ⟨x :: ws, .cons_cons _ hws, .cons hxy hR⟩

namespace Grammar.IsDecision

variable {g : Grammar} {v : Vocabulary} {k : Nat} {x : DecisionKey × Fork} {d : Decision}

theorem all_ways (h : g.IsDecision k x d) :
    List.Forall₂ (g.IsBranch k x.1.rule) x.2.ways d.all :=
  List.rel_append h.branches h.exit

theorem not_ambiguous (h : g.IsDecision k x d) (hnone : d.ambiguity? v = none) :
    ¬ g.Ambiguous v k x := by
  intro hx
  obtain ⟨first, second, hsub, p, q, hp, hq, hmeets⟩ := hx
  obtain ⟨bs, hbs, hR⟩ := sublist_of_forall₂ h.all_ways.flip hsub
  cases hR with
  | cons hb hR =>
    cases hR with
    | cons hother hR =>
      cases hR
      exact Decision.ambiguity?_eq_none hnone hbs ((hb.2 p).mpr hp) ((hother.2 q).mpr hq) hmeets

theorem names (h : g.IsDecision k x d) {a : Ambiguity} (hsome : d.ambiguity? v = some a) :
    g.Names v k x a := by
  obtain ⟨hkey, b, other, hsub, hfirst, hsecond, hp, q, hq, hmeets⟩ :=
    Decision.ambiguity?_eq_some hsome
  obtain ⟨ways, hways, hR⟩ := sublist_of_forall₂ h.all_ways hsub
  cases hR with
  | @cons way _ _ _ hb hR =>
    cases hR with
    | @cons way' _ _ _ hother hR =>
      cases hR
      obtain ⟨label, xs⟩ := way
      obtain ⟨label', ys⟩ := way'
      obtain rfl : a.first = label := hfirst.trans hb.1
      obtain rfl : a.second = label' := hsecond.trans hother.1
      exact ⟨hkey.trans h.key, xs, ys, hways, (hb.2 _).mp hp, q, (hother.2 q).mp hq, hmeets⟩

end Grammar.IsDecision

/-! ## The table -/

theorem tableOf_spec {v : Vocabulary} {k : Nat} {ds : List Decision} {table : PredictionTable}
    (h : tableOf v k ds = .ok table) :
    (∀ d ∈ ds, d.ambiguity? v = none) ∧ table = ds.map fun d => (d.key, d.function v k) := by
  induction ds generalizing table with
  | nil =>
    cases h
    exact ⟨by simp, rfl⟩
  | cons d ds ih =>
    rw [tableOf] at h
    cases hamb : d.ambiguity? v with
    | some a => simp [hamb] at h
    | none =>
      rw [hamb] at h
      cases hrest : tableOf v k ds with
      | error a => simp [hrest, bind, Except.bind] at h
      | ok rest =>
        obtain ⟨hclear, rfl⟩ := ih hrest
        rw [hrest] at h
        cases h
        exact ⟨by simpa using ⟨hamb, hclear⟩, rfl⟩

section

variable {g : Grammar} {v : Vocabulary} {k : Nat} {xs : List (DecisionKey × Fork)}
  {ds : List Decision}

theorem tableOf_eq_ok (h : List.Forall₂ (g.IsDecision k) xs ds) {table : PredictionTable}
    (htable : tableOf v k ds = .ok table) :
    (∀ x ∈ xs, ¬ g.Ambiguous v k x) ∧
      table = ds.map fun d => (d.key, d.function v k) := by
  obtain ⟨hclear, rfl⟩ := tableOf_spec htable
  refine ⟨fun x hx => ?_, rfl⟩
  obtain ⟨d, hd, hdecision⟩ := exists_mem_left h x hx
  exact hdecision.not_ambiguous (hclear d hd)

/-- The first ambiguous decision is the one that is named. -/
theorem tableOf_eq_error (h : List.Forall₂ (g.IsDecision k) xs ds) {a : Ambiguity}
    (htable : tableOf v k ds = .error a) :
    ∃ before x after, xs = before ++ x :: after ∧ (∀ y ∈ before, ¬ g.Ambiguous v k y) ∧
      g.Names v k x a := by
  induction h generalizing a with
  | nil => cases htable
  | @cons x d xs ds hd _ ih =>
    rw [tableOf] at htable
    cases hamb : d.ambiguity? v with
    | some found =>
      rw [hamb] at htable
      cases htable
      exact ⟨[], x, xs, rfl, by simp, hd.names hamb⟩
    | none =>
      rw [hamb] at htable
      cases hrest : tableOf v k ds with
      | ok rest => simp [hrest, bind, Except.bind, pure, Except.pure] at htable
      | error found =>
        obtain ⟨before, y, after, rfl, hbefore, hy⟩ := ih hrest
        rw [hrest] at htable
        cases htable
        refine ⟨x :: before, y, after, rfl, ?_, hy⟩
        intro z hz
        obtain rfl | hz := List.mem_cons.mp hz
        · exact hd.not_ambiguous hamb
        · exact hbefore z hz

end

end StrongLL
