import StrongLL.Proofs.FollowSets

/-!
# StrongLL.Proofs.Decisions

The decisions of a grammar are computed from exact sets:

* `Grammar.Ways`           — the paths of one way on from a decision point, with all that may
  follow its rule.
* `Grammar.Progressive`    — no repeated body can be empty.
* `Grammar.IsFollow`       — a follow set of the depth of the decisions or a greater one.
* `Grammar.IsDecision`     — the branches of a decision have exactly the paths of its fork.
* `Grammar.ensures_survey` — what a survey finds is right: left recursion, repetitions that make no
  progress, or else the decisions.
-/

namespace StrongLL

namespace Grammar

variable {g : Grammar} {k : Nat} {types : Nat}

/-- The opening paths of `pending` at some place within `r`, whatever `r` was invoked for. -/
def Ways (g : Grammar) (k : Nat) (r : RuleId) (pending : List Pending) (p : Path) : Prop :=
  ∃ outer, Continues g r outer ∧ g.Opens k (pending ++ outer) p

/-- No repetition has a body that matches the empty input. -/
def Progressive (g : Grammar) : Prop :=
  ∀ r o body, (r, o, body) ∈ g.repetitions → ¬ g.Erasable [.node body]

/-- The set holds what may come after the rule, as far as the first `k` types go. -/
def IsFollow (g : Grammar) (k : Nat) (r : RuleId) (follow : PathSet) : Prop :=
  ∀ p, p ∈ follow.map (List.take k) ↔ g.Follows k r p

theorem isFollow_of_follows {r : RuleId} {follow : PathSet}
    (h : ∀ p, p ∈ follow ↔ g.Follows k r p) : g.IsFollow k r follow := by
  intro p
  rw [List.mem_map, ← h p]
  constructor
  · rintro ⟨q, hq, rfl⟩
    obtain ⟨outer, -, hopens⟩ := (h q).mp hq
    rwa [List.take_of_length_le hopens.length_le]
  · intro hp
    obtain ⟨outer, -, hopens⟩ := (h p).mp hp
    exact ⟨p, hp, List.take_of_length_le hopens.length_le⟩

/-- First and follow sets lose nothing when they are put together, though first sets are cut off at
`k` types, and follow sets there or behind. -/
theorem mem_append_iff_ways (hg : g.Proper types) (hrec : ¬ g.LeftRecursive) {r : RuleId}
    {pending : List Pending} {s t : PathSet} (hs : g.IsFirst k pending s)
    (ht : g.IsFollow k r t) (q : Path) :
    q ∈ PathSet.append k s t ↔ g.Ways k r pending q := by
  have htake : ∀ (p u : Path), (u.take k).take (k - p.length) = u.take (k - p.length) := by
    intro p u
    rw [List.take_take, Nat.min_eq_left (Nat.sub_le k _)]
  rw [PathSet.mem_append]
  constructor
  · intro h
    obtain ⟨p, hp, ⟨hlen, rfl⟩ | ⟨hlen, u, hu, rfl⟩⟩ := h
    · refine ⟨[], .entry, ?_⟩
      rw [List.append_nil]
      exact (hs q).mp hp
    · obtain ⟨outer, houter, ho⟩ := (ht _).mp (List.mem_map_of_mem hu)
      refine ⟨outer, houter, opens_append.mpr ⟨p, (hs p).mp hp, .inr ⟨hlen, _, ?_, rfl⟩⟩⟩
      exact htake p u ▸ ho.take (Nat.sub_le k _)
  · intro h
    obtain ⟨outer, houter, hq⟩ := h
    obtain ⟨p, hp, ⟨hlen, rfl⟩ | ⟨hlen, u, hu, rfl⟩⟩ := opens_append.mp hq
    · exact ⟨q, (hs q).mpr hp, .inl ⟨hlen, rfl⟩⟩
    · obtain ⟨w, hw, rfl⟩ := hu.exists_longer hg hrec (hg.continues houter) (Nat.sub_le k _)
      obtain ⟨x, hx, rfl⟩ := List.mem_map.mp ((ht w).mpr ⟨outer, houter, hw⟩)
      exact ⟨p, (hs p).mpr hp, .inr ⟨hlen, x, hx, by rw [htake]⟩⟩

def IsBranch (g : Grammar) (k : Nat) (r : RuleId) (way : BranchLabel × List Pending)
    (b : Branch) : Prop :=
  b.label = way.1 ∧ ∀ p, p ∈ b.paths ↔ g.Ways k r way.2 p

structure IsDecision (g : Grammar) (k : Nat) (x : DecisionKey × Fork) (d : Decision) : Prop where
  key : d.key = x.1
  branches : List.Forall₂ (g.IsBranch k x.1.rule) x.2.branches d.branches
  exit : List.Forall₂ (g.IsBranch k x.1.rule) x.2.exit.toList d.exit.toList

theorem ensures_branch (hg : g.Proper types) (hrec : ¬ g.LeftRecursive) {r : RuleId}
    {follow : PathSet} (hfollow : g.IsFollow k r follow)
    (way : BranchLabel × List Pending) :
    (storeContract g).Ensures (g.branch k follow way.1 way.2) (g.IsBranch k r way) := by
  refine (storeContract g).bind (ensures_first way.2) fun s hs => ?_
  exact (storeContract g).pure ⟨rfl, mem_append_iff_ways hg hrec hs hfollow⟩

theorem ensures_decision (hg : g.Proper types) (hrec : ¬ g.LeftRecursive) {follow : PathSet}
    (x : DecisionKey × Fork) (hfollow : g.IsFollow k x.1.rule follow) :
    (storeContract g).Ensures (g.decision k follow x.1 x.2) (g.IsDecision k x) := by
  have hbranch : ∀ way, (storeContract g).Ensures (g.branch k follow way.1 way.2)
      (g.IsBranch k x.1.rule way) := ensures_branch hg hrec hfollow
  refine (storeContract g).bind ((storeContract g).mapM fun way _ => hbranch way) ?_
  intro branches hbranches
  cases hexit : x.2.exit with
  | none => exact (storeContract g).pure ⟨rfl, hbranches, by simp [hexit]⟩
  | some way =>
    have hmap : (storeContract g).Ensures
        ((some way).mapM fun (way : BranchLabel × List Pending) => g.branch k follow way.1 way.2)
        fun exit => List.Forall₂ (g.IsBranch k x.1.rule) [way] exit.toList :=
      (storeContract g).bind (hbranch way) fun b hb =>
        (storeContract g).pure (List.Forall₂.cons hb .nil)
    refine (storeContract g).bind hmap fun exit h => (storeContract g).pure ⟨rfl, hbranches, ?_⟩
    rw [hexit]
    exact h

theorem ensures_decisions (hg : g.Proper types) (hrec : ¬ g.LeftRecursive) {follow : FollowSets}
    (hfollow : ∀ r < g.size, g.IsFollow k r (follow.get r)) :
    (storeContract g).Ensures (g.decisions k follow) (List.Forall₂ (g.IsDecision k) g.forks) := by
  refine (storeContract g).mapM fun x hx => ensures_decision hg hrec x (hfollow _ ?_)
  obtain ⟨n, after, hcontext, -⟩ := mem_forks.mp hx
  exact lt_of_mem_contexts hcontext

open Classical in
/-- Each repetition is judged by the first set of its body, which has the empty path if the body can
be empty. -/
theorem ensures_emptyRepetitions_eq :
    (storeContract g).Ensures g.emptyRepetitions fun defects => defects =
      (g.repetitions.filter fun x => g.Erasable [.node x.2.2]).map fun x =>
        .emptyRepetition x.1 x.2.1 x.2.2 := by
  refine (storeContract g).bind ((storeContract g).mapM
    (R := fun (x : RuleId × Occurrence × Node) (y : Defect × PathSet) =>
      y.1 = .emptyRepetition x.1 x.2.1 x.2.2 ∧ g.IsFirst 1 [.node x.2.2] y.2) ?_) ?_
  · intro x _
    exact (storeContract g).bind (ensures_first [.node x.2.2]) fun s hs =>
      (storeContract g).pure ⟨rfl, hs⟩
  · intro found hfound
    refine (storeContract g).pure ?_
    generalize g.repetitions = repetitions at hfound ⊢
    induction hfound with
    | nil => rfl
    | @cons x y xs found hxy _ ih =>
      obtain ⟨hdefect, hfirst⟩ := hxy
      have hempty : [] ∈ y.2 ↔ g.Erasable [.node x.2.2] :=
        (hfirst []).trans (opens_nil_iff_erasable Nat.one_pos)
      by_cases h : g.Erasable [.node x.2.2]
      · simp [hempty.mpr h, h, hdefect, ih]
      · simp [mt hempty.mp h, h, ih]

theorem ensures_emptyRepetitions :
    (storeContract g).Ensures g.emptyRepetitions fun defects => defects = [] ↔ g.Progressive :=
  (storeContract g).mono ensures_emptyRepetitions_eq fun defects hdefects => by
    simp [hdefects, Progressive]

/-- What a survey finds in a proper grammar. -/
def IsSurvey (g : Grammar) (k : Nat) : Except (List Defect) (List Decision) → Prop
  | .error _ => ¬ g.LeftRecursive ∧ ¬ g.Progressive
  | .ok ds => ¬ g.LeftRecursive ∧ g.Progressive ∧ List.Forall₂ (g.IsDecision k) g.forks ds

theorem ensures_survey (hg : g.Proper types) :
    (storeContract g).Ensures (g.survey k) (g.IsSurvey k) := by
  refine (storeContract g).bind ensures_checkLeftRecursion fun _ hrec => ?_
  refine (storeContract g).bind ensures_emptyRepetitions fun defects hdefects => ?_
  by_cases h : defects = []
  · subst h
    refine (storeContract g).bind (ensures_followSets hg hrec) fun follow hfollow => ?_
    have hexact : ∀ r < g.size, g.IsFollow k r (follow.get r) := fun r hr =>
      isFollow_of_follows (hfollow r hr)
    refine (storeContract g).bind (ensures_decisions hg hrec hexact) fun ds hds => ?_
    exact (storeContract g).pure ⟨hrec, hdefects.mp rfl, hds⟩
  · have hne : ¬ defects.isEmpty = true := by simpa using h
    simp only [hne]
    exact (storeContract g).pure ⟨hrec, fun hprog => h (hdefects.mpr hprog)⟩

theorem surveyed_eq_ok {ds : List Decision} :
    g.surveyed k = .ok ds ↔ (g.survey k).result = .ok (.ok ds) := by
  unfold surveyed
  rcases (g.survey k).result with _ | _ | _ <;> simp

/-- The faults of a grammar that its decisions have no part in, and the decisions of a grammar
without them. -/
theorem surveyed_spec (hg : g.Proper types) :
    match g.surveyed k with
    | .error (.leftRecursive l) => g.IsLeftCycle l
    | .error (.malformed _) => ¬ g.LeftRecursive ∧ ¬ g.Progressive
    | .error (.ambiguous _) => False
    | .ok ds => g.IsSurvey k (.ok ds) := by
  have hsurvey := FirstM.Ensures.result (ensures_survey (k := k) hg)
  unfold surveyed
  cases hresult : (g.survey k).result with
  | error l =>
    rw [hresult] at hsurvey
    exact hsurvey
  | ok found =>
    rw [hresult] at hsurvey
    cases found with
    | error defects => exact hsurvey
    | ok ds => exact hsurvey

end Grammar

/-- A survey goes through its parts in order, so its decisions are as good as what they are found
from. -/
theorem Contract.survey (C : Contract FirstM) {g : Grammar} {k : Nat} {F : FollowSets → Prop}
    {D : List Decision → Prop} (hcheck : C.Ensures g.checkLeftRecursion fun _ => True)
    (hempty : C.Ensures g.emptyRepetitions fun _ => True) (hfollow : C.Ensures (g.followSets k) F)
    (hds : ∀ follow, F follow → C.Ensures (g.decisions k follow) D) :
    C.Ensures (g.survey k) fun found => ∀ ds, found = .ok ds → D ds := by
  refine C.bind hcheck fun _ _ => C.bind hempty fun defects _ => ?_
  by_cases hdefects : defects.isEmpty = true
  · simp only [hdefects, if_true]
    refine C.bind hfollow fun follow hF => C.bind (hds follow hF) fun ds hD => ?_
    exact C.pure fun _ heq => Except.ok.inj heq ▸ hD
  · simp only [hdefects]
    exact C.pure fun _ heq => by cases heq

end StrongLL
