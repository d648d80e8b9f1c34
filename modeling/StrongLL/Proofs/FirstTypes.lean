import StrongLL.Proofs.Starts

/-!
# StrongLL.Proofs.FirstTypes

Which types may start an iteration, in the order in which they are named:

* `consistently`             — what a computation returns on a consistent store.
* `Grammar.IsPlainBranch`    — the paths of a branch come in the order in which they are found
  without a store.
* `Grammar.surveyed_plain`   — so do those of all decisions that a survey finds.
* `PathSet.heads_append`     — what follows a rule adds no types to those that start a part which
  is not empty.
* `Draft.firstTypes_atLeastOne` — the types named for a repetition are those that its body can
  start with.
-/

namespace StrongLL

/-- From a consistent store a computation makes a consistent store and a right result. -/
def consistently (g : Grammar) : Contract FirstM where
  Ensures x post := ∀ c, c.Consistent g → (x.exec c).2.Consistent g ∧
    ∀ a, (x.exec c).1 = .ok a → post a
  pure h := fun _ hc => ⟨hc, fun _ heq => Except.ok.inj heq ▸ h⟩
  bind {α β x f mid post} hx hf := by
    intro c hc
    obtain ⟨hc', hmid⟩ := hx c hc
    rw [FirstM.exec_bind]
    rcases hrun : FirstM.exec x c with ⟨l | a, c'⟩
    · rw [hrun] at hc'
      exact ⟨hc', fun _ heq => by cases heq⟩
    · rw [hrun] at hc' hmid
      exact hf a (hmid a rfl) c' hc'
  mono hx hpost := fun c hc => ⟨(hx c hc).1, fun a heq => hpost a ((hx c hc).2 a heq)⟩

namespace Grammar

variable {g : Grammar} {k : Nat}

theorem consistently_first (xs : List Pending) :
    (consistently g).Ensures (g.first k xs) fun s => g.plainFirst k xs = .ok s := by
  intro c hc
  obtain ⟨heq, hc'⟩ := exec_first (k := k) hc xs
  exact ⟨hc', fun s hs => heq ▸ hs⟩

/-- The paths of the way itself in the order in which they are found, each extended by what follows
the rule. -/
def IsPlainBranch (g : Grammar) (k : Nat) (way : BranchLabel × List Pending) (b : Branch) : Prop :=
  ∃ s follow, g.plainFirst k way.2 = .ok s ∧ [] ∈ follow ∧ b.paths = PathSet.append k s follow

def IsPlainDecision (g : Grammar) (k : Nat) (x : DecisionKey × Fork) (d : Decision) : Prop :=
  d.key = x.1 ∧ List.Forall₂ (g.IsPlainBranch k) x.2.branches d.branches

theorem consistently_branch {follow : PathSet} (hfollow : [] ∈ follow)
    (way : BranchLabel × List Pending) :
    (consistently g).Ensures (g.branch k follow way.1 way.2) (g.IsPlainBranch k way) := by
  refine (consistently g).bind (consistently_first way.2) fun s hs => ?_
  exact (consistently g).pure ⟨s, follow, hs, hfollow, rfl⟩

theorem consistently_decision {follow : PathSet} (hfollow : [] ∈ follow)
    (x : DecisionKey × Fork) :
    (consistently g).Ensures (g.decision k follow x.1 x.2) (g.IsPlainDecision k x) := by
  refine (consistently g).bind
    ((consistently g).mapM fun way _ => consistently_branch hfollow way) ?_
  intro branches hbranches
  cases x.2.exit with
  | none => exact (consistently g).pure ⟨rfl, hbranches⟩
  | some way =>
    have hexit : (consistently g).Ensures
        ((some way).mapM fun (way : BranchLabel × List Pending) => g.branch k follow way.1 way.2)
        fun _ => True :=
      (consistently g).bind (consistently_branch hfollow way) fun _ _ =>
        (consistently g).pure trivial
    exact (consistently g).bind hexit fun _ _ => (consistently g).pure ⟨rfl, hbranches⟩

theorem consistently_decisions {follow : FollowSets} (hfollow : ∀ r, [] ∈ follow.get r) :
    (consistently g).Ensures (g.decisions k follow)
      (List.Forall₂ (g.IsPlainDecision k) g.forks) :=
  (consistently g).mapM fun x _ => consistently_decision (hfollow _) x

end Grammar

/-- The end of input follows every rule from the start. -/
theorem FollowSets.nil_mem_settle (k : Nat) (sites : List CallSite) (passes rules : Nat)
    (r : RuleId) : [] ∈ (settle k sites passes (initial rules)).get r := by
  rw [settle_eq_iterate]
  induction passes with
  | zero => simp [get_initial, PathSet.epsilon]
  | succ n ih =>
    rw [Function.iterate_succ_apply']
    exact subset_pass r ih

namespace Grammar

variable {g : Grammar} {k : Nat}

theorem consistently_followSets :
    (consistently g).Ensures (g.followSets k) fun follow => ∀ r, [] ∈ follow.get r := by
  have hsites : (consistently g).Ensures (g.callSites k) fun _ => True :=
    (consistently g).mono ((consistently g).mapM (R := fun _ _ => True) fun _ _ =>
      (consistently g).bind (consistently_first _) fun _ _ => (consistently g).pure trivial)
      fun _ _ => trivial
  refine (consistently g).bind hsites fun sites _ => (consistently g).pure fun r => ?_
  exact FollowSets.nil_mem_settle k sites _ g.size r

theorem consistently_checkLeftRecursion :
    (consistently g).Ensures g.checkLeftRecursion fun _ => True := by
  unfold checkLeftRecursion
  induction List.range g.size with
  | nil => exact (consistently g).pure trivial
  | cons r rules ih =>
    have hr : (consistently g).Ensures (do let _ ← g.firstOfRule 1 r) fun _ => True :=
      (consistently g).bind (consistently_first _) fun _ _ => (consistently g).pure trivial
    exact (consistently g).bind hr fun _ _ => ih

theorem consistently_emptyRepetitions :
    (consistently g).Ensures g.emptyRepetitions fun _ => True :=
  (consistently g).bind ((consistently g).mapM (R := fun _ _ => True) fun _ _ =>
    (consistently g).bind (consistently_first _) fun _ _ => (consistently g).pure trivial)
    fun _ _ => (consistently g).pure trivial

theorem surveyed_plain {ds : List Decision} (h : g.surveyed k = .ok ds) :
    List.Forall₂ (g.IsPlainDecision k) g.forks ds := by
  have hsurvey := (consistently g).survey (g := g) (k := k) consistently_checkLeftRecursion
    consistently_emptyRepetitions consistently_followSets
    fun _ hfollow => consistently_decisions hfollow
  have hresult := (hsurvey .empty FirstCache.consistent_empty).2
  exact hresult _ (surveyed_eq_ok.mp h) ds rfl

end Grammar

/-! ## The first types of a branch -/

namespace PathSet

theorem none_notMem_starts {s : PathSet} (hs : [] ∉ s) : none ∉ s.starts := by
  intro hmem
  obtain ⟨p, hp, hhead⟩ := List.mem_map.mp hmem
  obtain rfl := List.head?_eq_none_iff.mp hhead
  exact hs hp

/-- Paths of one type, each once, are their first types. -/
theorem heads_map_singleton {s : PathSet} (hs : s.Nodup) (hsingle : ∀ p ∈ s, ∃ t, p = [t]) :
    (s.filterMap (·.head?)).eraseDups.map (fun t => [t]) = s := by
  have hmap : (s.filterMap (·.head?)).map (fun t => [t]) = s := by
    rw [List.map_filterMap]
    refine (List.filterMap_congr fun p hp => ?_).trans List.filterMap_some
    obtain ⟨t, rfl⟩ := hsingle p hp
    rfl
  rw [eraseDups_eq_self, hmap]
  exact List.Nodup.of_map (fun t => [t]) (hmap.symm ▸ hs)

/-- What a part that is not empty starts with, whatever follows it. -/
theorem heads_append {k : Nat} (hk : 0 < k) {s t : PathSet} (hs : [] ∉ s) (ht : [] ∈ t) :
    ((append k s t).filterMap (·.head?)).eraseDups = (s.filterMap (·.head?)).eraseDups := by
  have hstarts : (append k s t).StartsAs (s.starts.andThen []) :=
    StartsAs.extend hk rfl (fun hnil => absurd hnil hs) fun p _ _ _ =>
      List.ne_nil_of_mem (List.mem_map_of_mem ht)
  rw [Starts.andThen_eq_self (none_notMem_starts hs)] at hstarts
  rw [hstarts.heads, StartsAs.heads (a := s.starts) rfl]

end PathSet

namespace Draft

variable {d : Draft} {p : Parser}

/-- A parser is made of the decisions of its grammar. -/
theorem exists_decisions (h : d.parser = .ok p) :
    ∃ ds, p.grammar.surveyed p.config.lookahead = .ok ds ∧
      p.table = ds.map fun x => (x.key, x.function p.vocabulary p.config.lookahead) := by
  obtain ⟨-, -, -, htable⟩ := parser_parts h
  obtain ⟨ds, hds, htable⟩ := Grammar.table_eq_ok htable
  exact ⟨ds, hds, (tableOf_spec htable).2⟩

/-- What may start an iteration: the first types of the body, in the order in which its paths are
found. -/
theorem firstTypes_atLeastOne (h : d.parser = .ok p) {r : RuleId} {body : Node} {i : Nat}
    {after : List Pending} (hx : (r, .repetition body i true, after) ∈ p.grammar.contexts) :
    ∃ s, p.grammar.plainFirst p.config.lookahead (.node body :: .loop body :: after) = .ok s ∧
      p.firstTypes ⟨r, ⟨.atLeastOne, i⟩⟩ = (s.filterMap (·.head?)).eraseDups := by
  have hready := parser_ready h
  obtain ⟨ds, hds, htable⟩ := exists_decisions h
  obtain ⟨d', hd', hkey, hbranches⟩ :=
    exists_mem_left (Grammar.surveyed_plain hds) _ (Grammar.repetition_mem_forks hx)
  obtain ⟨b, rest, ⟨s, follow, hs, hfollow, hpaths⟩, -, hcons⟩ :=
    List.forall₂_cons_left_iff.mp hbranches
  refine ⟨s, hs, ?_⟩
  -- the body is not empty, so nothing of what follows shows among the first types
  have hnil : [] ∉ s := by
    intro hmem
    have hopens := (Grammar.isFirst_of_plainFirst hs []).mp hmem
    have herased : p.grammar.Erasable ([.node body] ++ .loop body :: after) :=
      (Grammar.opens_nil_iff_erasable hready.lookahead_pos).mp hopens
    exact hready.progressive _ _ _ (Grammar.mem_repetitions hx) herased.of_append
  have hkeys : (p.table.map (·.1)).Nodup := by
    obtain ⟨hg, -, -, htable⟩ := parser_eq_ok h
    rw [htable.keys]
    exact grammar_keys hg
  have hlookup : p.predictor? ⟨r, ⟨.atLeastOne, i⟩⟩ =
      some (d'.function p.vocabulary p.config.lookahead) := by
    refine Grammar.lookup_of_nodup hkeys ?_
    rw [htable]
    exact List.mem_map.mpr ⟨d', hd', by rw [hkey]; rfl⟩
  unfold Parser.firstTypes
  rw [hlookup]
  simp only [Decision.function, Predictor.firstTypes, hcons, List.map_cons, List.getElem?_cons_zero,
    PredictorBranch.ofPaths]
  rw [hpaths]
  exact PathSet.heads_append hready.lookahead_pos hnil hfollow

/-- The types named for a repetition are the paths of one token that open its body, in the order in
which these are found. The lookahead of the parser has no part in them. -/
theorem firstTypes_eq_first (h : d.parser = .ok p) {r : RuleId} {body : Node} {i : Nat}
    {after : List Pending} (hx : (r, .repetition body i true, after) ∈ p.grammar.contexts) :
    p.grammar.plainFirst 1 [.node body] =
      .ok ((p.firstTypes ⟨r, ⟨.atLeastOne, i⟩⟩).map fun t => [t]) := by
  have hready := parser_ready h
  obtain ⟨hnode, hafter⟩ := hready.proper.context hx
  have hbody : body.Proper p.vocabulary.size p.grammar.size := by
    cases hnode with
    | repetition hbody => exact hbody
  have hfull : ¬ p.grammar.Erasable [.node body] :=
    hready.progressive _ _ _ (Grammar.mem_repetitions hx)
  have hrest : ∀ x ∈ .loop body :: after, x.part.Proper p.vocabulary.size p.grammar.size :=
    List.forall_mem_cons.mpr ⟨hbody, hafter⟩
  obtain ⟨s, hs, hfirst⟩ := firstTypes_atLeastOne h hx
  obtain ⟨alone, halone⟩ := Grammar.exists_plainFirst hready.grounded 1 [.node body]
  rw [Grammar.plainFirst_heads hready.proper hready.grounded hready.lookahead_pos hbody hrest hfull
    hs, ← Grammar.plainFirst_heads hready.proper hready.grounded Nat.one_pos hbody (by simp) hfull
    halone] at hfirst
  have hsingle : ∀ q ∈ alone, ∃ t, q = [t] := by
    intro q hq
    have hopens := (Grammar.isFirst_of_plainFirst halone q).mp hq
    have hlength := hopens.length_le
    cases q with
    | nil => exact absurd ((Grammar.opens_nil_iff_erasable Nat.one_pos).mp hopens) hfull
    | cons t q => exact ⟨t, by simpa using hlength⟩
  rw [halone, hfirst, PathSet.heads_map_singleton (Grammar.plainFirst_nodup halone) hsingle]

end Draft

end StrongLL
