import StrongLL.Proofs.Acceptance

/-!
# StrongLL.Proofs.Choice

How a ready parser chooses:

* `Grammar.Admits`              — the kinds to come fit an opening path of a way.
* `Parser.Ready.predict_eq`     — the prediction is the first way in that admits them.
* `Parser.Ready.admits_unique`  — no two ways of a decision admit the same kinds.
* `Parser.Ready.predict_in`, `Parser.Ready.predict_out` — so the way that admits them is taken,
  be it a branch or the exit.
-/

namespace StrongLL

namespace Grammar

variable {g : Grammar} {v : Vocabulary} {k : Nat}

/-- The first `k` of the kinds, or all if there are fewer, fit an opening path of the way. -/
def Admits (g : Grammar) (v : Vocabulary) (k : Nat) (r : RuleId) (pending : List Pending)
    (kinds : List TypeId) : Prop :=
  ∃ p, g.Ways k r pending p ∧ v.Fits p (kinds.take k)

theorem Admits.clash {r : RuleId} {xs ys : List Pending} {kinds : List TypeId}
    (hx : g.Admits v k r xs kinds) (hy : g.Admits v k r ys kinds) : g.Clash v k r xs ys := by
  obtain ⟨p, hp, hfits⟩ := hx
  obtain ⟨q, hq, hfits'⟩ := hy
  exact ⟨p, q, hp, hq, hfits.meets hfits'⟩

/-- Only the first `k` kinds count. -/
theorem admits_congr {r : RuleId} {xs : List Pending} {kinds kinds' : List TypeId}
    (h : kinds.take k = kinds'.take k) : g.Admits v k r xs kinds ↔ g.Admits v k r xs kinds' := by
  unfold Admits
  rw [h]

end Grammar

theorem findIdx?_congr {α β : Type} {R : α → β → Prop} {a : α → Bool} {b : β → Bool} {xs : List α}
    {ys : List β} (h : List.Forall₂ R xs ys) (hab : ∀ x y, R x y → a x = b y) :
    ys.findIdx? b = xs.findIdx? a := by
  induction h with
  | nil => rfl
  | cons hxy _ ih => rw [List.findIdx?_cons, List.findIdx?_cons, ih, hab _ _ hxy]

namespace Parser.Ready

open Classical

variable {p : Parser} (hp : p.Ready) {x : DecisionKey × Fork} (hx : x ∈ p.grammar.forks)

include hp hx

theorem predict_eq (s : RunState) :
    p.predict x.1 s = x.2.branches.findIdx? fun way =>
      decide (p.grammar.Admits p.vocabulary p.config.lookahead x.1.rule way.2 s.kinds) := by
  obtain ⟨f, hlookup, hf⟩ := hp.predictor x hx
  unfold predict
  rw [hlookup, Option.bind_some, Predictor.predict, hf.depth]
  refine findIdx?_congr hf.branches ?_
  intro way b h
  obtain ⟨paths, rfl, hpaths⟩ := h
  rw [Bool.eq_iff_iff, decide_eq_true_iff]
  simp only [PredictorBranch.ofPaths, List.any_map, List.any_eq_true, Function.comp_apply]
  refine exists_congr fun q => ?_
  rw [hpaths]
  refine and_congr_right fun hq => ?_
  obtain ⟨outer, -, hopens⟩ := hq
  exact (AcceptPath.accepts_iff_fits hopens.length_le (List.length_take_le _ _)).symm

theorem admits_unique {first second : BranchLabel × List Pending}
    (hsub : [first, second].Sublist x.2.ways) {kinds : List TypeId}
    (hfirst : p.grammar.Admits p.vocabulary p.config.lookahead x.1.rule first.2 kinds)
    (hsecond : p.grammar.Admits p.vocabulary p.config.lookahead x.1.rule second.2 kinds) :
    False :=
  hp.clear x hx ⟨first, second, hsub, hfirst.clash hsecond⟩

/-- A predicted branch exists and admits the kinds to come. -/
theorem of_predict {s : RunState} {i : Nat} (h : p.predict x.1 s = some i) :
    ∃ way, x.2.branches[i]? = some way ∧
      p.grammar.Admits p.vocabulary p.config.lookahead x.1.rule way.2 s.kinds := by
  rw [hp.predict_eq hx] at h
  obtain ⟨hi, hadmits, -⟩ := List.findIdx?_eq_some_iff_getElem.mp h
  exact ⟨x.2.branches[i], List.getElem?_eq_getElem hi, of_decide_eq_true hadmits⟩

theorem predict_in {s : RunState} {i : Nat} {way : BranchLabel × List Pending}
    (hway : x.2.branches[i]? = some way)
    (h : p.grammar.Admits p.vocabulary p.config.lookahead x.1.rule way.2 s.kinds) :
    p.predict x.1 s = some i := by
  obtain ⟨hi, rfl⟩ := List.getElem?_eq_some_iff.mp hway
  rw [hp.predict_eq hx]
  refine List.findIdx?_eq_some_iff_getElem.mpr ⟨hi, decide_eq_true h, ?_⟩
  -- an earlier branch that admits the kinds would make the decision ambiguous
  intro j hji hj
  have hpair : PairAt x.2.branches j i x.2.branches[j] x.2.branches[i] :=
    ⟨hji, List.getElem?_eq_getElem _, List.getElem?_eq_getElem hi⟩
  exact hp.admits_unique hx (hpair.sublist.trans (List.sublist_append_left _ _))
    (of_decide_eq_true hj) h

theorem predict_out {s : RunState} {way : BranchLabel × List Pending} (hway : x.2.exit = some way)
    (h : p.grammar.Admits p.vocabulary p.config.lookahead x.1.rule way.2 s.kinds) :
    p.predict x.1 s = none := by
  rw [hp.predict_eq hx]
  refine List.findIdx?_eq_none_iff.mpr fun branch hbranch => decide_eq_false fun hadmits => ?_
  have hsub : [branch, way].Sublist x.2.ways := by
    unfold Fork.ways
    rw [hway]
    exact (List.singleton_sublist.mpr hbranch).append (List.Sublist.refl [way])
  exact hp.admits_unique hx hsub hadmits h

end Parser.Ready

end StrongLL
