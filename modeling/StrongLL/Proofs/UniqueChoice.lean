import StrongLL.Proofs.CycleReport
import StrongLL.Proofs.Choice

/-!
# StrongLL.Proofs.UniqueChoice

The check of a decision and the choices that it allows:

* `Branch.Matches`           — a branch has a path for the kinds to come.
* `Branch.sharedPath?_eq_none_iff` — two branches share no path exactly if no kinds to come match
  both of them.
* `Decision.Exclusive`       — at most one of the branches and the exit matches, whatever comes.
* `Decision.Reports`         — what an ambiguity says about the branches that it names.
* `Decision.Decides`         — the branch that matches is taken, whichever it is, and none if the
  exit matches.
* `Decision.ambiguity_exact` — nothing is reported exactly if the branches exclude each other, and
  then the decision decides.
* `Grammar.table_decides`    — so do the tables of all grammars.
-/

namespace StrongLL

namespace Vocabulary

variable {v : Vocabulary}

/-- Two paths that meet are fit by one window. -/
theorem Meets.exists_fits {p q : Path} (h : v.Meets p q) :
    ∃ window, v.Fits p window ∧ v.Fits q window := by
  unfold Meets at h
  induction h with
  | nil => exact ⟨[], .nil, .nil⟩
  | cons hkind _ ih =>
    obtain ⟨kind, hs, ht⟩ := hkind
    obtain ⟨window, hp, hq⟩ := ih
    exact ⟨kind :: window, .cons hs hp, .cons ht hq⟩

end Vocabulary

/-! ## Two branches -/

namespace Branch

variable {v : Vocabulary} {depth : Nat} {b other : Branch} {upcoming : List TypeId}

/-- One of the paths accepts the first `depth` kinds to come. -/
def Matches (v : Vocabulary) (depth : Nat) (b : Branch) (upcoming : List TypeId) : Prop :=
  ∃ p ∈ b.paths, (AcceptPath.ofPath v p).accepts depth (upcoming.take depth) = true

theorem Bounded.matches_iff (hb : b.Bounded depth) :
    b.Matches v depth upcoming ↔ ∃ p ∈ b.paths, v.Fits p (upcoming.take depth) :=
  exists_congr fun p => and_congr_right fun hp =>
    AcceptPath.accepts_iff_fits (hb p hp) (List.length_take_le depth upcoming)

/-- A window for a path is long enough, and not too long, to be seen as a whole. -/
theorem Bounded.matches_of_fits (hb : b.Bounded depth) {p : Path} (hp : p ∈ b.paths)
    (h : v.Fits p upcoming) : b.Matches v depth upcoming := by
  have hlen : upcoming.length ≤ depth := by
    rw [← List.Forall₂.length_eq h]
    exact hb p hp
  refine hb.matches_iff.mpr ⟨p, hp, ?_⟩
  rwa [List.take_of_length_le hlen]

theorem sharedPath?_eq_none_iff (hb : b.Bounded depth) (hother : other.Bounded depth) :
    b.sharedPath? v other = none ↔
      ¬ ∃ upcoming, b.Matches v depth upcoming ∧ other.Matches v depth upcoming := by
  constructor
  · rintro hnone ⟨upcoming, hmatches, hmatches'⟩
    obtain ⟨p, hp, hfits⟩ := hb.matches_iff.mp hmatches
    obtain ⟨q, hq, hfits'⟩ := hother.matches_iff.mp hmatches'
    exact sharedPath?_eq_none hnone hp hq (hfits.meets hfits')
  · intro hnever
    cases hshared : b.sharedPath? v other with
    | none => rfl
    | some p =>
      obtain ⟨hp, q, hq, hmeets⟩ := sharedPath?_eq_some hshared
      obtain ⟨window, hfits, hfits'⟩ := hmeets.exists_fits
      exact absurd ⟨window, hb.matches_of_fits hp hfits, hother.matches_of_fits hq hfits'⟩ hnever

end Branch

/-! ## All branches of a decision -/

namespace Decision

variable {v : Vocabulary} {depth : Nat} {d : Decision}

/-- Whatever comes, at most one branch or the exit matches. -/
def Exclusive (v : Vocabulary) (depth : Nat) (d : Decision) : Prop :=
  ∀ (upcoming : List TypeId) (i j : Nat) (b other : Branch), d.all[i]? = some b →
    d.all[j]? = some other → b.Matches v depth upcoming → other.Matches v depth upcoming → i = j

theorem Bounded.shared_iff (hd : d.Bounded depth) {i j : Nat} {b other : Branch}
    (hpair : PairAt d.all i j b other) :
    b.sharedPath? v other = none ↔
      ¬ ∃ upcoming, b.Matches v depth upcoming ∧ other.Matches v depth upcoming :=
  Branch.sharedPath?_eq_none_iff (hd b (List.mem_of_getElem? hpair.first))
    (hd other (List.mem_of_getElem? hpair.second))

theorem exclusive_iff_pairs : d.Exclusive v depth ↔ ∀ i j b other, PairAt d.all i j b other →
    ¬ ∃ upcoming, b.Matches v depth upcoming ∧ other.Matches v depth upcoming := by
  constructor
  · rintro hexclusive i j b other hpair ⟨upcoming, hb, hother⟩
    exact Nat.ne_of_lt hpair.lt (hexclusive upcoming i j b other hpair.first hpair.second hb hother)
  · intro hpairs upcoming i j b other hi hj hb hother
    rcases Nat.lt_trichotomy i j with hlt | heq | hlt
    · exact absurd ⟨upcoming, hb, hother⟩ (hpairs i j b other ⟨hlt, hi, hj⟩)
    · exact heq
    · exact absurd ⟨upcoming, hother, hb⟩ (hpairs j i other b ⟨hlt, hj, hi⟩)

theorem Bounded.ambiguity?_eq_none_iff (hd : d.Bounded depth) :
    d.ambiguity? v = none ↔ d.Exclusive v depth := by
  rw [exclusive_iff_pairs]
  constructor
  · intro h i j b other hpair
    exact (hd.shared_iff hpair).mp (sharedPath?_of_go_eq_none h hpair)
  · intro hpairs
    cases h : d.ambiguity? v with
    | none => rfl
    | some a =>
      obtain ⟨i, j, b, other, hpair, hclash, -⟩ := go_eq_some h
      have hnone := (hd.shared_iff hpair).mpr (hpairs i j b other hpair)
      simp [clash?, hnone] at hclash

/-- An ambiguity tells of the branches at two places: with the exit counted last, no two others that
something matches come before them. -/
structure Reports (v : Vocabulary) (depth : Nat) (d : Decision) (a : Ambiguity) (i j : Nat)
    (b other : Branch) : Prop where
  pair : PairAt d.all i j b other
  key : a.key = d.key
  first : a.first = b.label
  second : a.second = other.label
  path : a.path ∈ b.paths
  text (names : Names) :
    a.typeNames names = if a.path = [] then ["end of input"] else a.path.map names.type
  window : ∃ window : List TypeId, window.length = a.path.length ∧
    (AcceptPath.ofPath v a.path).accepts depth window = true ∧
    ∃ q ∈ other.paths, (AcceptPath.ofPath v q).accepts depth window = true
  least {m n : Nat} {b' other' : Branch} {upcoming : List TypeId} :
    PairAt d.all m n b' other' → b'.Matches v depth upcoming → other'.Matches v depth upcoming →
      i < m ∨ i = m ∧ j ≤ n

theorem Bounded.exists_reports (hd : d.Bounded depth) {a : Ambiguity}
    (h : d.ambiguity? v = some a) : ∃ i j b other, d.Reports v depth a i j b other := by
  obtain ⟨i, j, b, other, hpair, hclash, hleast⟩ := go_eq_some h
  obtain ⟨p, hshared, rfl⟩ := Option.map_eq_some_iff.mp hclash
  obtain ⟨hp, q, hq, hmeets⟩ := Branch.sharedPath?_eq_some hshared
  obtain ⟨window, hfits, hfits'⟩ := hmeets.exists_fits
  have hb := hd b (List.mem_of_getElem? hpair.first) p hp
  have hother := hd other (List.mem_of_getElem? hpair.second) q hq
  have hlen : p.length = window.length := List.Forall₂.length_eq hfits
  have hwindow : window.length ≤ depth := hlen ▸ hb
  refine ⟨i, j, b, other, hpair, rfl, rfl, rfl, hp, fun names => ?_,
    ⟨window, hlen.symm, ?_, q, hq, ?_⟩, ?_⟩
  · simp only [Ambiguity.typeNames, List.isEmpty_iff]
  · exact (AcceptPath.accepts_iff_fits hb hwindow).mpr hfits
  · exact (AcceptPath.accepts_iff_fits hother hwindow).mpr hfits'
  · intro m n b' other' upcoming hpair' hmatches hmatches'
    refine hleast m n b' other' hpair' fun hnone => ?_
    exact (hd.shared_iff hpair').mp hnone ⟨upcoming, hmatches, hmatches'⟩

/-! ## Choices -/

/-- A branch that matches is taken, and if the exit does, none. -/
structure Decides (v : Vocabulary) (depth : Nat) (d : Decision) : Prop where
  branch {upcoming : List TypeId} {i : Nat} : (d.function v depth).predict upcoming = some i ↔
    ∃ b, d.branches[i]? = some b ∧ b.Matches v depth upcoming
  exit {upcoming : List TypeId} {b : Branch} : d.exit = some b → b.Matches v depth upcoming →
    (d.function v depth).predict upcoming = none

open Classical in
theorem predict_function (upcoming : List TypeId) :
    (d.function v depth).predict upcoming =
      d.branches.findIdx? fun b => decide (b.Matches v depth upcoming) := by
  unfold Predictor.predict function
  rw [List.findIdx?_map]
  congr 1
  funext b
  rw [Bool.eq_iff_iff, decide_eq_true_iff]
  simp [PredictorBranch.ofPaths, Branch.Matches]

/-- A prediction is that of the first branch that matches. If only one can, it is that one. -/
theorem Exclusive.decides (h : d.Exclusive v depth) : d.Decides v depth := by
  classical
  have hall : ∀ {i : Nat} {b : Branch}, d.branches[i]? = some b → d.all[i]? = some b := by
    intro i b hi
    rw [all, List.getElem?_append_left (List.getElem?_eq_some_iff.mp hi).1]
    exact hi
  have hpredicted : ∀ {upcoming i}, (d.function v depth).predict upcoming = some i →
      ∃ b, d.branches[i]? = some b ∧ b.Matches v depth upcoming := by
    intro upcoming i hi
    rw [predict_function] at hi
    obtain ⟨hlt, hmatches, -⟩ := List.findIdx?_eq_some_iff_getElem.mp hi
    exact ⟨_, List.getElem?_eq_getElem hlt, of_decide_eq_true hmatches⟩
  refine ⟨fun {upcoming i} => ⟨hpredicted, ?_⟩, fun {upcoming b} hexit hmatches => ?_⟩
  · rintro ⟨b, hi, hmatches⟩
    cases hpredict : (d.function v depth).predict upcoming with
    | none =>
      rw [predict_function, List.findIdx?_eq_none_iff] at hpredict
      exact absurd hmatches (of_decide_eq_false (hpredict b (List.mem_of_getElem? hi)))
    | some j =>
      obtain ⟨other, hj, hother⟩ := hpredicted hpredict
      rw [h upcoming j i other b (hall hj) (hall hi) hother hmatches]
  · have hlast : d.all[d.branches.length]? = some b := by simp [all, hexit]
    cases hpredict : (d.function v depth).predict upcoming with
    | none => rfl
    | some j =>
      obtain ⟨other, hj, hother⟩ := hpredicted hpredict
      have heq := h upcoming j _ other b (hall hj) hlast hother hmatches
      have hlt := (List.getElem?_eq_some_iff.mp hj).1
      omega

theorem Bounded.decides (hd : d.Bounded depth) {ds : List Decision} {table : PredictionTable}
    (htable : tableOf v depth ds = .ok table) (hmem : d ∈ ds) : d.Decides v depth :=
  (hd.ambiguity?_eq_none_iff.mp ((tableOf_spec htable).1 d hmem)).decides

/-- Nothing is reported exactly if, whatever tokens come, at most one of the branches and the exit
matches. So in a table that was accepted no other branch and no exit is passed over. Else two
branches are named that one window matches, and a path of the first; no two branches before them
are matched by anything. -/
theorem ambiguity_exact (hd : d.Bounded depth) :
    (d.ambiguity? v = none ↔ d.Exclusive v depth) ∧
    (∀ ds table, tableOf v depth ds = .ok table → d ∈ ds →
      (d.key, d.function v depth) ∈ table ∧ d.Decides v depth) ∧
    ∀ a, d.ambiguity? v = some a → ∃ i j b other, d.Reports v depth a i j b other := by
  refine ⟨hd.ambiguity?_eq_none_iff, fun ds table htable hmem => ⟨?_, hd.decides htable hmem⟩,
    fun a h => hd.exists_reports h⟩
  rw [(tableOf_spec htable).2]
  exact List.mem_map_of_mem hmem

/-- Another item after a comma, or the end. -/
def moreItems : Decision :=
  ⟨⟨0, ⟨.many, 1⟩⟩, [⟨.iterating, [[2, 0]]⟩], some ⟨.exiting, [[]]⟩⟩

/-- A comma or an item, or else a word, which is an item too. -/
def itemOrWord : Decision :=
  ⟨⟨0, ⟨.choice, 1⟩⟩, [⟨.alternative 1, [[2], [0]]⟩, ⟨.alternative 2, [[1]]⟩], none⟩

theorem moreItems_itemOrWord_exact :
    moreItems.Exclusive itemList.vocabulary 2 ∧ moreItems.Decides itemList.vocabulary 2 ∧
    ∃ i j b other, itemOrWord.Reports itemList.vocabulary 2
      ⟨itemOrWord.key, .alternative 1, .alternative 2, [0]⟩ i j b other := by
  have hbounded : moreItems.Bounded 2 ∧ itemOrWord.Bounded 2 := by
    simp [Bounded, Branch.Bounded, all, moreItems, itemOrWord]
  have hnone : moreItems.ambiguity? itemList.vocabulary = none := by decide +kernel
  have hsome : itemOrWord.ambiguity? itemList.vocabulary =
      some ⟨itemOrWord.key, .alternative 1, .alternative 2, [0]⟩ := by decide +kernel
  have htable : tableOf itemList.vocabulary 2 [moreItems] =
      .ok [(moreItems.key, moreItems.function itemList.vocabulary 2)] := by
    rw [tableOf, hnone]
    rfl
  obtain ⟨hexclusive, hdecides, -⟩ := ambiguity_exact (v := itemList.vocabulary) hbounded.1
  obtain ⟨-, -, hreports⟩ := ambiguity_exact (v := itemList.vocabulary) hbounded.2
  exact ⟨hexclusive.mp hnone, (hdecides _ _ htable (by simp)).2, hreports _ hsome⟩

end Decision

/-! ## The tables of grammars -/

namespace Grammar

variable {g : Grammar} {v : Vocabulary} {depth : Nat}

theorem surveyed_bounded {ds : List Decision} (h : g.surveyed depth = .ok ds) :
    ∀ d ∈ ds, d.Bounded depth := by
  have hcheck : (storeContract g).Ensures g.checkLeftRecursion fun _ => True :=
    (storeContract g).mono ensures_checkLeftRecursion fun _ _ => trivial
  have hempty : (storeContract g).Ensures g.emptyRepetitions fun _ => True :=
    (storeContract g).mono ensures_emptyRepetitions fun _ _ => trivial
  have hsurvey : (g.survey depth).Ensures g fun found =>
      ∀ ds, found = .ok ds → ∀ d ∈ ds, d.Bounded depth :=
    (storeContract g).survey hcheck hempty ensures_followSets_any fun follow _ =>
      ensures_decisions_bounded follow
  have hresult := hsurvey.result
  rw [surveyed_eq_ok.mp h] at hresult
  exact hresult ds rfl

/-- Each predictor of a table decides between ways no two of which anything matches. -/
theorem table_decides {table : PredictionTable} (h : g.table v depth = .ok table) :
    ∀ entry ∈ table, ∃ d : Decision, entry = (d.key, d.function v depth) ∧ d.Bounded depth ∧
      d.Exclusive v depth ∧ d.Decides v depth := by
  obtain ⟨ds, hds, htable⟩ := table_eq_ok h
  obtain ⟨hclear, rfl⟩ := tableOf_spec htable
  intro entry hentry
  obtain ⟨d, hd, rfl⟩ := List.mem_map.mp hentry
  have hbounded := surveyed_bounded hds d hd
  have hexclusive := hbounded.ambiguity?_eq_none_iff.mp (hclear d hd)
  exact ⟨d, rfl, hbounded, hexclusive, hexclusive.decides⟩

end Grammar

end StrongLL
