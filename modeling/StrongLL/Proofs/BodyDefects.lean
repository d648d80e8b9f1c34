import StrongLL.Proofs.BodyImage
import StrongLL.Proofs.InTurn

/-!
# StrongLL.Proofs.BodyDefects

The defects of a body, step by step:

* `Step.preorder`          — a step and the steps in it, in the order in which they are recorded.
* `Step.defect?`           — what is wrong with a step, given all steps recorded before it.
* `Numbering.note`         — what a step by itself does to the numbering.
* `Numbering.Tells`        — the numbering says of the steps so far what has to be known of them.
* `Step.ruleNode_defects`  — the defects of a rule are those of its steps in turn.
* `Step.Flawless`          — a body without defects, whatever the order of its steps.
-/

namespace StrongLL

namespace Step

mutual

/-- A step and the steps in it, each before those within it. -/
def preorder : Step → List Step
  | token t => [token t]
  | call i r => [call i r]
  | optional body => optional body :: preorderAll body
  | many body => many body :: preorderAll body
  | atLeastOne body => atLeastOne body :: preorderAll body
  | choice description alternatives =>
    choice description alternatives :: preorderBodies alternatives

def preorderAll : List Step → List Step
  | [] => []
  | step :: rest => step.preorder ++ preorderAll rest

def preorderBodies : List (List Step) → List Step
  | [] => []
  | body :: rest => preorderAll body ++ preorderBodies rest

end

/-- The rule that a step invokes, with the index of the invocation. -/
def callSite? : Step → Option (RuleId × Nat)
  | call i r => some (r, i)
  | _ => none

def isChoice : Step → Bool
  | choice _ _ => true
  | _ => false

/-- What is wrong with a step of a rule that follows the `earlier` ones. -/
def defect? (c : RuleScope) (earlier : List Step) : Step → Option Defect
  | token t => if t < c.vocabulary.size then none else some (.unknownType c.rule)
  | call i r =>
    if c.ruleCount ≤ r then some (.unknownRule c.rule)
    else if (earlier.filterMap callSite?).contains (r, i) then
      some (.duplicateOccurrence c.rule r i)
    else none
  | choice _ [] => some (.emptyAlternation c.rule ⟨.choice, earlier.countP isChoice + 1⟩)
  | _ => none

end Step

open Step

/-! ## The numbering along the steps -/

namespace Numbering

variable {c : RuleScope} {s : Numbering}

/-- What a step does to the numbering, the steps in it left aside. -/
def note (c : RuleScope) (s : Numbering) : Step → Numbering
  | .token t => (s.token c t).2
  | .call i r => (s.call c i r).2
  | .optional _ => (s.draw .optional).2
  | .many _ => (s.draw .many).2
  | .atLeastOne _ => (s.draw .atLeastOne).2
  | .choice _ alternatives =>
    let (i, s) := s.draw .choice
    if alternatives.isEmpty then s.report (.emptyAlternation c.rule ⟨.choice, i⟩) else s

/-- The numbering after the steps. A call site is known from its first use on, unless there is no
such rule. -/
structure Tells (c : RuleScope) (steps : List Step) (s : Numbering) : Prop where
  choices : s.decisions.count .choice = steps.countP isChoice
  calls (r : RuleId) (i : Nat) : (r, i) ∈ s.calls ↔
    r < c.ruleCount ∧ (r, i) ∈ steps.filterMap callSite?
  defects : s.defects = inTurn (defect? c) steps

theorem tells_empty (c : RuleScope) : empty.Tells c [] where
  choices := rfl
  calls := by simp [empty]
  defects := rfl

namespace Tells

variable {s' : Numbering} {steps : List Step}

/-- A step more, which has added to the numbering what concerns it. -/
theorem concat (h : s.Tells c steps) {step : Step}
    (hchoices : s'.decisions.count .choice =
      s.decisions.count .choice + if step.isChoice then 1 else 0)
    (hcalls : ∀ r i, (r, i) ∈ s'.calls ↔
      (r, i) ∈ s.calls ∨ r < c.ruleCount ∧ step.callSite? = some (r, i))
    (hdefects : s'.defects = s.defects ++ (step.defect? c steps).toList) :
    s'.Tells c (steps ++ [step]) where
  choices := by rw [hchoices, h.choices, List.countP_append, List.countP_singleton]
  calls r i := by
    rw [hcalls, h.calls, List.filterMap_append, List.mem_append, ← and_or_left]
    simp
  defects := by rw [hdefects, h.defects, inTurn_concat]

theorem note_token (h : s.Tells c steps) (t : TypeId) :
    (s.note c (.token t)).Tells c (steps ++ [.token t]) := by
  rw [note, token_eq]
  refine h.concat (by simp [isChoice]) (by simp [callSite?]) ?_
  by_cases ht : t < c.vocabulary.size <;> simp [defect?, ht]

theorem note_call (h : s.Tells c steps) (i : Nat) (r : RuleId) :
    (s.note c (.call i r)).Tells c (steps ++ [.call i r]) := by
  have hknown := h.calls r i
  unfold note Numbering.call
  by_cases hr : c.ruleCount ≤ r
  · simp only [hr, if_true]
    refine h.concat (by simp [isChoice, report]) (fun r' i' => ?_) (by simp [defect?, report, hr])
    simp only [report, callSite?, Option.some.injEq, Prod.mk.injEq, iff_self_or]
    rintro ⟨hlt, rfl, -⟩
    exact absurd hlt (Nat.not_lt.mpr hr)
  · have hlt : r < c.ruleCount := Nat.lt_of_not_le hr
    simp only [hr, if_false]
    by_cases hmem : (r, i) ∈ s.calls
    · simp only [hmem, if_true]
      have hused := (hknown.mp hmem).2
      refine h.concat (by simp [isChoice, report]) (fun r' i' => ?_)
        (by simp only [defect?, List.contains_iff_mem, report, hr, hused, if_true, if_false,
          Option.toList_some])
      simp only [report, callSite?, Option.some.injEq, Prod.mk.injEq, iff_self_or]
      rintro ⟨-, rfl, rfl⟩
      exact hmem
    · simp only [hmem, if_false]
      have hunused : (r, i) ∉ steps.filterMap callSite? :=
        fun hused => hmem (hknown.mpr ⟨hlt, hused⟩)
      refine h.concat (by simp [isChoice]) (fun r' i' => ?_)
        (by simp only [defect?, List.contains_iff_mem, hr, hunused, if_false, Option.toList_none,
          List.append_nil])
      simp only [callSite?, List.mem_cons, Option.some.injEq, Prod.mk.injEq]
      constructor
      · rintro (⟨rfl, rfl⟩ | hmem)
        · exact .inr ⟨hlt, rfl, rfl⟩
        · exact .inl hmem
      · rintro (hmem | ⟨-, rfl, rfl⟩)
        · exact .inr hmem
        · exact .inl ⟨rfl, rfl⟩

/-- A decision by itself is never wrong unless it is a choice of nothing. -/
theorem note_draw (h : s.Tells c steps) {d : Construct} {step : Step}
    (hd : step.isChoice = decide (d = .choice)) (hcall : step.callSite? = none)
    (hdefect : step.defect? c steps = none) :
    (s.draw d).2.Tells c (steps ++ [step]) := by
  refine h.concat ?_ (by simp [draw, hcall]) (by simp [draw, hdefect])
  have hcount := count_draw s d .choice
  unfold count at hcount
  rw [hcount, hd]
  by_cases hchoice : d = .choice
  · simp [hchoice]
  · have hne : ¬ Construct.choice = d := fun heq => hchoice heq.symm
    simp [hchoice, hne]

theorem note (h : s.Tells c steps) (step : Step) : (s.note c step).Tells c (steps ++ [step]) := by
  cases step with
  | token t => exact h.note_token t
  | call i r => exact h.note_call i r
  | optional body => exact h.note_draw rfl rfl rfl
  | many body => exact h.note_draw rfl rfl rfl
  | atLeastOne body => exact h.note_draw rfl rfl rfl
  | choice description alternatives =>
    cases alternatives with
    | cons body rest => exact h.note_draw rfl rfl rfl
    | nil =>
      refine h.concat ?_ (by simp [Numbering.note, draw, report, callSite?]) ?_
      · simp [Numbering.note, draw, report, isChoice]
      · simp [Numbering.note, draw, report, defect?, h.choices]

end Tells

end Numbering

namespace Step

mutual

/-- The steps take effect in the order in which each comes before those in it. -/
theorem node_numbering (c : RuleScope) :
    ∀ (step : Step) (s : Numbering), (step.node c s).2 = step.preorder.foldl (Numbering.note c) s
  | token t, s => rfl
  | call i r, s => rfl
  | optional body, s => by
    simp only [node, preorder, List.foldl_cons, nodes_numbering c body, Numbering.note]
  | many body, s => by
    simp only [node, preorder, List.foldl_cons, nodes_numbering c body, Numbering.note]
  | atLeastOne body, s => by
    simp only [node, preorder, List.foldl_cons, nodes_numbering c body, Numbering.note]
  | choice description [], s => rfl
  | choice description (body :: rest), s => by
    simp only [node, preorder, List.foldl_cons, bodyNodes_numbering c (body :: rest),
      Numbering.note]
    rfl

theorem nodes_numbering (c : RuleScope) :
    ∀ (body : List Step) (s : Numbering),
      (nodes c body s).2 = (preorderAll body).foldl (Numbering.note c) s
  | [], s => rfl
  | step :: rest, s => by
    simp only [nodes, preorderAll, List.foldl_append, node_numbering c step,
      nodes_numbering c rest]

theorem bodyNodes_numbering (c : RuleScope) :
    ∀ (bodies : List (List Step)) (s : Numbering),
      (bodyNodes c bodies s).2 = (preorderBodies bodies).foldl (Numbering.note c) s
  | [], s => rfl
  | body :: rest, s => by
    simp only [bodyNodes, preorderBodies, List.foldl_append, nodes_numbering c body,
      bodyNodes_numbering c rest]

end

theorem tells_foldl (c : RuleScope) (steps : List Step) :
    (steps.foldl (Numbering.note c) .empty).Tells c steps := by
  induction steps using List.reverseRecOn with
  | nil => exact Numbering.tells_empty c
  | append_singleton steps step ih =>
    rw [List.foldl_concat]
    exact ih.note step

/-- The defects of a rule are those of its steps, each with all that come before it in mind. -/
theorem ruleNode_defects (c : RuleScope) (body : List Step) :
    (ruleNode c body).2 = inTurn (defect? c) (preorderAll body) := by
  rw [← (tells_foldl c (preorderAll body)).defects, ← nodes_numbering]
  rfl

/-! ## Bodies without defects -/

/-- Whatever the steps refer to is there, no rule is invoked twice with one index, and every choice
has something to choose. -/
structure Flawless (c : RuleScope) (steps : List Step) : Prop where
  types : ∀ t, token t ∈ steps → t < c.vocabulary.size
  rules : ∀ i r, call i r ∈ steps → r < c.ruleCount
  callSites : (steps.filterMap callSite?).Nodup
  alternatives : ∀ description, choice description [] ∉ steps

variable {c : RuleScope} {steps : List Step} {step : Step}

theorem defect?_eq_none_iff : step.defect? c steps = none ↔
    (∀ t, step = token t → t < c.vocabulary.size) ∧ (∀ i r, step = call i r → r < c.ruleCount) ∧
      (∀ x, step.callSite? = some x → x ∉ steps.filterMap callSite?) ∧
      ∀ description, step ≠ choice description [] := by
  cases step with
  | token t => simp [defect?, callSite?]
  | call i r =>
    have hsite : ∀ x, (call i r).callSite? = some x ↔ (r, i) = x := fun x => Option.some_inj
    simp only [defect?, List.contains_iff_mem, hsite]
    by_cases hr : c.ruleCount ≤ r
    · simp [hr]
    · by_cases hused : (r, i) ∈ steps.filterMap callSite?
      · rw [if_neg hr, if_pos hused]
        exact iff_of_false (by simp) fun h => h.2.2.1 _ rfl hused
      · rw [if_neg hr, if_neg hused]
        refine iff_of_true rfl ⟨by simp, fun i' r' heq => ?_, fun x hx => hx ▸ hused, by simp⟩
        obtain ⟨-, rfl⟩ := call.inj heq
        exact Nat.lt_of_not_le hr
  | choice description alternatives => cases alternatives <;> simp [defect?, callSite?]
  | _ => simp [defect?, callSite?]

theorem nodup_callSites_concat_iff : ((steps ++ [step]).filterMap callSite?).Nodup ↔
    (steps.filterMap callSite?).Nodup ∧
      ∀ x, step.callSite? = some x → x ∉ steps.filterMap callSite? := by
  rw [List.filterMap_append, List.nodup_append]
  refine and_congr_right fun _ => ?_
  cases h : step.callSite? with
  | none => simp [h]
  | some x =>
    have hone : [step].filterMap callSite? = [x] := by simp [h]
    simp only [hone, List.nodup_singleton, true_and, List.mem_singleton, forall_eq,
      Option.some.injEq, forall_eq']
    exact ⟨fun hne hx => hne x hx rfl, fun hx y hy heq => hx (heq ▸ hy)⟩

theorem flawless_concat_iff :
    Flawless c (steps ++ [step]) ↔ Flawless c steps ∧ step.defect? c steps = none := by
  rw [defect?_eq_none_iff]
  have hmem : ∀ other, other ∈ steps ++ [step] ↔ other ∈ steps ∨ other = step := by simp
  constructor
  · intro h
    obtain ⟨hbefore, hsites⟩ := nodup_callSites_concat_iff.mp h.callSites
    refine ⟨⟨fun t ht => ?_, fun i r hr => ?_, hbefore, fun description hd => ?_⟩,
      fun t ht => ?_, fun i r hr => ?_, hsites, fun description hd => ?_⟩
    · exact h.types t ((hmem _).mpr (.inl ht))
    · exact h.rules i r ((hmem _).mpr (.inl hr))
    · exact h.alternatives description ((hmem _).mpr (.inl hd))
    · exact h.types t ((hmem _).mpr (.inr ht.symm))
    · exact h.rules i r ((hmem _).mpr (.inr hr.symm))
    · exact h.alternatives description ((hmem _).mpr (.inr hd.symm))
  · rintro ⟨h, htypes, hrules, hsites, halternatives⟩
    refine ⟨fun t ht => ?_, fun i r hr => ?_,
      nodup_callSites_concat_iff.mpr ⟨h.callSites, hsites⟩, fun description hd => ?_⟩
    · exact ((hmem _).mp ht).elim (h.types t) fun heq => htypes t heq.symm
    · exact ((hmem _).mp hr).elim (h.rules i r) fun heq => hrules i r heq.symm
    · exact ((hmem _).mp hd).elim (h.alternatives description) fun heq =>
        halternatives description heq.symm

theorem inTurn_defect?_eq_nil_iff : inTurn (defect? c) steps = [] ↔ Flawless c steps := by
  induction steps using List.reverseRecOn with
  | nil => exact ⟨fun _ => ⟨by simp, by simp, by simp, by simp⟩, fun _ => rfl⟩
  | append_singleton steps step ih => rw [inTurn_concat_eq_nil_iff, ih, flawless_concat_iff]

end Step

end StrongLL
