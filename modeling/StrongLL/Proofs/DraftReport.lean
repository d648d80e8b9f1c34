import StrongLL.Proofs.Acceptance
import StrongLL.Proofs.BodyDefects
import StrongLL.Proofs.ExactSets
import StrongLL.Proofs.RuleOrder

/-!
# StrongLL.Proofs.DraftReport

What is reported of a grammar, in terms of the calls that its author made:

* `Draft.Edit`, `Draft.ofEdits` — the calls, and the grammar under construction after them.
* `Draft.declaredNames`, `Draft.definitions` — the rules there are by then and the bodies given.
* `Draft.Tells`           — the grammar under construction holds these names and the first body of
  each rule. Every call keeps it up to date.
* `Draft.report`          — the defects that the calls amount to, in their order.
* `Draft.Flawless`        — there is nothing to report.
* `Draft.report_exact`    — a grammar is refused for its report, or else recorded as it was given.
-/

namespace StrongLL

namespace Draft

/-! ## Calls -/

/-- A call of the author of a grammar. -/
inductive Edit where
  | declare (name : String)
  | define (rule : RuleId) (body : List Step)
  /-- Both in one go. -/
  | rule (name : String) (body : List Step)

def edit (d : Draft) : Edit → Draft
  | .declare name => (d.declare name).2
  | .define rule body => d.define rule body
  | .rule name body => (d.rule name body).2

def ofEdits (v : Vocabulary) (config : Config) (es : List Edit) : Draft :=
  es.foldl edit (empty v config)

/-- The name for which a handle is asked. -/
def Edit.name? : Edit → Option String
  | declare name | rule name _ => some name
  | define _ _ => none

/-- The names that have a handle, each at the place of its handle. -/
def declaredNames (es : List Edit) : List String := (es.filterMap Edit.name?).eraseDups

/-- A body given for a handle. -/
structure Definition where
  rule : RuleId
  body : List Step
  /-- The handle was that of a rule by then. -/
  declared : Bool

def Edit.definition? (earlier : List Edit) : Edit → Option Definition
  | declare _ => none
  | define r body => some ⟨r, body, r < (declaredNames earlier).length⟩
  | rule name body => some ⟨(declaredNames earlier).idxOf name, body, true⟩

def definitions (es : List Edit) : List Definition := inTurn Edit.definition? es

/-- The first body given to a rule. -/
def bodyOf (xs : List Definition) (r : RuleId) : Option (List Step) :=
  (xs.find? fun x => x.declared && x.rule == r).map (·.body)

/-- What is wrong with giving a body after the `earlier` ones. -/
def Definition.misuse? (earlier : List Definition) (x : Definition) : Option Defect :=
  if x.declared then
    if (bodyOf earlier x.rule).isSome then some (.duplicateRule x.rule) else none
  else some (.undeclaredRule x.rule)

/-! ## Names and bodies after one more call -/

variable {names : List String} {xs : List Definition} {name : String} {r : RuleId}
  {body : List Step}

theorem declaredNames_concat (es : List Edit) (e : Edit) :
    declaredNames (es ++ [e]) =
      match e.name? with
      | some name =>
        if name ∈ declaredNames es then declaredNames es else declaredNames es ++ [name]
      | none => declaredNames es := by
  unfold declaredNames
  cases h : e.name? with
  | none => simp [h]
  | some name =>
    rw [List.filterMap_append, List.filterMap_cons_some h, List.filterMap_nil, eraseDups_concat]
    simp only [List.mem_eraseDups]

theorem definitions_concat (es : List Edit) (e : Edit) :
    definitions (es ++ [e]) = definitions es ++ (e.definition? es).toList :=
  inTurn_concat _ es e

/-- The handle of a name is that of a rule once the name is declared. -/
theorem idxOf_lt_length_declare (names : List String) (name : String) :
    names.idxOf name < (if name ∈ names then names else names ++ [name]).length := by
  by_cases h : name ∈ names
  · rw [if_pos h]
    exact List.idxOf_lt_length_of_mem h
  · rw [if_neg h, List.idxOf_eq_length h]
    simp

/-- A rule has no body as long as none was given for its handle. -/
theorem bodyOf_eq_none_iff :
    bodyOf xs r = none ↔ ∀ x ∈ xs, x.declared = true → x.rule ≠ r := by
  simp [bodyOf]

theorem exists_of_bodyOf (h : bodyOf xs r = some body) :
    ∃ x ∈ xs, x.rule = r ∧ x.body = body := by
  obtain ⟨x, hx, rfl⟩ := Option.map_eq_some_iff.mp h
  have hfound := List.find?_some hx
  simp only [Bool.and_eq_true, beq_iff_eq] at hfound
  exact ⟨x, List.mem_of_find?_eq_some hx, hfound.2, rfl⟩

theorem bodyOf_concat (xs : List Definition) (x : Definition) (r : RuleId) :
    bodyOf (xs ++ [x]) r =
      (bodyOf xs r).or (if x.declared ∧ x.rule = r then some x.body else none) := by
  unfold bodyOf
  rw [List.find?_append]
  cases xs.find? fun x => x.declared && x.rule == r with
  | some y => rfl
  | none => by_cases h : x.declared ∧ x.rule = r <;> simp [h]

/-! ## What a draft holds -/

/-- The rules of the grammar under construction have the names, and each has the first of the bodies
given to it. -/
structure Tells (names : List String) (xs : List Definition) (d : Draft) : Prop where
  rule (r : RuleId) : d.rules[r]? = names[r]?.map fun name => ⟨name, bodyOf xs r⟩
  misuses : d.misuses = inTurn Definition.misuse? xs
  declared : ∀ x ∈ xs, x.declared = true → x.rule < names.length

theorem tells_empty (v : Vocabulary) (config : Config) : (empty v config).Tells [] [] where
  rule r := by simp [empty]
  misuses := rfl
  declared := by simp

variable {d : Draft}

/-- A known name has its handle already. -/
theorem declare_of_mem (h : name ∈ d.rules.map (·.name)) :
    d.declare name = ((d.rules.map (·.name)).idxOf name, d) := by
  have hfind : d.rules.findIdx? (·.name = name) = some ((d.rules.map (·.name)).idxOf name) := by
    refine List.findIdx?_eq_some_iff_findIdx_eq.mpr ⟨?_, ?_⟩
    · simpa using List.idxOf_lt_length_of_mem h
    · rw [List.idxOf, List.findIdx_map]
      rfl
  unfold declare
  rw [hfind]

theorem declare_of_not_mem (h : name ∉ d.rules.map (·.name)) :
    d.declare name = (d.rules.length, { d with rules := d.rules ++ [⟨name, none⟩] }) := by
  have hfind : d.rules.findIdx? (·.name = name) = none := by
    refine List.findIdx?_eq_none_iff.mpr fun x hx => decide_eq_false fun hname => h ?_
    exact List.mem_map.mpr ⟨x, hx, hname⟩
  unfold declare
  rw [hfind]

namespace Tells

theorem map_name (h : d.Tells names xs) : d.rules.map (·.name) = names := by
  refine List.ext_getElem? fun r => ?_
  rw [List.getElem?_map, h.rule, Option.map_map]
  exact Option.map_id'

theorem length (h : d.Tells names xs) : d.rules.length = names.length := by
  rw [← h.map_name, List.length_map]

/-- A rule that is not declared yet has no body. -/
theorem bodyOf_eq_none (h : d.Tells names xs) (hr : names.length ≤ r) : bodyOf xs r = none :=
  bodyOf_eq_none_iff.mpr fun x hx hdeclared =>
    Nat.ne_of_lt (Nat.lt_of_lt_of_le (h.declared x hx hdeclared) hr)

theorem declare (h : d.Tells names xs) (name : String) :
    (d.declare name).1 = names.idxOf name ∧
      (d.declare name).2.Tells (if name ∈ names then names else names ++ [name]) xs := by
  by_cases hname : name ∈ names
  · rw [declare_of_mem (by rwa [h.map_name]), if_pos hname, h.map_name]
    exact ⟨rfl, h⟩
  · rw [declare_of_not_mem (by rwa [h.map_name]), if_neg hname]
    refine ⟨h.length.trans (List.idxOf_eq_length hname).symm, fun r => ?_, h.misuses, ?_⟩
    · obtain hr | hr := Nat.lt_or_ge r names.length
      · rw [List.getElem?_append_left hr, List.getElem?_append_left (by rwa [h.length]), h.rule]
      · rw [List.getElem?_append_right hr, List.getElem?_append_right (by rwa [h.length]), h.length,
          h.bodyOf_eq_none hr]
        cases r - names.length <;> rfl
    · intro x hx hdeclared
      rw [List.length_append]
      exact Nat.lt_add_right _ (h.declared x hx hdeclared)

/-- A body more, which counts if it is the first one of a rule. -/
theorem concat {d' : Draft} {x : Definition} (h : d.Tells names xs)
    (hrule : ∀ r : RuleId,
      d'.rules[r]? = names[r]?.map fun name => ⟨name, bodyOf (xs ++ [x]) r⟩)
    (hmisuses : d'.misuses = d.misuses ++ (x.misuse? xs).toList)
    (hlt : x.declared = true → x.rule < names.length) : d'.Tells names (xs ++ [x]) where
  rule := hrule
  misuses := by rw [hmisuses, h.misuses, inTurn_concat]
  declared y hy := by
    obtain hy | hy := List.mem_append.mp hy
    · exact h.declared y hy
    · rwa [List.mem_singleton.mp hy]

theorem define (h : d.Tells names xs) (r : RuleId) (body : List Step) :
    (d.define r body).Tells names (xs ++ [⟨r, body, r < names.length⟩]) := by
  have hr := h.rule r
  unfold Draft.define
  cases hname : names[r]? with
  | none =>
    have hge : ¬ r < names.length := Nat.not_lt.mpr (List.getElem?_eq_none_iff.mp hname)
    rw [hname, Option.map_none] at hr
    rw [hr]
    refine h.concat (fun s => ?_) (by simp [Definition.misuse?, hge]) (by simp)
    rw [h.rule, bodyOf_concat]
    simp [hge]
  | some name =>
    have hlt : r < names.length := (List.getElem?_eq_some_iff.mp hname).1
    rw [hname, Option.map_some] at hr
    rw [hr]
    cases hbody : bodyOf xs r with
    | some first =>
      refine h.concat (fun s => ?_) (by simp [Definition.misuse?, hlt, hbody]) (by simp)
      rw [h.rule, bodyOf_concat]
      by_cases hs : r = s
      · simp [← hs, hbody]
      · simp [hs]
    | none =>
      refine h.concat (fun s => ?_) (by simp [Definition.misuse?, hlt, hbody]) (by simp)
      rw [bodyOf_concat, List.getElem?_set]
      by_cases hs : r = s
      · rw [← hs, hname]
        simp [hbody, h.length, hlt]
      · simp [hs, h.rule]

theorem edit {es : List Edit} (h : d.Tells (declaredNames es) (definitions es)) (e : Edit) :
    (d.edit e).Tells (declaredNames (es ++ [e])) (definitions (es ++ [e])) := by
  rw [declaredNames_concat, definitions_concat]
  cases e with
  | declare name =>
    rw [Edit.definition?, Option.toList_none, List.append_nil]
    exact (h.declare name).2
  | define r body => exact h.define r body
  | rule name body =>
    obtain ⟨hid, hdeclared⟩ := h.declare name
    have hdefined := hdeclared.define ((declaredNames es).idxOf name) body
    rw [decide_eq_true (idxOf_lt_length_declare _ name), ← hid] at hdefined
    rw [Edit.definition?, ← hid]
    exact hdefined

end Tells

theorem tells_ofEdits (v : Vocabulary) (config : Config) (es : List Edit) :
    (ofEdits v config es).Tells (declaredNames es) (definitions es) := by
  induction es using List.reverseRecOn with
  | nil => exact tells_empty v config
  | append_singleton es e ih =>
    rw [ofEdits, List.foldl_concat]
    exact ih.edit e

/-! ## What no call changes -/

theorem declare_keeps (d : Draft) (name : String) :
    (d.declare name).2.vocabulary = d.vocabulary ∧ (d.declare name).2.config = d.config := by
  unfold declare
  split <;> exact ⟨rfl, rfl⟩

theorem define_keeps (d : Draft) (r : RuleId) (body : List Step) :
    (d.define r body).vocabulary = d.vocabulary ∧ (d.define r body).config = d.config := by
  unfold define
  split
  · exact ⟨rfl, rfl⟩
  · split <;> exact ⟨rfl, rfl⟩

theorem edit_keeps (d : Draft) (e : Edit) :
    (d.edit e).vocabulary = d.vocabulary ∧ (d.edit e).config = d.config := by
  cases e with
  | declare name => exact d.declare_keeps name
  | define r body => exact d.define_keeps r body
  | rule name body =>
    obtain ⟨hv, hconfig⟩ := d.declare_keeps name
    obtain ⟨hv', hconfig'⟩ := (d.declare name).2.define_keeps (d.declare name).1 body
    exact ⟨hv'.trans hv, hconfig'.trans hconfig⟩

theorem ofEdits_keeps (v : Vocabulary) (config : Config) (es : List Edit) :
    (ofEdits v config es).vocabulary = v ∧ (ofEdits v config es).config = config := by
  induction es using List.reverseRecOn with
  | nil => exact ⟨rfl, rfl⟩
  | append_singleton es e ih =>
    rw [ofEdits, List.foldl_concat]
    obtain ⟨hv, hconfig⟩ := edit_keeps (es.foldl Draft.edit (empty v config)) e
    exact ⟨hv.trans ih.1, hconfig.trans ih.2⟩

/-! ## The report -/

/-- A defect for every type with a category that is not declared before it. -/
def untimelyTypes (v : Vocabulary) : List Defect :=
  v.types.zipIdx.filterMap fun (t, id) =>
    if t.categories.all (· < id) then none else some (.undeclaredCategory id)

/-- What is wrong with a rule that has this body, if it has one. -/
def bodyDefects (c : RuleScope) : Option (List Step) → List Defect
  | none => [.undefinedRule c.rule]
  | some body => inTurn (Step.defect? c) (Step.preorderAll body)

/-- All that is wrong with a grammar: with the types in the order of their declaration, with the
calls in their order, with the configuration, and with the rules in the order of their handles. -/
def report (v : Vocabulary) (config : Config) (es : List Edit) : List Defect :=
  untimelyTypes v ++ inTurn Definition.misuse? (definitions es)
    ++ (if config.lookahead = 0 then [.invalidLookahead] else [])
    ++ (List.range (declaredNames es).length).flatMap fun r =>
      bodyDefects ⟨v, (declaredNames es).length, r⟩ (bodyOf (definitions es) r)

/-- The rules as their names and first bodies have them. -/
def recorded (v : Vocabulary) (es : List Edit) : Grammar :=
  ⟨(declaredNames es).zipIdx.map fun (name, r) =>
    ⟨name, (Step.ruleNode ⟨v, (declaredNames es).length, r⟩
      ((bodyOf (definitions es) r).getD [])).1⟩⟩

variable {v : Vocabulary} {config : Config} {es : List Edit}

theorem range_length_eq {α : Type} (ys : List α) : List.range ys.length = ys.zipIdx.map (·.2) := by
  rw [List.zipIdx_map_snd, List.range_eq_range']

theorem isSome_undeclaredCategory? {id : TypeId} {t : TokenType} (ht : v.get? id = some t) :
    (v.undeclaredCategory? id).isSome = !t.categories.all (· < id) := by
  rw [Bool.eq_iff_iff]
  simp [Vocabulary.undeclaredCategory?, ht]

theorem categoryDefects_eq (v : Vocabulary) : categoryDefects v = untimelyTypes v := by
  rw [categoryDefects, Vocabulary.size, range_length_eq, List.filter_map, List.map_map,
    ← List.filterMap_eq_map, List.filterMap_filter]
  refine List.filterMap_congr ?_
  rintro ⟨t, id⟩ hmem
  have ht : v.get? id = some t := List.mem_zipIdx_iff_getElem?.mp hmem
  simp only [Function.comp_apply, isSome_undeclaredCategory? ht]
  cases t.categories.all (· < id) <;> rfl

theorem finishRule_eq (d : Draft) (r : RuleId) (name : String) (body : Option (List Step)) :
    d.finishRule r ⟨name, body⟩ =
      (⟨name, (Step.ruleNode ⟨d.vocabulary, d.rules.length, r⟩ (body.getD [])).1⟩,
        bodyDefects ⟨d.vocabulary, d.rules.length, r⟩ body) := by
  cases body with
  | none => rfl
  | some body =>
    rw [bodyDefects, ← Step.ruleNode_defects]
    rfl

theorem Tells.finishedRules (h : d.Tells names xs) :
    d.finishedRules = names.zipIdx.map fun (name, r) =>
      (⟨name, (Step.ruleNode ⟨d.vocabulary, names.length, r⟩ ((bodyOf xs r).getD [])).1⟩,
        bodyDefects ⟨d.vocabulary, names.length, r⟩ (bodyOf xs r)) := by
  refine List.ext_getElem? fun r => ?_
  rw [finishedRules_getElem?, h.rule, List.getElem?_map, List.getElem?_zipIdx, Option.map_map,
    Option.map_map]
  congr 1
  funext name
  simp only [Function.comp_apply, finishRule_eq, h.length, Nat.zero_add]

theorem defects_ofEdits (v : Vocabulary) (config : Config) (es : List Edit) :
    (ofEdits v config es).defects = report v config es := by
  obtain ⟨hv, hconfig⟩ := ofEdits_keeps v config es
  have h := tells_ofEdits v config es
  rw [defects, h.finishedRules, h.misuses, hv, hconfig, categoryDefects_eq, report,
    range_length_eq, List.flatMap_map, List.flatMap_map]

theorem grammar_ofEdits (v : Vocabulary) (config : Config) (es : List Edit) :
    (ofEdits v config es).grammar =
      if report v config es = [] then .ok (recorded v es) else .error (report v config es) := by
  have hrules := (tells_ofEdits v config es).finishedRules
  rw [(ofEdits_keeps v config es).1] at hrules
  rw [grammar, defects_ofEdits, hrules, List.map_map]
  simp only [List.isEmpty_iff]
  rfl

/-! ## Nothing to report -/

/-- No type stands before one of its categories, every body is given for a rule that has none yet,
no rule is left without a body, some lookahead is asked for, and all bodies are flawless. -/
structure Flawless (v : Vocabulary) (config : Config) (es : List Edit) : Prop where
  categories : ∀ id t, v.get? id = some t → ∀ category ∈ t.categories, category < id
  handles : ∀ x ∈ definitions es, x.declared = true
  once : ((definitions es).map (·.rule)).Nodup
  lookahead : config.lookahead ≠ 0
  complete : ∀ r < (declaredNames es).length, ∃ x ∈ definitions es, x.rule = r
  bodies : ∀ x ∈ definitions es,
    Step.Flawless ⟨v, (declaredNames es).length, x.rule⟩ (Step.preorderAll x.body)

theorem untimelyTypes_eq_nil_iff : untimelyTypes v = [] ↔
    ∀ id t, v.get? id = some t → ∀ category ∈ t.categories, category < id := by
  unfold untimelyTypes
  rw [List.filterMap_eq_nil_iff]
  constructor
  · intro h id t ht
    simpa using h (t, id) (List.mem_zipIdx_iff_getElem?.mpr ht)
  · rintro h ⟨t, id⟩ hmem
    simpa using h id t (List.mem_zipIdx_iff_getElem?.mp hmem)

/-- Without misuses every body given is the body of its rule. -/
theorem bodyOf_eq_some (h : ∀ x ∈ xs, x.declared = true) (honce : (xs.map (·.rule)).Nodup)
    {x : Definition} (hx : x ∈ xs) : bodyOf xs x.rule = some x.body := by
  cases hbody : bodyOf xs x.rule with
  | none => exact absurd rfl (bodyOf_eq_none_iff.mp hbody x hx (h x hx))
  | some body =>
    obtain ⟨y, hy, hrule, rfl⟩ := exists_of_bodyOf hbody
    rw [List.inj_on_of_nodup_map honce hy hx hrule]

theorem misuse?_eq_none_iff {x : Definition} (h : ∀ y ∈ xs, y.declared = true) :
    x.misuse? xs = none ↔ x.declared = true ∧ x.rule ∉ xs.map (·.rule) := by
  have hnone : bodyOf xs x.rule = none ↔ x.rule ∉ xs.map (·.rule) := by
    rw [bodyOf_eq_none_iff, List.mem_map]
    exact ⟨fun hne ⟨y, hy, heq⟩ => hne y hy (h y hy) heq, fun hnew y hy _ heq => hnew ⟨y, hy, heq⟩⟩
  rw [← hnone, Definition.misuse?]
  cases x.declared <;> cases bodyOf xs x.rule <;> simp

theorem misuses_eq_nil_iff : inTurn Definition.misuse? xs = [] ↔
    (∀ x ∈ xs, x.declared = true) ∧ (xs.map (·.rule)).Nodup := by
  induction xs using List.reverseRecOn with
  | nil => simp
  | append_singleton xs x ih =>
    rw [inTurn_concat_eq_nil_iff, ih, nodup_map_concat_iff]
    constructor
    · rintro ⟨⟨hxs, honce⟩, hx⟩
      obtain ⟨hx, hnew⟩ := (misuse?_eq_none_iff hxs).mp hx
      exact ⟨by simpa [or_imp, forall_and] using ⟨hxs, hx⟩, honce, hnew⟩
    · rintro ⟨hall, honce, hnew⟩
      have hxs : ∀ y ∈ xs, y.declared = true := fun y hy => hall y (List.mem_append_left _ hy)
      exact ⟨⟨hxs, honce⟩, (misuse?_eq_none_iff hxs).mpr ⟨hall x (by simp), hnew⟩⟩

theorem bodyDefects_eq_nil_iff {c : RuleScope} {given : Option (List Step)} :
    bodyDefects c given = [] ↔
      ∃ body, given = some body ∧ Step.Flawless c (Step.preorderAll body) := by
  cases given with
  | none => simp [bodyDefects]
  | some body => simp [bodyDefects, Step.inTurn_defect?_eq_nil_iff]

theorem report_eq_nil_iff : report v config es = [] ↔ Flawless v config es := by
  have hlook : (if config.lookahead = 0 then [Defect.invalidLookahead] else []) = [] ↔
      config.lookahead ≠ 0 := by split <;> simp [*]
  simp only [report, List.append_eq_nil_iff, List.flatMap_eq_nil_iff, List.mem_range,
    untimelyTypes_eq_nil_iff, misuses_eq_nil_iff, bodyDefects_eq_nil_iff, hlook]
  constructor
  · rintro ⟨⟨⟨hcategories, hhandles, honce⟩, hlookahead⟩, hrules⟩
    refine ⟨hcategories, hhandles, honce, hlookahead, fun r hr => ?_, fun x hx => ?_⟩
    · obtain ⟨body, hbody, -⟩ := hrules r hr
      obtain ⟨x, hx, hrule, -⟩ := exists_of_bodyOf hbody
      exact ⟨x, hx, hrule⟩
    · have hlt := (tells_ofEdits v config es).declared x hx (hhandles x hx)
      obtain ⟨body, hbody, hflawless⟩ := hrules x.rule hlt
      obtain rfl : x.body = body :=
        Option.some.inj ((bodyOf_eq_some hhandles honce hx).symm.trans hbody)
      exact hflawless
  · intro h
    refine ⟨⟨⟨h.categories, h.handles, h.once⟩, h.lookahead⟩, fun r hr => ?_⟩
    obtain ⟨x, hx, rfl⟩ := h.complete r hr
    exact ⟨x.body, bodyOf_eq_some h.handles h.once hx, h.bodies x hx⟩

/-! ## Calls that follow -/

theorem declaredNames_grow (es more : List Edit) :
    declaredNames es <+: declaredNames (es ++ more) := by
  induction more using List.reverseRecOn with
  | nil => simp
  | append_singleton more e ih =>
    rw [← List.append_assoc, declaredNames_concat]
    refine ih.trans ?_
    split
    · split
      · exact List.prefix_refl _
      · exact List.prefix_append _ _
    · exact List.prefix_refl _

theorem definitions_grow (es more : List Edit) :
    definitions es <+: definitions (es ++ more) := by
  induction more using List.reverseRecOn with
  | nil => simp
  | append_singleton more e ih =>
    rw [← List.append_assoc, definitions_concat]
    exact ih.trans (List.prefix_append _ _)

theorem bodyOf_grow {ys : List Definition} (h : xs <+: ys) (hbody : bodyOf xs r = some body) :
    bodyOf ys r = some body := by
  obtain ⟨zs, rfl⟩ := h
  obtain ⟨x, hx, rfl⟩ := Option.map_eq_some_iff.mp hbody
  rw [bodyOf, List.find?_append, hx]
  rfl

/-- A rule stays what it is, and so does its body once it has one. -/
theorem rule_kept {more : List Edit} {rule : RuleDraft}
    (h : (ofEdits v config es).rules[r]? = some rule) :
    ∃ rule', (ofEdits v config (es ++ more)).rules[r]? = some rule' ∧ rule'.name = rule.name ∧
      ∀ body, rule.body = some body → rule'.body = some body := by
  rw [(tells_ofEdits v config es).rule] at h
  obtain ⟨name, hname, rfl⟩ := Option.map_eq_some_iff.mp h
  obtain ⟨others, hothers⟩ := declaredNames_grow es more
  have hname' : (declaredNames (es ++ more))[r]? = some name := by
    rw [← hothers, List.getElem?_append_left (List.getElem?_eq_some_iff.mp hname).1, hname]
  rw [(tells_ofEdits v config (es ++ more)).rule, hname']
  exact ⟨_, rfl, rfl, fun body => bodyOf_grow (definitions_grow es more)⟩

/-- Once a handle has been asked for, asking again gives the same one. -/
theorem declare_again {e : Edit} (he : e.name? = some name) (more : List Edit) :
    (ofEdits v config (es ++ e :: more)).declare name =
      (((ofEdits v config es).declare name).1, ofEdits v config (es ++ e :: more)) := by
  have h := tells_ofEdits v config (es ++ e :: more)
  have hmem : name ∈ declaredNames (es ++ [e]) := by simp [declaredNames, he]
  obtain ⟨others, hothers⟩ := declaredNames_grow (es ++ [e]) more
  rw [List.append_assoc, List.singleton_append] at hothers
  rw [declare_of_mem (by rw [h.map_name, ← hothers]; exact List.mem_append_left _ hmem),
    ((tells_ofEdits v config es).declare name).1, h.map_name, ← hothers,
    List.idxOf_append_of_mem hmem, declaredNames_concat, he]
  dsimp only
  split
  · rfl
  · rename_i hnew
    rw [List.idxOf_append, if_neg hnew, List.idxOf_eq_length hnew]
    simp

/-- A grammar is refused before its paths are computed just if something is wrong with it, and the
report lists all that is wrong: the types that stand before one of their categories, the bodies
given for unknown handles or for rules that had one, the missing lookahead, and then for each rule
that it has no body or what is wrong with its steps. Otherwise the rules are recorded under their
names with the first bodies given to them. Names are different, a known name keeps its handle and
asking for it changes nothing, and later calls change neither names nor bodies that are there. -/
theorem report_exact (v : Vocabulary) (config : Config) (es : List Edit) :
    (ofEdits v config es).grammar =
      (if report v config es = [] then .ok (recorded v es) else .error (report v config es)) ∧
    (ofEdits v config es).parser =
      (if report v config es = [] then
        ((recorded v es).table v config.lookahead).map (⟨v, recorded v es, ·, config⟩)
      else .error (.malformed (report v config es))) ∧
    (report v config es = [] ↔ Flawless v config es) ∧
    ((ofEdits v config es).rules.map (·.name)).Nodup ∧
    (∀ e name more, e.name? = some name →
      (ofEdits v config (es ++ e :: more)).declare name =
        (((ofEdits v config es).declare name).1, ofEdits v config (es ++ e :: more))) ∧
    ∀ more (r : RuleId) rule, (ofEdits v config es).rules[r]? = some rule →
      ∃ rule', (ofEdits v config (es ++ more)).rules[r]? = some rule' ∧ rule'.name = rule.name ∧
        ∀ body, rule.body = some body → rule'.body = some body := by
  have hgrammar := grammar_ofEdits v config es
  obtain ⟨hv, hconfig⟩ := ofEdits_keeps v config es
  refine ⟨hgrammar, ?_, report_eq_nil_iff, ?_, fun _ _ more he => declare_again he more,
    fun _ _ _ h => rule_kept h⟩
  · by_cases h : report v config es = []
    · rw [if_pos h] at hgrammar ⊢
      rw [parser_of_grammar hgrammar, hv, hconfig]
    · rw [if_neg h] at hgrammar ⊢
      rw [parser, hgrammar]
      rfl
  · rw [(tells_ofEdits v config es).map_name]
    exact nodup_eraseDups _

/-- A body for the handle of no rule, a second body, an invocation with an index that is taken, and
a rule without a body. -/
example :
    report .empty {} [.rule "list" [.call 1 1, .many [.call 1 1]], .define 1 [], .declare "item",
      .rule "list" []] =
    [.undeclaredRule 1, .duplicateRule 0, .duplicateOccurrence 0 1 1, .undefinedRule 1] := rfl

end Draft

end StrongLL
