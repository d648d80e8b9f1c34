import Mathlib.Data.List.Induction
import Mathlib.Logic.Relation
import StrongLL.Vocabulary

/-!
# StrongLL.Proofs.Categories

Which types stand for which:

* `IsCategoryOf`              — a type names a category, and this was declared before it.
* `isA_append_iff`            — more declarations do not change what a declared type is.
* `Vocabulary.mem_ancestors`  — the ancestors of a type are what it is by its categories.
* `Vocabulary.accepts_append` — what it is accepted for does not change later on.
* `Vocabulary.accepts_exact`  — one type is accepted for another just if it is one, and this is an
  order.
-/

namespace StrongLL

/-- A type declares a category that was declared before it. Other categories do not count, not even
when they are declared later on. -/
def IsCategoryOf (specs : List TypeSpec) (t category : TypeId) : Prop :=
  ∃ spec, specs[t]? = some spec ∧ category ∈ spec.categories ∧ category < t

/-- The type, one of its categories, one of theirs, and so on. -/
def IsA (specs : List TypeSpec) : TypeId → TypeId → Prop :=
  Relation.ReflTransGen (IsCategoryOf specs)

section

variable {specs more : List TypeSpec} {t category a e : TypeId}

theorem IsA.le (h : IsA specs a e) : e ≤ a := by
  induction h with
  | refl => exact Nat.le_refl _
  | tail _ hstep ih =>
    obtain ⟨_, _, _, hlt⟩ := hstep
    exact Nat.le_trans (Nat.le_of_lt hlt) ih

theorem IsA.antisymm (h : IsA specs a e) (h' : IsA specs e a) : a = e :=
  Nat.le_antisymm h'.le h.le

theorem isCategoryOf_append_iff (ht : t < specs.length) :
    IsCategoryOf (specs ++ more) t category ↔ IsCategoryOf specs t category := by
  unfold IsCategoryOf
  rw [List.getElem?_append_left ht]

/-- All categories on the way are declared before the type itself. -/
theorem isA_append_iff (ha : a < specs.length) : IsA (specs ++ more) a e ↔ IsA specs a e := by
  constructor
  · intro h
    induction h with
    | refl => exact .refl
    | tail h hstep ih =>
      have hlt := Nat.lt_of_le_of_lt (IsA.le h) ha
      exact ih.tail ((isCategoryOf_append_iff hlt).mp hstep)
  · intro h
    induction h with
    | refl => exact .refl
    | tail h hstep ih =>
      have hlt := Nat.lt_of_le_of_lt (IsA.le h) ha
      exact ih.tail ((isCategoryOf_append_iff hlt).mpr hstep)

/-- What the last type is comes from its own categories. -/
theorem isA_concat_iff {spec : TypeSpec} : IsA (specs ++ [spec]) specs.length e ↔
    e = specs.length ∨ ∃ c ∈ spec.categories, c < specs.length ∧ IsA specs c e := by
  have hstep : ∀ c, IsCategoryOf (specs ++ [spec]) specs.length c ↔
      c ∈ spec.categories ∧ c < specs.length := by
    simp [IsCategoryOf]
  constructor
  · intro h
    obtain rfl | ⟨c, hc, h⟩ := Relation.ReflTransGen.cases_head h
    · exact .inl rfl
    · obtain ⟨hmem, hlt⟩ := (hstep c).mp hc
      exact .inr ⟨c, hmem, hlt, (isA_append_iff hlt).mp h⟩
  · rintro (rfl | ⟨c, hmem, hlt, h⟩)
    · exact .refl
    · exact .head ((hstep c).mpr ⟨hmem, hlt⟩) ((isA_append_iff hlt).mpr h)

end

namespace Vocabulary

variable {v : Vocabulary} {specs : List TypeSpec} {a e : TypeId}

@[simp] theorem ofSpecs_concat (specs : List TypeSpec) (spec : TypeSpec) :
    ofSpecs (specs ++ [spec]) = (ofSpecs specs).add spec := by
  simp [ofSpecs]

@[simp] theorem size_ofSpecs (specs : List TypeSpec) : (ofSpecs specs).size = specs.length := by
  induction specs using List.reverseRecOn with
  | nil => rfl
  | append_singleton specs spec ih => simp [ih]

theorem ancestors_of_size_le (ha : v.size ≤ a) : v.ancestors a = [] := by
  have hnone : v.get? a = none := List.getElem?_eq_none ha
  rw [ancestors, hnone]

theorem ancestors_add_of_lt (spec : TypeSpec) (ha : a < v.size) :
    (v.add spec).ancestors a = v.ancestors a := by
  unfold ancestors
  rw [get?_add_of_lt spec ha]

theorem mem_ancestors_add_size (spec : TypeSpec) :
    e ∈ (v.add spec).ancestors v.size ↔
      e = v.size ∨ ∃ c ∈ spec.categories, e ∈ v.ancestors c := by
  have hnew : (v.add spec).get? v.size = some
      { spec with ancestors := (v.size :: spec.categories.flatMap v.ancestors).eraseDups } := by
    simp [add, get?, size]
  unfold ancestors
  rw [hnew]
  simp [List.mem_eraseDups, ancestors]

/-- The ancestors that are set down when a type is declared are the right ones for good. -/
theorem mem_ancestors : e ∈ (ofSpecs specs).ancestors a ↔ a < specs.length ∧ IsA specs a e := by
  induction specs using List.reverseRecOn generalizing a with
  | nil => simp [ofSpecs, empty, ancestors, get?]
  | append_singleton specs spec ih =>
    rw [ofSpecs_concat, List.length_append, List.length_singleton]
    obtain hlt | rfl | hgt := Nat.lt_trichotomy a specs.length
    · rw [ancestors_add_of_lt spec (by simpa using hlt), ih, isA_append_iff hlt]
      simp [hlt, Nat.lt_succ_of_lt hlt]
    · have hnew := @mem_ancestors_add_size (ofSpecs specs) e spec
      rw [size_ofSpecs] at hnew
      rw [hnew, isA_concat_iff]
      simp [ih]
    · have hundeclared : ¬ a < specs.length + 1 := Nat.not_lt.mpr hgt
      rw [ancestors_of_size_le (by simpa using Nat.succ_le_of_lt hgt)]
      simp [hundeclared]

theorem accepts_iff : (ofSpecs specs).accepts e a = true ↔ a < specs.length ∧ IsA specs a e := by
  rw [accepts, decide_eq_true_iff, mem_ancestors]

/-- A declared type is one of its own kinds. -/
theorem accepts_self (specs : List TypeSpec) :
    ∀ t < (ofSpecs specs).size, (ofSpecs specs).accepts t t = true := by
  intro t ht
  exact accepts_iff.mpr ⟨by simpa using ht, .refl⟩

theorem accepts_trans {b : TypeId} (h : (ofSpecs specs).accepts b a = true)
    (h' : (ofSpecs specs).accepts e b = true) : (ofSpecs specs).accepts e a = true := by
  obtain ⟨ha, hab⟩ := accepts_iff.mp h
  obtain ⟨-, hbe⟩ := accepts_iff.mp h'
  exact accepts_iff.mpr ⟨ha, Relation.ReflTransGen.trans hab hbe⟩

/-- Declarations to come do not change what a declared type is accepted for. -/
theorem accepts_append (more : List TypeSpec) (ha : a < specs.length) :
    (ofSpecs (specs ++ more)).accepts e a = (ofSpecs specs).accepts e a := by
  have hmore : a < (specs ++ more).length := by
    rw [List.length_append]
    exact Nat.lt_add_right _ ha
  rw [Bool.eq_iff_iff, accepts_iff, accepts_iff, isA_append_iff ha]
  simp only [ha, hmore]

/-- A type is accepted in place of another one if it is declared and leads there by categories that
were declared before their members. The members of a type are what is accepted in its place. Later
declarations change none of this, and types are ordered by it. -/
theorem accepts_exact (specs : List TypeSpec) :
    (∀ a e, (ofSpecs specs).accepts e a = true ↔ a < specs.length ∧ IsA specs a e) ∧
    (∀ a e, a ∈ (ofSpecs specs).members e ↔ (ofSpecs specs).accepts e a = true) ∧
    (∀ more a e, a < specs.length →
      (ofSpecs (specs ++ more)).accepts e a = (ofSpecs specs).accepts e a) ∧
    (∀ a, a < specs.length → (ofSpecs specs).accepts a a = true) ∧
    (∀ a b c, (ofSpecs specs).accepts b a = true → (ofSpecs specs).accepts c b = true →
      (ofSpecs specs).accepts c a = true) ∧
    (∀ a b, (ofSpecs specs).accepts b a = true → (ofSpecs specs).accepts a b = true → a = b) := by
  refine ⟨fun a e => accepts_iff, ?_, fun more a e ha => accepts_append more ha, ?_,
    fun a b c => accepts_trans, ?_⟩
  · intro a e
    rw [mem_members, size_ofSpecs]
    exact and_iff_right_of_imp fun h => (accepts_iff.mp h).1
  · intro a ha
    exact accepts_self specs a (by rwa [size_ofSpecs])
  · intro a b h h'
    exact IsA.antisymm (accepts_iff.mp h).2 (accepts_iff.mp h').2

/-- The first type names the second one as its category too early. -/
example :
    let v := ofSpecs [{ name := "word", categories := [1] }, { name := "item" },
      { name := "number", categories := [1] }]
    v.members 1 = [1, 2] ∧ v.undeclaredCategory? 0 = some 1 := by
  decide

end Vocabulary

end StrongLL
