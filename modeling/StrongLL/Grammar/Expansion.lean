import StrongLL.Grammar.Basic
import StrongLL.Prediction.PathSet

/-!
# StrongLL.Grammar.Expansion

Leftmost expansions of a grammar, apart from any computation of sets:

* `Expands g pending p left` — expanding `pending` from the left can emit the types `p` and leave
  `left` to be expanded.
* `Grammar.Opens g k pending p` — `p` is the first `k` types of an expansion, or all of a complete
  one that emits fewer.
* `Grammar.Erasable g pending` — a complete expansion emits nothing.

An invoked rule gives way to its body, and a repetition to its iterations one at a time.
-/

namespace StrongLL

inductive Expands (g : Grammar) : List Pending → Path → List Pending → Prop where
  | refl {pending : List Pending} : Expands g pending [] pending
  | terminal {t : TypeId} {i : Nat} {rest left : List Pending} {p : Path} :
      Expands g rest p left → Expands g (.node (.terminal t i) :: rest) (t :: p) left
  | sequence {parts : List Node} {rest left : List Pending} {p : Path} :
      Expands g (parts.map .node ++ rest) p left →
      Expands g (.node (.sequence parts) :: rest) p left
  | skip {body : Node} {i : Nat} {rest left : List Pending} {p : Path} :
      Expands g rest p left → Expands g (.node (.optional body i) :: rest) p left
  | enter {body : Node} {i : Nat} {rest left : List Pending} {p : Path} :
      Expands g (.node body :: rest) p left → Expands g (.node (.optional body i) :: rest) p left
  | many {body : Node} {i : Nat} {rest left : List Pending} {p : Path} :
      Expands g (.loop body :: rest) p left →
      Expands g (.node (.repetition body i false) :: rest) p left
  | atLeastOne {body : Node} {i : Nat} {rest left : List Pending} {p : Path} :
      Expands g (.node body :: .loop body :: rest) p left →
      Expands g (.node (.repetition body i true) :: rest) p left
  | stop {body : Node} {rest left : List Pending} {p : Path} :
      Expands g rest p left → Expands g (.loop body :: rest) p left
  | again {body : Node} {rest left : List Pending} {p : Path} :
      Expands g (.node body :: .loop body :: rest) p left → Expands g (.loop body :: rest) p left
  | alternative {alternatives : List Node} {n : Node} {i : Nat} {description : String}
      {rest left : List Pending} {p : Path} :
      n ∈ alternatives → Expands g (.node n :: rest) p left →
      Expands g (.node (.alternation alternatives i description) :: rest) p left
  | ruleRef {r : RuleId} {rule : Rule} {i : Nat} {rest left : List Pending} {p : Path} :
      g.get? r = some rule → Expands g (.node rule.body :: rest) p left →
      Expands g (.node (.ruleRef r i) :: rest) p left

namespace Expands

variable {g : Grammar}

theorem trans {xs ys zs : List Pending} {p q : Path} (hx : Expands g xs p ys)
    (hy : Expands g ys q zs) : Expands g xs (p ++ q) zs := by
  induction hx with
  | refl => exact hy
  | terminal _ ih => exact .terminal (ih hy)
  | sequence _ ih => exact .sequence (ih hy)
  | skip _ ih => exact .skip (ih hy)
  | enter _ ih => exact .enter (ih hy)
  | many _ ih => exact .many (ih hy)
  | atLeastOne _ ih => exact .atLeastOne (ih hy)
  | stop _ ih => exact .stop (ih hy)
  | again _ ih => exact .again (ih hy)
  | alternative hn _ ih => exact .alternative hn (ih hy)
  | ruleRef hr _ ih => exact .ruleRef hr (ih hy)

/-- What comes after takes no part in an expansion. -/
theorem append_right {xs ys : List Pending} {p : Path} (h : Expands g xs p ys) (zs : List Pending) :
    Expands g (xs ++ zs) p (ys ++ zs) := by
  induction h with
  | refl => exact .refl
  | terminal _ ih => exact .terminal ih
  | sequence _ ih => exact .sequence (by simpa using ih)
  | skip _ ih => exact .skip ih
  | enter _ ih => exact .enter ih
  | many _ ih => exact .many ih
  | atLeastOne _ ih => exact .atLeastOne ih
  | stop _ ih => exact .stop ih
  | again _ ih => exact .again ih
  | alternative hn _ ih => exact .alternative hn ih
  | ruleRef hr _ ih => exact .ruleRef hr ih

/-- An expansion of two lists of parts ends within the first, or completes it. -/
theorem exists_of_append {xs ys left : List Pending} {p : Path} (h : Expands g (xs ++ ys) p left) :
    (∃ zs, left = zs ++ ys ∧ Expands g xs p zs) ∨
      ∃ a b, p = a ++ b ∧ Expands g xs a [] ∧ Expands g ys b left := by
  generalize hz : xs ++ ys = zs at h
  induction h generalizing xs with
  | refl => exact .inl ⟨xs, hz.symm, .refl⟩
  | terminal h ih =>
    obtain ⟨rfl, rfl⟩ | ⟨xs, rfl, rfl⟩ := List.append_eq_cons_iff.mp hz
    · exact .inr ⟨[], _, rfl, .refl, .terminal h⟩
    · obtain ⟨zs, rfl, hl⟩ | ⟨a, b, rfl, ha, hb⟩ := ih rfl
      · exact .inl ⟨zs, rfl, .terminal hl⟩
      · exact .inr ⟨_ :: a, b, rfl, .terminal ha, hb⟩
  | @sequence parts rest left p h ih =>
    obtain ⟨rfl, rfl⟩ | ⟨xs, rfl, rfl⟩ := List.append_eq_cons_iff.mp hz
    · exact .inr ⟨[], _, rfl, .refl, .sequence h⟩
    · obtain ⟨zs, rfl, hl⟩ | ⟨a, b, rfl, ha, hb⟩ := @ih (parts.map .node ++ xs) (by simp)
      · exact .inl ⟨zs, rfl, .sequence hl⟩
      · exact .inr ⟨a, b, rfl, .sequence ha, hb⟩
  | skip h ih =>
    obtain ⟨rfl, rfl⟩ | ⟨xs, rfl, rfl⟩ := List.append_eq_cons_iff.mp hz
    · exact .inr ⟨[], _, rfl, .refl, .skip h⟩
    · obtain ⟨zs, rfl, hl⟩ | ⟨a, b, rfl, ha, hb⟩ := ih rfl
      · exact .inl ⟨zs, rfl, .skip hl⟩
      · exact .inr ⟨a, b, rfl, .skip ha, hb⟩
  | enter h ih =>
    obtain ⟨rfl, rfl⟩ | ⟨xs, rfl, rfl⟩ := List.append_eq_cons_iff.mp hz
    · exact .inr ⟨[], _, rfl, .refl, .enter h⟩
    · obtain ⟨zs, rfl, hl⟩ | ⟨a, b, rfl, ha, hb⟩ := @ih (_ :: xs) rfl
      · exact .inl ⟨zs, rfl, .enter hl⟩
      · exact .inr ⟨a, b, rfl, .enter ha, hb⟩
  | many h ih =>
    obtain ⟨rfl, rfl⟩ | ⟨xs, rfl, rfl⟩ := List.append_eq_cons_iff.mp hz
    · exact .inr ⟨[], _, rfl, .refl, .many h⟩
    · obtain ⟨zs, rfl, hl⟩ | ⟨a, b, rfl, ha, hb⟩ := @ih (_ :: xs) rfl
      · exact .inl ⟨zs, rfl, .many hl⟩
      · exact .inr ⟨a, b, rfl, .many ha, hb⟩
  | atLeastOne h ih =>
    obtain ⟨rfl, rfl⟩ | ⟨xs, rfl, rfl⟩ := List.append_eq_cons_iff.mp hz
    · exact .inr ⟨[], _, rfl, .refl, .atLeastOne h⟩
    · obtain ⟨zs, rfl, hl⟩ | ⟨a, b, rfl, ha, hb⟩ := @ih (_ :: _ :: xs) rfl
      · exact .inl ⟨zs, rfl, .atLeastOne hl⟩
      · exact .inr ⟨a, b, rfl, .atLeastOne ha, hb⟩
  | stop h ih =>
    obtain ⟨rfl, rfl⟩ | ⟨xs, rfl, rfl⟩ := List.append_eq_cons_iff.mp hz
    · exact .inr ⟨[], _, rfl, .refl, .stop h⟩
    · obtain ⟨zs, rfl, hl⟩ | ⟨a, b, rfl, ha, hb⟩ := ih rfl
      · exact .inl ⟨zs, rfl, .stop hl⟩
      · exact .inr ⟨a, b, rfl, .stop ha, hb⟩
  | again h ih =>
    obtain ⟨rfl, rfl⟩ | ⟨xs, rfl, rfl⟩ := List.append_eq_cons_iff.mp hz
    · exact .inr ⟨[], _, rfl, .refl, .again h⟩
    · obtain ⟨zs, rfl, hl⟩ | ⟨a, b, rfl, ha, hb⟩ := @ih (_ :: _ :: xs) rfl
      · exact .inl ⟨zs, rfl, .again hl⟩
      · exact .inr ⟨a, b, rfl, .again ha, hb⟩
  | alternative hn h ih =>
    obtain ⟨rfl, rfl⟩ | ⟨xs, rfl, rfl⟩ := List.append_eq_cons_iff.mp hz
    · exact .inr ⟨[], _, rfl, .refl, .alternative hn h⟩
    · obtain ⟨zs, rfl, hl⟩ | ⟨a, b, rfl, ha, hb⟩ := @ih (_ :: xs) rfl
      · exact .inl ⟨zs, rfl, .alternative hn hl⟩
      · exact .inr ⟨a, b, rfl, .alternative hn ha, hb⟩
  | ruleRef hr h ih =>
    obtain ⟨rfl, rfl⟩ | ⟨xs, rfl, rfl⟩ := List.append_eq_cons_iff.mp hz
    · exact .inr ⟨[], _, rfl, .refl, .ruleRef hr h⟩
    · obtain ⟨zs, rfl, hl⟩ | ⟨a, b, rfl, ha, hb⟩ := @ih (_ :: xs) rfl
      · exact .inl ⟨zs, rfl, .ruleRef hr hl⟩
      · exact .inr ⟨a, b, rfl, .ruleRef hr ha, hb⟩

end Expands

namespace Grammar

def Opens (g : Grammar) (k : Nat) (pending : List Pending) (p : Path) : Prop :=
  ∃ left, Expands g pending p left ∧ (p.length = k ∨ p.length < k ∧ left = [])

def Erasable (g : Grammar) (pending : List Pending) : Prop := Expands g pending [] []

end Grammar

end StrongLL
