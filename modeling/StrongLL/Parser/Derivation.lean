import StrongLL.Parser.Tree
import StrongLL.Vocabulary

/-!
# StrongLL.Parser.Derivation

What a grammar describes, apart from any way to decide between branches:

* `Derives g v pending w` — the tree nodes `w` are a reading of `pending`, part after part.
* `Grammar.IsTree g v t`  — `t` is a derivation tree of its rule.
* `TreeNode.nesting`      — the number of trees on the longest way down, itself counted.

A derivation goes from left to right; only an invoked rule has a derivation of its own, so that its
nodes end up in one tree.
-/

namespace StrongLL

inductive Derives (g : Grammar) (v : Vocabulary) : List Pending → List TreeNode → Prop where
  | nil : Derives g v [] []
  | terminal {t : TypeId} {i : Nat} {token : Token} {rest : List Pending} {w : List TreeNode} :
      v.accepts t token.kind = true → Derives g v rest w →
      Derives g v (.node (.terminal t i) :: rest) (.token token :: w)
  | sequence {parts : List Node} {rest : List Pending} {w : List TreeNode} :
      Derives g v (parts.map .node ++ rest) w → Derives g v (.node (.sequence parts) :: rest) w
  | skip {body : Node} {i : Nat} {rest : List Pending} {w : List TreeNode} :
      Derives g v rest w → Derives g v (.node (.optional body i) :: rest) w
  | enter {body : Node} {i : Nat} {rest : List Pending} {w : List TreeNode} :
      Derives g v (.node body :: rest) w → Derives g v (.node (.optional body i) :: rest) w
  | many {body : Node} {i : Nat} {rest : List Pending} {w : List TreeNode} :
      Derives g v (.loop body :: rest) w → Derives g v (.node (.repetition body i false) :: rest) w
  | atLeastOne {body : Node} {i : Nat} {rest : List Pending} {w : List TreeNode} :
      Derives g v (.node body :: .loop body :: rest) w →
      Derives g v (.node (.repetition body i true) :: rest) w
  | stop {body : Node} {rest : List Pending} {w : List TreeNode} :
      Derives g v rest w → Derives g v (.loop body :: rest) w
  | again {body : Node} {rest : List Pending} {w : List TreeNode} :
      Derives g v (.node body :: .loop body :: rest) w → Derives g v (.loop body :: rest) w
  | alternative {alternatives : List Node} {n : Node} {i : Nat} {description : String}
      {rest : List Pending} {w : List TreeNode} :
      n ∈ alternatives → Derives g v (.node n :: rest) w →
      Derives g v (.node (.alternation alternatives i description) :: rest) w
  | ruleRef {r : RuleId} {rule : Rule} {i : Nat} {rest : List Pending}
      {children w : List TreeNode} :
      g.get? r = some rule → Derives g v [.node rule.body] children → Derives g v rest w →
      Derives g v (.node (.ruleRef r i) :: rest) (.tree r children :: w)

namespace Derives

variable {g : Grammar} {v : Vocabulary}

theorem append {xs ys : List Pending} {w z : List TreeNode} (hx : Derives g v xs w)
    (hy : Derives g v ys z) : Derives g v (xs ++ ys) (w ++ z) := by
  induction hx with
  | nil => exact hy
  | terminal ht _ ih => exact .terminal ht ih
  | sequence _ ih => exact .sequence (by simpa using ih)
  | skip _ ih => exact .skip ih
  | enter _ ih => exact .enter ih
  | many _ ih => exact .many ih
  | atLeastOne _ ih => exact .atLeastOne ih
  | stop _ ih => exact .stop ih
  | again _ ih => exact .again ih
  | alternative hn _ ih => exact .alternative hn ih
  | ruleRef hr hc _ _ ih => exact .ruleRef hr hc ih

/-- A reading of two lists of parts is made of a reading of each. -/
theorem exists_of_append {xs ys : List Pending} {w : List TreeNode} (h : Derives g v (xs ++ ys) w) :
    ∃ a b, w = a ++ b ∧ Derives g v xs a ∧ Derives g v ys b := by
  generalize hz : xs ++ ys = zs at h
  induction h generalizing xs with
  | nil =>
    obtain ⟨rfl, rfl⟩ := List.append_eq_nil_iff.mp hz
    exact ⟨[], [], rfl, .nil, .nil⟩
  | terminal ht hw ih =>
    obtain ⟨rfl, rfl⟩ | ⟨xs, rfl, rfl⟩ := List.append_eq_cons_iff.mp hz
    · exact ⟨[], _, rfl, .nil, .terminal ht hw⟩
    · obtain ⟨a, b, rfl, ha, hb⟩ := ih rfl
      exact ⟨_ :: a, b, rfl, .terminal ht ha, hb⟩
  | @sequence parts rest w hw ih =>
    obtain ⟨rfl, rfl⟩ | ⟨xs, rfl, rfl⟩ := List.append_eq_cons_iff.mp hz
    · exact ⟨[], _, rfl, .nil, .sequence hw⟩
    · obtain ⟨a, b, rfl, ha, hb⟩ := @ih (parts.map .node ++ xs) (by simp)
      exact ⟨a, b, rfl, .sequence ha, hb⟩
  | skip hw ih =>
    obtain ⟨rfl, rfl⟩ | ⟨xs, rfl, rfl⟩ := List.append_eq_cons_iff.mp hz
    · exact ⟨[], _, rfl, .nil, .skip hw⟩
    · obtain ⟨a, b, rfl, ha, hb⟩ := ih rfl
      exact ⟨a, b, rfl, .skip ha, hb⟩
  | enter hw ih =>
    obtain ⟨rfl, rfl⟩ | ⟨xs, rfl, rfl⟩ := List.append_eq_cons_iff.mp hz
    · exact ⟨[], _, rfl, .nil, .enter hw⟩
    · obtain ⟨a, b, rfl, ha, hb⟩ := @ih (_ :: xs) rfl
      exact ⟨a, b, rfl, .enter ha, hb⟩
  | many hw ih =>
    obtain ⟨rfl, rfl⟩ | ⟨xs, rfl, rfl⟩ := List.append_eq_cons_iff.mp hz
    · exact ⟨[], _, rfl, .nil, .many hw⟩
    · obtain ⟨a, b, rfl, ha, hb⟩ := @ih (_ :: xs) rfl
      exact ⟨a, b, rfl, .many ha, hb⟩
  | atLeastOne hw ih =>
    obtain ⟨rfl, rfl⟩ | ⟨xs, rfl, rfl⟩ := List.append_eq_cons_iff.mp hz
    · exact ⟨[], _, rfl, .nil, .atLeastOne hw⟩
    · obtain ⟨a, b, rfl, ha, hb⟩ := @ih (_ :: _ :: xs) rfl
      exact ⟨a, b, rfl, .atLeastOne ha, hb⟩
  | stop hw ih =>
    obtain ⟨rfl, rfl⟩ | ⟨xs, rfl, rfl⟩ := List.append_eq_cons_iff.mp hz
    · exact ⟨[], _, rfl, .nil, .stop hw⟩
    · obtain ⟨a, b, rfl, ha, hb⟩ := ih rfl
      exact ⟨a, b, rfl, .stop ha, hb⟩
  | again hw ih =>
    obtain ⟨rfl, rfl⟩ | ⟨xs, rfl, rfl⟩ := List.append_eq_cons_iff.mp hz
    · exact ⟨[], _, rfl, .nil, .again hw⟩
    · obtain ⟨a, b, rfl, ha, hb⟩ := @ih (_ :: _ :: xs) rfl
      exact ⟨a, b, rfl, .again ha, hb⟩
  | alternative hn hw ih =>
    obtain ⟨rfl, rfl⟩ | ⟨xs, rfl, rfl⟩ := List.append_eq_cons_iff.mp hz
    · exact ⟨[], _, rfl, .nil, .alternative hn hw⟩
    · obtain ⟨a, b, rfl, ha, hb⟩ := @ih (_ :: xs) rfl
      exact ⟨a, b, rfl, .alternative hn ha, hb⟩
  | ruleRef hr hc hw _ ih =>
    obtain ⟨rfl, rfl⟩ | ⟨xs, rfl, rfl⟩ := List.append_eq_cons_iff.mp hz
    · exact ⟨[], _, rfl, .nil, .ruleRef hr hc hw⟩
    · obtain ⟨a, b, rfl, ha, hb⟩ := ih rfl
      exact ⟨_ :: a, b, rfl, .ruleRef hr hc ha, hb⟩

end Derives

theorem derives_append_iff {g : Grammar} {v : Vocabulary} {xs ys : List Pending}
    {w : List TreeNode} :
    Derives g v (xs ++ ys) w ↔ ∃ a b, w = a ++ b ∧ Derives g v xs a ∧ Derives g v ys b :=
  ⟨Derives.exists_of_append, fun ⟨_, _, hw, ha, hb⟩ => hw ▸ ha.append hb⟩

namespace Grammar

/-- A tree whose children are a reading of the body of its rule. -/
def IsTree (g : Grammar) (v : Vocabulary) (t : ParseTree) : Prop :=
  ∃ rule, g.get? t.rule = some rule ∧ Derives g v [.node rule.body] t.children

end Grammar

namespace TreeNode

mutual

def nesting : TreeNode → Nat
  | token _ => 0
  | tree _ children => nestingOfAll children + 1

def nestingOfAll : List TreeNode → Nat
  | [] => 0
  | n :: rest => max n.nesting (nestingOfAll rest)

end

end TreeNode

end StrongLL
