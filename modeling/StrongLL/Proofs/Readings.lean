import StrongLL.Parser.Derivation
import StrongLL.Proofs.Choice

/-!
# StrongLL.Proofs.Readings

Readings of pending parts as tree nodes:

* `TreeNode.trees`      — all trees within a node. Each has a derivation of its own.
* `Derives.rec_unfolds` — induction over the steps of a reading; most leave no trace in it.
* `Derives.exists_path` — the tokens of a reading fit a complete expansion.
* `Derives.admits`      — the kinds of a reading are admitted wherever it may stand.
* `Derives.cases_loop`  — iterations are over, or there is one before the others.
-/

namespace StrongLL

namespace TreeNode

mutual

/-- A tree and all trees within it, each before those within it. -/
def trees : TreeNode → List ParseTree
  | token _ => []
  | tree r children => ⟨r, children⟩ :: treesOfAll children

def treesOfAll : List TreeNode → List ParseTree
  | [] => []
  | n :: rest => n.trees ++ treesOfAll rest

end

@[simp] theorem tokensOfAll_nil : tokensOfAll [] = [] := rfl

@[simp] theorem tokensOfAll_cons (n : TreeNode) (w : List TreeNode) :
    tokensOfAll (n :: w) = n.tokens ++ tokensOfAll w := rfl

@[simp] theorem tokensOfAll_append (w z : List TreeNode) :
    tokensOfAll (w ++ z) = tokensOfAll w ++ tokensOfAll z := by
  induction w with
  | nil => rfl
  | cons n w ih => simp [ih]

@[simp] theorem tokens_token (t : Token) : (token t).tokens = [t] := rfl

@[simp] theorem tokens_tree (r : RuleId) (children : List TreeNode) :
    (tree r children).tokens = tokensOfAll children := rfl

@[simp] theorem nestingOfAll_nil : nestingOfAll [] = 0 := rfl

@[simp] theorem nestingOfAll_cons (n : TreeNode) (w : List TreeNode) :
    nestingOfAll (n :: w) = max n.nesting (nestingOfAll w) := rfl

@[simp] theorem nestingOfAll_append (w z : List TreeNode) :
    nestingOfAll (w ++ z) = max (nestingOfAll w) (nestingOfAll z) := by
  induction w with
  | nil => simp
  | cons n w ih => simp [ih, Nat.max_assoc]

@[simp] theorem nesting_tree (r : RuleId) (children : List TreeNode) :
    (tree r children).nesting = nestingOfAll children + 1 := rfl

/-- The kinds of the tokens of some nodes. -/
def kindsOf (w : List TreeNode) : List TypeId := (tokensOfAll w).map (·.kind)

end TreeNode

open TreeNode

namespace Derives

variable {g : Grammar} {v : Vocabulary}

/-- A step that neither emits a type nor invokes a rule leaves no trace in a reading. -/
theorem of_unfolds {x : Pending} {xs rest : List Pending} {w : List TreeNode}
    (hu : Unfolds g x [] xs) (hx : ∀ r i, x ≠ .node (.ruleRef r i))
    (h : Derives g v (xs ++ rest) w) : Derives g v (x :: rest) w := by
  cases hu with
  | sequence => exact .sequence h
  | skip => exact .skip h
  | enter => exact .enter h
  | many => exact .many h
  | atLeastOne => exact .atLeastOne h
  | stop => exact .stop h
  | again => exact .again h
  | alternative hn => exact .alternative hn h
  | ruleRef => exact absurd rfl (hx _ _)

@[elab_as_elim]
theorem rec_unfolds {motive : ∀ xs w, Derives g v xs w → Prop}
    (nil : motive [] [] .nil)
    (terminal : ∀ {t : TypeId} {i : Nat} {token : Token} {rest : List Pending}
      {w : List TreeNode} (ht : v.accepts t token.kind = true) (h : Derives g v rest w),
      motive rest w h → motive (.node (.terminal t i) :: rest) (.token token :: w) (.terminal ht h))
    (silent : ∀ {x : Pending} {xs rest : List Pending} {w : List TreeNode}
      (hu : Unfolds g x [] xs) (hx : ∀ r i, x ≠ .node (.ruleRef r i))
      (h : Derives g v (xs ++ rest) w), motive (xs ++ rest) w h →
      motive (x :: rest) w (h.of_unfolds hu hx))
    (ruleRef : ∀ {r : RuleId} {rule : Rule} {i : Nat} {rest : List Pending}
      {children w : List TreeNode} (hr : g.get? r = some rule)
      (hchildren : Derives g v [.node rule.body] children) (h : Derives g v rest w),
      motive [.node rule.body] children hchildren → motive rest w h →
      motive (.node (.ruleRef r i) :: rest) (.tree r children :: w) (.ruleRef hr hchildren h))
    {xs : List Pending} {w : List TreeNode} (h : Derives g v xs w) : motive xs w h := by
  induction h with
  | nil => exact nil
  | terminal ht h ih => exact terminal ht h ih
  | sequence h ih => exact silent .sequence (by simp) h ih
  | skip h ih => exact silent .skip (by simp) h ih
  | enter h ih => exact silent .enter (by simp) h ih
  | many h ih => exact silent .many (by simp) h ih
  | atLeastOne h ih => exact silent .atLeastOne (by simp) h ih
  | stop h ih => exact silent .stop (by simp) h ih
  | again h ih => exact silent .again (by simp) h ih
  | alternative hn h ih => exact silent (.alternative hn) (by simp) h ih
  | ruleRef hr hchildren h ihchildren ih => exact ruleRef hr hchildren h ihchildren ih

theorem exists_path {xs : List Pending} {w : List TreeNode} (h : Derives g v xs w) :
    ∃ p, Expands g xs p [] ∧ v.Fits p (kindsOf w) := by
  induction h using rec_unfolds with
  | nil => exact ⟨[], .refl, .nil⟩
  | terminal ht _ ih =>
    obtain ⟨p, hp, hfits⟩ := ih
    exact ⟨_ :: p, .terminal hp, .cons ht hfits⟩
  | silent hu _ _ ih =>
    obtain ⟨p, hp, hfits⟩ := ih
    exact ⟨p, hp.step hu, hfits⟩
  | @ruleRef r rule i rest children w hr _ _ ihchildren ih =>
    obtain ⟨p, hp, hfits⟩ := ihchildren
    obtain ⟨q, hq, hfits'⟩ := ih
    refine ⟨p ++ q, .ruleRef hr ((hp.append_right rest).trans hq), ?_⟩
    have hkinds : kindsOf (.tree r children :: w) = kindsOf children ++ kindsOf w := by
      simp [kindsOf]
    rw [hkinds]
    exact List.rel_append hfits hfits'

/-- A reading without tokens is one of parts that can be empty. -/
theorem erasable {xs : List Pending} {w : List TreeNode} (h : Derives g v xs w)
    (hw : tokensOfAll w = []) : g.Erasable xs := by
  obtain ⟨p, hp, hfits⟩ := h.exists_path
  unfold kindsOf at hfits
  rw [hw] at hfits
  cases hfits
  exact hp

theorem admits {k : Nat} {r : RuleId} {pending outer : List Pending} {w : List TreeNode}
    (houter : Continues g r outer) (h : Derives g v (pending ++ outer) w) :
    g.Admits v k r pending (kindsOf w) := by
  obtain ⟨p, hp, hfits⟩ := h.exists_path
  refine ⟨p.take k, ⟨outer, houter, ?_⟩, List.forall₂_take k hfits⟩
  have hopens : g.Opens (max k p.length) (pending ++ outer) p :=
    .of_complete hp (Nat.le_max_right k _)
  exact hopens.take (Nat.le_max_left k _)

theorem cases_loop {body : Node} {w : List TreeNode} (h : Derives g v [.loop body] w) :
    w = [] ∨ ∃ a b, w = a ++ b ∧ Derives g v [.node body] a ∧ Derives g v [.loop body] b := by
  cases h with
  | stop h =>
    cases h
    exact .inl rfl
  | again h =>
    have h : Derives g v ([.node body] ++ [.loop body]) w := h
    exact .inr h.exists_of_append

theorem cases_atLeastOne {body : Node} {i : Nat} {w : List TreeNode}
    (h : Derives g v [.node (.repetition body i true)] w) :
    ∃ a b, w = a ++ b ∧ Derives g v [.node body] a ∧ Derives g v [.loop body] b := by
  cases h with
  | atLeastOne h =>
    have h : Derives g v ([.node body] ++ [.loop body]) w := h
    exact h.exists_of_append

/-- The tree of an invocation. -/
theorem cases_ruleRef {r : RuleId} {i : Nat} {w : List TreeNode}
    (h : Derives g v [.node (.ruleRef r i)] w) :
    ∃ children, w = [.tree r children] ∧ g.IsTree v ⟨r, children⟩ := by
  cases h with
  | ruleRef hr hchildren hrest =>
    cases hrest
    exact ⟨_, rfl, _, hr, hchildren⟩

theorem isTree {xs : List Pending} {w : List TreeNode} (h : Derives g v xs w) :
    ∀ t ∈ treesOfAll w, g.IsTree v t := by
  induction h using rec_unfolds with
  | nil => simp [treesOfAll]
  | terminal _ _ ih => simpa [treesOfAll, trees] using ih
  | silent _ _ _ ih => exact ih
  | @ruleRef r rule i rest children w hr hchildren _ ihchildren ih =>
    intro t ht
    have ht : t = ⟨r, children⟩ ∨ t ∈ treesOfAll children ∨ t ∈ treesOfAll w := by
      simpa [treesOfAll, trees] using ht
    rcases ht with rfl | ht | ht
    · exact ⟨rule, hr, hchildren⟩
    · exact ihchildren t ht
    · exact ih t ht

end Derives

namespace Grammar

variable {g : Grammar} {v : Vocabulary}

theorem IsTree.derives {t : ParseTree} (h : g.IsTree v t) (i : Nat) :
    Derives g v [.node (.ruleRef t.rule i)] [t.node] :=
  let ⟨_, hr, hchildren⟩ := h
  .ruleRef hr hchildren .nil

/-- All trees within a derivation tree are derivation trees of their rules. -/
theorem IsTree.trees {t : ParseTree} (h : g.IsTree v t) : ∀ s ∈ t.node.trees, g.IsTree v s := by
  intro s hs
  refine (h.derives 0).isTree s ?_
  rw [treesOfAll, treesOfAll, List.append_nil]
  exact hs

end Grammar

end StrongLL
