import StrongLL.Proofs.Renaming
import StrongLL.Proofs.Soundness

/-!
# StrongLL.Proofs.RenamedRuns

Runs do not look at the numbers of rules:

* `ParseTree.rename`, `Mismatch.rename`, `RunState.rename` — every rule `r` replaced by `σ r`.
* `Parser.Renames σ p p'` — the grammars have the same rules at different places, and the
  predictors of the same decisions agree.
* `Parser.runNode_rename` — the runs of nodes go alike, given the runs of the rules they refer to.
* `Parser.Renames.parse`  — so do parses, whether they succeed or fail.
-/

namespace StrongLL

namespace TreeNode

mutual

def rename (σ : RuleId → RuleId) : TreeNode → TreeNode
  | token t => token t
  | tree r children => tree (σ r) (renameAll σ children)

def renameAll (σ : RuleId → RuleId) : List TreeNode → List TreeNode
  | [] => []
  | n :: rest => n.rename σ :: renameAll σ rest

end

@[simp] theorem renameAll_append (σ : RuleId → RuleId) (w z : List TreeNode) :
    renameAll σ (w ++ z) = renameAll σ w ++ renameAll σ z := by
  induction w with
  | nil => rfl
  | cons n w ih => simp only [List.cons_append, renameAll, ih]

end TreeNode

def ParseTree.rename (σ : RuleId → RuleId) (t : ParseTree) : ParseTree :=
  ⟨σ t.rule, TreeNode.renameAll σ t.children⟩

def Mismatch.rename (σ : RuleId → RuleId) (e : Mismatch) : Mismatch := { e with rule := σ e.rule }

def Invocation.rename (σ : RuleId → RuleId) (call : Invocation) : Invocation :=
  { call with rule := σ call.rule }

def RunState.rename (σ : RuleId → RuleId) (s : RunState) : RunState :=
  { s with entered := s.entered.map (·.rename σ) }

def RunError.rename (σ : RuleId → RuleId) (e : RunError) : RunError :=
  ⟨e.mismatch.rename σ, e.entered.map (·.rename σ)⟩

/-- The end of a run with all rules renamed, given how what it made is renamed. -/
def renamedRun {α : Type} (σ : RuleId → RuleId) (f : α → α) :
    Except RunError (α × RunState) → Except RunError (α × RunState)
  | .ok (a, s) => .ok (f a, s.rename σ)
  | .error e => .error (e.rename σ)

section

variable {σ : RuleId → RuleId}

open TreeNode in
theorem andThen_rename {x x' : Except RunError (List TreeNode × RunState)}
    {next next' : RunState → Except RunError (List TreeNode × RunState)}
    (hx : x' = renamedRun σ (renameAll σ) x)
    (hnext : ∀ s, next' (s.rename σ) = renamedRun σ (renameAll σ) (next s)) :
    andThen x' next' = renamedRun σ (renameAll σ) (andThen x next) := by
  subst hx
  cases x with
  | error e => rfl
  | ok made =>
    obtain ⟨w, s⟩ := made
    show andThen (.ok (renameAll σ w, s.rename σ)) next' = _
    have hs := hnext s
    cases hrun : next s with
    | error e =>
      rw [hrun] at hs
      rw [andThen_error hs, andThen_error hrun]
      rfl
    | ok rest =>
      obtain ⟨z, s'⟩ := rest
      rw [hrun] at hs
      rw [andThen_ok hs, andThen_ok hrun, ← renameAll_append]
      rfl

end

namespace Parser

/-- The second parser has the rules of the first at other places, and both choose alike. -/
structure Renames (σ : Equiv.Perm RuleId) (p p' : Parser) : Prop where
  vocabulary : p'.vocabulary = p.vocabulary
  config : p'.config = p.config
  grammar : p.grammar.Renames σ p'.grammar
  predict (key : DecisionKey) (s : RunState) :
    p'.predict (key.rename σ) (s.rename σ) = p.predict key s
  firstTypes (r : RuleId) (i : Nat) :
    p'.firstTypes ⟨σ r, ⟨.atLeastOne, i⟩⟩ = p.firstTypes ⟨r, ⟨.atLeastOne, i⟩⟩

variable {σ : Equiv.Perm RuleId} {p p' : Parser}

open TreeNode

theorem runLoop_rename {goesOn goesOn' : RunState → Bool}
    {body body' : RunState → Except RunError (List TreeNode × RunState)}
    (hgoesOn : ∀ s, goesOn' (s.rename σ) = goesOn s)
    (hbody : ∀ s, body' (s.rename σ) = renamedRun σ (renameAll σ) (body s)) (room : Nat) :
    ∀ s, runLoop goesOn' body' room (s.rename σ) =
      renamedRun σ (renameAll σ) (runLoop goesOn body room s) := by
  induction room with
  | zero => exact fun s => rfl
  | succ room ih =>
    intro s
    rw [runLoop_succ, runLoop_succ, hgoesOn]
    by_cases hgo : goesOn s = true
    · rw [if_pos hgo, if_pos hgo]
      exact andThen_rename (hbody s) ih
    · rw [if_neg hgo, if_neg hgo]
      rfl

section

variable {call call' : RuleId → RunState → Except RunError (ParseTree × RunState)} {rule : RuleId}

mutual

theorem runNode_rename (h : p.Renames σ p')
    (hcall : ∀ r s, call' (σ r) (s.rename σ) = renamedRun σ (·.rename σ) (call r s)) :
    ∀ (n : Node) (s : RunState),
    runNode p' call' (σ rule) (n.rename σ) (s.rename σ) =
      renamedRun σ (renameAll σ) (runNode p call rule n s)
  | .terminal t i, s => by
    obtain ⟨rest, position, entered⟩ := s
    cases rest with
    | nil => rfl
    | cons token rest =>
      show (if p'.vocabulary.accepts t token.kind then _ else _) =
        renamedRun σ _ (if _ then _ else _)
      rw [h.vocabulary]
      split <;> rfl
  | .sequence parts, s => runAll_rename h hcall parts s
  | .optional body i, s => by
    have hpredict := h.predict ⟨rule, ⟨.optional, i⟩⟩ s
    simp only [Node.rename, runNode]
    simp only [DecisionKey.rename] at hpredict
    rw [hpredict]
    split
    · exact runNode_rename h hcall body s
    · rfl
  | .repetition body i atLeastOne, s => by
    have hpredict := h.predict ⟨rule, ⟨.ofRepetition atLeastOne, i⟩⟩
    simp only [DecisionKey.rename] at hpredict
    have hloop : runLoop
        (fun s => p'.predict ⟨σ rule, ⟨.ofRepetition atLeastOne, i⟩⟩ s = some 0)
        (runNode p' call' (σ rule) (body.rename σ)) s.rest.length (s.rename σ) =
          renamedRun σ (renameAll σ) (runLoop
            (fun s => p.predict ⟨rule, ⟨.ofRepetition atLeastOne, i⟩⟩ s = some 0)
            (runNode p call rule body) s.rest.length s) :=
      runLoop_rename (fun s => by rw [hpredict s]) (runNode_rename h hcall body) s.rest.length s
    simp only [Node.rename, runNode, hpredict s]
    by_cases hmiss :
        (atLeastOne && p.predict ⟨rule, ⟨.ofRepetition atLeastOne, i⟩⟩ s ≠ some 0) = true
    · obtain ⟨rfl, -⟩ := Bool.and_eq_true_iff.mp hmiss
      have hfirst : p'.firstTypes ⟨σ rule, ⟨.ofRepetition true, i⟩⟩ =
          p.firstTypes ⟨rule, ⟨.ofRepetition true, i⟩⟩ := h.firstTypes rule i
      rw [if_pos hmiss, if_pos hmiss, hfirst]
      rfl
    · rw [if_neg hmiss, if_neg hmiss]
      exact hloop
  | .alternation alternatives i description, s => by
    have hpredict := h.predict ⟨rule, ⟨.choice, i⟩⟩ s
    simp only [Node.rename, runNode]
    simp only [DecisionKey.rename] at hpredict
    rw [hpredict]
    have hrefused : (s.rename σ).fail (σ rule) (some ⟨.choice, i⟩) (.description description) =
        renamedRun σ (renameAll σ) (s.fail rule (some ⟨.choice, i⟩) (.description description)) :=
      rfl
    cases p.predict ⟨rule, ⟨.choice, i⟩⟩ s with
    | none => exact hrefused
    | some branch => exact runNth_rename h hcall alternatives branch hrefused s
  | .ruleRef r i, s => by
    simp only [Node.rename, runNode, hcall]
    cases call r s with
    | error e => rfl
    | ok made => rfl

theorem runAll_rename (h : p.Renames σ p')
    (hcall : ∀ r s, call' (σ r) (s.rename σ) = renamedRun σ (·.rename σ) (call r s)) :
    ∀ (parts : List Node) (s : RunState),
    runAll p' call' (σ rule) (Node.renameAll σ parts) (s.rename σ) =
      renamedRun σ (renameAll σ) (runAll p call rule parts s)
  | [], _ => rfl
  | n :: rest, s => andThen_rename (runNode_rename h hcall n s) (runAll_rename h hcall rest)

theorem runNth_rename (h : p.Renames σ p')
    (hcall : ∀ r s, call' (σ r) (s.rename σ) = renamedRun σ (·.rename σ) (call r s)) :
    ∀ (alternatives : List Node) (branch : Nat) {refused refused'},
    refused' = renamedRun σ (renameAll σ) refused → ∀ s : RunState,
    runNth p' call' (σ rule) (Node.renameAll σ alternatives) branch refused' (s.rename σ) =
      renamedRun σ (renameAll σ) (runNth p call rule alternatives branch refused s)
  | [], _, _, _, hrefused, _ => hrefused
  | n :: _, 0, _, _, _, s => runNode_rename h hcall n s
  | _ :: rest, branch + 1, _, _, hrefused, s => runNth_rename h hcall rest branch hrefused s

end

end

namespace Renames

theorem runRule (h : p.Renames σ p') : ∀ room id s,
    p'.runRule room (σ id) (s.rename σ) = renamedRun σ (·.rename σ) (p.runRule room id s) := by
  intro room
  induction room with
  | zero =>
    intro id s
    rw [Parser.runRule, Parser.runRule, h.grammar id, h.config]
    cases p.grammar.get? id <;> rfl
  | succ room ih =>
    intro id s
    rw [Parser.runRule, Parser.runRule, h.grammar id, h.config]
    cases p.grammar.get? id with
    | none => rfl
    | some r =>
      let inside : RunState := { s with
        entered := ⟨id, s.position, p.config.nestingLimit - (room + 1)⟩ :: s.entered }
      have hbody := @runNode_rename σ p p' _ _ id h ih r.body inside
      show (p'.runNode (p'.runRule room) (σ id) (r.body.rename σ) (inside.rename σ) >>=
          fun made => pure (ParseTree.mk (σ id) made.1, made.2)) =
        renamedRun σ (·.rename σ) (p.runNode (p.runRule room) id r.body inside >>=
          fun made => pure (ParseTree.mk id made.1, made.2))
      rw [hbody]
      cases p.runNode (p.runRule room) id r.body inside <;> rfl

theorem run (h : p.Renames σ p') (id : RuleId) (tokens : List Token) :
    p'.run (σ id) tokens = renamedRun σ (·.rename σ) (p.run id tokens) := by
  have hrule := h.runRule p.config.nestingLimit id (.start tokens)
  unfold Parser.run
  rw [h.config]
  rw [show (RunState.start tokens).rename σ = .start tokens from rfl] at hrule
  rw [hrule]
  cases p.runRule p.config.nestingLimit id (.start tokens) with
  | error e => rfl
  | ok made =>
    obtain ⟨tree, s⟩ := made
    show (if p.config.wholeInput && !s.rest.isEmpty then _ else _) =
      renamedRun σ _ (if _ then _ else _)
    split <;> rfl

theorem parse (h : p.Renames σ p') (id : RuleId) (tokens : List Token) :
    p'.parse (σ id) tokens =
      match p.parse id tokens with
      | .ok t => .ok (t.rename σ)
      | .error e => .error (e.rename σ) := by
  unfold Parser.parse
  rw [h.run]
  cases p.run id tokens with
  | error e => rfl
  | ok made => rfl

end Renames

end Parser

end StrongLL
