import StrongLL.Grammar.Basic
import StrongLL.Prediction.PathSet
import StrongLL.Vocabulary

/-!
# StrongLL.Prediction.Predictor

Choosing a branch by the types of the upcoming tokens:

* `AcceptPath`      — a path with every type replaced by the types accepted in its place.
* `Predictor`       — the paths of each branch of a decision, for windows of one depth.
* `PredictionTable` — the predictor of every decision of a grammar.
-/

namespace StrongLL

abbrev AcceptPath := List (List TypeId)

namespace AcceptPath

def ofPath (v : Vocabulary) (p : Path) : AcceptPath := p.map v.members

/-- A path shorter than the depth fits only a window of its own length, which is all that is left of
the input. -/
def accepts (depth : Nat) (p : AcceptPath) (window : List TypeId) : Bool :=
  (if p.length < depth then window.length = p.length else depth ≤ window.length)
    && (p.zip window).all fun (types, t) => t ∈ types

/-- Some token list fits both paths. -/
def meets (p q : AcceptPath) : Bool :=
  p.length = q.length && (p.zip q).all fun (a, b) => a.any (· ∈ b)

end AcceptPath

structure PredictorBranch where
  paths : List AcceptPath
  /-- The heads of the paths, each once. -/
  firstTypes : List TypeId
deriving DecidableEq, Repr

namespace PredictorBranch

def ofPaths (v : Vocabulary) (paths : PathSet) : PredictorBranch where
  paths := paths.map (.ofPath v)
  firstTypes := (paths.filterMap (·.head?)).eraseDups

end PredictorBranch

/-- A decision with an exit has one branch, which is to go in. -/
structure Predictor where
  depth : Nat
  branches : List PredictorBranch
deriving DecidableEq, Repr

namespace Predictor

/-- The first branch with a path for the upcoming types. -/
def predict (f : Predictor) (upcoming : List TypeId) : Option Nat :=
  let window := upcoming.take f.depth
  f.branches.findIdx? fun b => b.paths.any (·.accepts f.depth window)

/-- Types behind the window make no difference. -/
theorem predict_congr {f : Predictor} {upcoming upcoming' : List TypeId}
    (h : upcoming'.take f.depth = upcoming.take f.depth) :
    f.predict upcoming' = f.predict upcoming := by
  rw [predict, predict, h]

/-- The heads of the paths of a branch; a number past the branches has none. -/
def firstTypes (f : Predictor) (branch : Nat) : List TypeId :=
  match f.branches[branch]? with
  | some b => b.firstTypes
  | none => []

end Predictor

structure DecisionKey where
  rule : RuleId
  occurrence : Occurrence
deriving DecidableEq, Repr

abbrev PredictionTable := List (DecisionKey × Predictor)

end StrongLL
