import StrongLL.Grammar.Basic
import StrongLL.Prediction.PathSet

/-!
# StrongLL.Prediction.First

What a part of a grammar may start with: paths of `k` types, and shorter ones after which the part
may be over.

* `Surroundings` — what the equations of one depth need from elsewhere: the sets of the rules at
  this depth and the sets of pending parts at smaller depths.
* `Node.first`   — the equations, one for each kind of node.

Within one depth the equations go from a node to its parts only; after a token has been passed they
ask for a smaller depth.
-/

namespace StrongLL

structure Surroundings (m : Type → Type) where
  depth : Nat
  rule : RuleId → m PathSet
  below : Nat → List Pending → m PathSet

section

variable {m : Type → Type} [Monad m]

/-- Zero or more iterations of a body with the given set. Iterations without tokens add nothing. -/
def loopFirst (env : Surroundings m) (body : Node) (once : PathSet) : m PathSet := do
  let more ← PathSet.extendM env.depth (once.filter (· ≠ [])) fun room =>
    env.below room [.loop body]
  return PathSet.epsilon.union more

mutual

def Node.first (env : Surroundings m) : Node → m PathSet
  | .terminal t _ => return [[t]]
  | .sequence parts => sequenceFirst env parts
  | .optional body _ => do return (← body.first env).union .epsilon
  | .repetition body _ false => do loopFirst env body (← body.first env)
  | .repetition body _ true => do
    PathSet.extendM env.depth (← body.first env) fun room =>
      if room = env.depth then do loopFirst env body (← body.first env)
      else env.below room [.loop body]
  | .alternation alternatives _ _ => alternativesFirst env alternatives
  | .ruleRef r _ => env.rule r

def sequenceFirst (env : Surroundings m) : List Node → m PathSet
  | [] => return .epsilon
  | n :: rest => do
    PathSet.extendM env.depth (← n.first env) fun room =>
      if room = env.depth then sequenceFirst env rest else env.below room (rest.map .node)

def alternativesFirst (env : Surroundings m) : List Node → m PathSet
  | [] => return []
  | n :: rest => do
    let preferred ← n.first env
    return preferred.union (← alternativesFirst env rest)

end

def Pending.first (env : Surroundings m) : Pending → m PathSet
  | .node n => n.first env
  | .loop body => do loopFirst env body (← body.first env)

def pendingFirst (env : Surroundings m) : List Pending → m PathSet
  | [] => return .epsilon
  | part :: rest => do
    PathSet.extendM env.depth (← part.first env) fun room =>
      if room = env.depth then pendingFirst env rest else env.below room rest

end

end StrongLL
