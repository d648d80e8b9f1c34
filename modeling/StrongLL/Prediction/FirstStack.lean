import StrongLL.Prediction.Follow

/-!
# StrongLL.Prediction.FirstStack

First sets with the rules in progress in the state, beside the store:

* `FirstStack`         — the store, and the rules in progress with their depths.
* `StackM.during`      — a computation while one more rule is in progress.
* `Grammar.stackFirst` — the set of pending parts, by the same equations.
* `FirstCall`          — what can be asked for: sets of rules and of nodes, and follow sets.
* `Grammar.session`    — calls one after another on one store and stack.
-/

namespace StrongLL

structure FirstStack where
  cache : FirstCache
  /-- The innermost rule is the last one. -/
  active : List (RuleId × Nat)

abbrev StackM := ExceptT LeftRecursion (StateM FirstStack)

namespace FirstStack

def empty : FirstStack := ⟨.empty, []⟩

def push (s : FirstStack) (entry : RuleId × Nat) : FirstStack :=
  { s with active := s.active ++ [entry] }

def pop (s : FirstStack) : FirstStack := { s with active := s.active.dropLast }

end FirstStack

namespace StackM

variable {α : Type}

/-- The run of a computation: its outcome, and the store and the stack it leaves. -/
def exec (x : StackM α) (s : FirstStack) : Except LeftRecursion α × FirstStack := x.run.run s

/-- Run a computation while one more rule is in progress. That rule is taken off again however the
computation ends. -/
def during (entry : RuleId × Nat) (x : StackM α) : StackM α :=
  ExceptT.mk fun s =>
    let (result, s) := x.exec (s.push entry)
    (result, s.pop)

end StackM

namespace Grammar

/-- The set of a rule at depth `k`. At most `room` more rules can be put on the stack at this
depth. -/
def stackRule (g : Grammar) (k : Nat) (below : Nat → List Pending → StackM PathSet) (room : Nat)
    (id : RuleId) : StackM PathSet := do
  match (← get).cache.get? id k with
  | some s => return s
  | none =>
    let active := (← get).active
    if active.contains (id, k) then
      throw ⟨(active.dropWhile (· ≠ (id, k))).map (·.1) ++ [id]⟩
    else
      match room, g.get? id with
      | room + 1, some r =>
        let s ← StackM.during (id, k)
          (r.body.first { depth := k, rule := stackRule g k below room, below })
        modify fun state => { state with cache := state.cache.add id k s }
        return s
      | _, _ => return []

def stackWithin (g : Grammar) : Nat → Nat → List Pending → StackM PathSet
  | fuel + 1, k + 1, pending =>
    pendingFirst
      { depth := k + 1
        rule := stackRule g (k + 1) (stackWithin g fuel) g.size
        below := stackWithin g fuel }
      pending
  | _, _, _ => return .epsilon

def stackFirst (g : Grammar) (k : Nat) (pending : List Pending) : StackM PathSet :=
  g.stackWithin k k pending

def stackCallSites (g : Grammar) (k : Nat) : StackM (List CallSite) :=
  g.invocations.mapM fun (caller, target, after) => do
    return ⟨caller, target, ← g.stackFirst k after⟩

def stackFollowSets (g : Grammar) (k : Nat) : StackM FollowSets := do
  let sites ← g.stackCallSites k
  return FollowSets.settle k sites (g.size * (k + 1) + 1) (.initial g.size)

end Grammar

/-! ## Calls -/

inductive FirstCall where
  | rule (id : RuleId) (k : Nat)
  | node (n : Node) (k : Nat)
  | followSets (k : Nat)

inductive FirstAnswer where
  | paths (s : PathSet)
  | follow (f : FollowSets)
deriving DecidableEq, Repr

namespace FirstCall

def answer (g : Grammar) : FirstCall → FirstM FirstAnswer
  | rule id k => do return .paths (← g.firstOfRule k id)
  | node n k => do return .paths (← g.firstOfNode k n)
  | followSets k => do return .follow (← g.followSets k)

def stackAnswer (g : Grammar) : FirstCall → StackM FirstAnswer
  | rule id k => do return .paths (← g.stackFirst k [.node (.ruleRef id 0)])
  | node n k => do return .paths (← g.stackFirst k [.node n])
  | followSets k => do return .follow (← g.stackFollowSets k)

end FirstCall

namespace Grammar

/-- The answers of some calls, each on the store that the calls before have left. -/
def answers (g : Grammar) : List FirstCall → FirstCache → List (Except LeftRecursion FirstAnswer)
  | [], _ => []
  | call :: rest, c =>
    let (answer, c) := (call.answer g).run.run c
    answer :: answers g rest c

/-- The answers of some calls, each with the rules that are in progress after it. -/
def session (g : Grammar) :
    List FirstCall → FirstStack →
      List (Except LeftRecursion FirstAnswer × List (RuleId × Nat))
  | [], _ => []
  | call :: rest, s =>
    let (answer, s) := (call.stackAnswer g).exec s
    (answer, s.active) :: session g rest s

end Grammar

end StrongLL
