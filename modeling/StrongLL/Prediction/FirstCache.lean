import StrongLL.Prediction.First

/-!
# StrongLL.Prediction.FirstCache

First sets with a store for those of rules, so that each is computed once per depth:

* `FirstCache`    — the sets of rules known so far.
* `LeftRecursion` — a rule reaches itself before any token.
* `Grammar.first` — the set of pending parts, with `Grammar.firstOfNode` and
  `Grammar.firstOfRule` as special cases.

A smaller depth is asked for only after a token has been passed, so a rule that is asked for again
at the depth at which it is still being computed can invoke itself without consuming a token. The
rules being computed at the present depth are distinct, so a chain of them is no longer than the
grammar. What was learnt before a failure stays known.
-/

namespace StrongLL

structure FirstCache where
  rules : List ((RuleId × Nat) × PathSet)

namespace FirstCache

def empty : FirstCache := ⟨[]⟩

def get? (c : FirstCache) (id : RuleId) (k : Nat) : Option PathSet := c.rules.lookup (id, k)

def add (c : FirstCache) (id : RuleId) (k : Nat) (s : PathSet) : FirstCache :=
  ⟨((id, k), s) :: c.rules⟩

end FirstCache

/-- The rules along a cycle, the first one again at the end. -/
structure LeftRecursion where
  cycle : List RuleId
deriving DecidableEq, Repr

abbrev FirstM := ExceptT LeftRecursion (StateM FirstCache)

namespace Grammar

/-- The set of a rule at depth `k`, with the rules being computed at this depth in `active`. At
most `room` more rules can become active. A rule outside the grammar starts with nothing. -/
def ruleFirst (g : Grammar) (k : Nat) (below : Nat → List Pending → FirstM PathSet) (room : Nat)
    (active : List RuleId) (id : RuleId) : FirstM PathSet := do
  match (← get).get? id k with
  | some s => return s
  | none =>
    if id ∈ active then
      throw ⟨active.dropWhile (· ≠ id) ++ [id]⟩
    else
      match room, g.get? id with
      | room + 1, some r =>
        let s ← r.body.first
          { depth := k, rule := ruleFirst g k below room (active ++ [id]), below }
        modify (·.add id k s)
        return s
      | _, _ => return []

/-- The set of pending parts at depth `k`, which is no more than `fuel`. -/
def firstWithin (g : Grammar) : Nat → Nat → List Pending → FirstM PathSet
  | fuel + 1, k + 1, pending =>
    pendingFirst
      { depth := k + 1
        rule := ruleFirst g (k + 1) (firstWithin g fuel) g.size []
        below := firstWithin g fuel }
      pending
  | _, _, _ => return .epsilon

def first (g : Grammar) (k : Nat) (pending : List Pending) : FirstM PathSet :=
  g.firstWithin k k pending

def firstOfNode (g : Grammar) (k : Nat) (n : Node) : FirstM PathSet := g.first k [.node n]

def firstOfRule (g : Grammar) (k : Nat) (id : RuleId) : FirstM PathSet :=
  g.firstOfNode k (.ruleRef id 0)

end Grammar

end StrongLL
