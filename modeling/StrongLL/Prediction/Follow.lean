import StrongLL.Prediction.FirstCache
import StrongLL.Grammar.Context

/-!
# StrongLL.Prediction.Follow

What may come after a rule:

* `CallSite`           — an invocation of a rule, with the paths that come next in the caller.
* `Grammar.followSets` — for every rule the paths of at most `k` types that come after it in some
  parse. Since any rule may be parsed on its own, the empty path is among them.
-/

namespace StrongLL

structure CallSite where
  caller : RuleId
  target : RuleId
  after : PathSet

abbrev FollowSets := List PathSet

namespace FollowSets

def initial (rules : Nat) : FollowSets := List.replicate rules .epsilon

/-- The set of a rule; nothing but the end of input follows a rule outside the grammar. -/
def get (f : FollowSets) (id : RuleId) : PathSet := (f[id]?).getD .epsilon

/-- Let what follows a caller follow its callee too, after what follows within the caller. -/
def propagate (k : Nat) (f : FollowSets) (site : CallSite) : FollowSets :=
  f.modify site.target (·.union (PathSet.append k site.after (f.get site.caller)))

/-- Visit all call sites in order until nothing is added, at most `passes` times. -/
def settle (k : Nat) (sites : List CallSite) : Nat → FollowSets → FollowSets
  | 0, f => f
  | passes + 1, f =>
    let next := sites.foldl (propagate k) f
    if next = f then f else settle k sites passes next

end FollowSets

namespace Grammar

def callSites (g : Grammar) (k : Nat) : FirstM (List CallSite) :=
  g.invocations.mapM fun (caller, target, after) => do
    return ⟨caller, target, ← g.first k after⟩

/-- Every path reaches a rule along a chain of call sites that passes no rule twice with the same
number of types collected, so that many passes suffice. -/
def followSets (g : Grammar) (k : Nat) : FirstM FollowSets := do
  let sites ← g.callSites k
  return FollowSets.settle k sites (g.size * (k + 1) + 1) (.initial g.size)

end Grammar

end StrongLL
