import StrongLL.Grammar.Basic

/-!
# StrongLL.Grammar.Context

What follows the parts of a grammar:

* `Node.contexts`       — every node of a body with the parts that follow it there.
* `Grammar.invocations` — the invocations of rules with the parts that follow them.
* `Continues g r pending` — `pending` is still to come when an invocation of `r` ends, out to the
  end of the input: what follows it in its caller, then what follows the caller, and so on. A parse
  may start with any rule.
-/

namespace StrongLL

namespace Node

mutual

/-- The nodes within a node, each before its parts, with what follows them up to `after`. After an
iteration of a repeated body, further iterations may follow. -/
def contexts (after : List Pending) : Node → List (Node × List Pending)
  | terminal t i => [(terminal t i, after)]
  | sequence parts => (sequence parts, after) :: partContexts after parts
  | optional body i => (optional body i, after) :: body.contexts after
  | repetition body i atLeastOne =>
    (repetition body i atLeastOne, after) :: body.contexts (.loop body :: after)
  | alternation alternatives i description =>
    (alternation alternatives i description, after) :: alternativeContexts after alternatives
  | ruleRef r i => [(ruleRef r i, after)]

def partContexts (after : List Pending) : List Node → List (Node × List Pending)
  | [] => []
  | n :: rest => n.contexts (rest.map .node ++ after) ++ partContexts after rest

def alternativeContexts (after : List Pending) : List Node → List (Node × List Pending)
  | [] => []
  | n :: rest => n.contexts after ++ alternativeContexts after rest

end

end Node

namespace Grammar

/-- Every node of a grammar with its rule and what follows it within that rule. -/
def contexts (g : Grammar) : List (RuleId × Node × List Pending) :=
  g.rules.zipIdx.flatMap fun (r, id) => (r.body.contexts []).map (id, ·)

/-- The invocations of rules: caller, target, and what follows within the caller. -/
def invocations (g : Grammar) : List (RuleId × RuleId × List Pending) :=
  g.contexts.filterMap fun
    | (caller, .ruleRef target _, after) => some (caller, target, after)
    | _ => none

end Grammar

inductive Continues (g : Grammar) : RuleId → List Pending → Prop where
  | entry {r : RuleId} : Continues g r []
  | call {caller target : RuleId} {after outer : List Pending} :
      (caller, target, after) ∈ g.invocations → Continues g caller outer →
      Continues g target (after ++ outer)

end StrongLL
