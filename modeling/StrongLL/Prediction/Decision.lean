import StrongLL.Event
import StrongLL.Prediction.Follow
import StrongLL.Grammar.Printer
import StrongLL.Prediction.Predictor

/-!
# StrongLL.Prediction.Decision

The decisions of a grammar:

* `Fork`      — the ways on from a node, as the parts pending within its rule.
* `Decision`  — the paths of those ways, each with what may follow the rule.
* `Ambiguity` — two ways with paths that some token list fits at once.
* `tableOf`   — the predictors, if no decision is ambiguous.
-/

namespace StrongLL

inductive BranchLabel where
  | entering
  | skipping
  | iterating
  | exiting
  /-- Alternatives count from 1. -/
  | alternative (number : Nat)
deriving DecidableEq, Repr

namespace BranchLabel

def text : BranchLabel → String
  | entering => "entering"
  | skipping => "skipping"
  | iterating => "another iteration"
  | exiting => "exiting"
  | alternative n => s!"alternative {n}"

end BranchLabel

structure Fork where
  branches : List (BranchLabel × List Pending)
  exit : Option (BranchLabel × List Pending)

namespace Node

/-- The ways on from a decision point, given what follows it. -/
def fork? (after : List Pending) : Node → Option Fork
  | optional body _ => some ⟨[(.entering, .node body :: after)], some (.skipping, after)⟩
  | repetition body _ _ =>
    some ⟨[(.iterating, .node body :: .loop body :: after)], some (.exiting, after)⟩
  | alternation alternatives _ _ =>
    some ⟨alternatives.zipIdx.map fun (n, i) => (.alternative (i + 1), .node n :: after), none⟩
  | terminal .. | sequence _ | ruleRef .. => none

end Node

structure Branch where
  label : BranchLabel
  paths : PathSet
deriving DecidableEq, Repr

structure Decision where
  key : DecisionKey
  branches : List Branch
  exit : Option Branch
deriving DecidableEq, Repr

/-- `path` is the first path of the one branch that meets a path of the other. -/
structure Ambiguity where
  key : DecisionKey
  first : BranchLabel
  second : BranchLabel
  path : Path
deriving DecidableEq, Repr

namespace Ambiguity

def typeNames (names : Names) (a : Ambiguity) : List String :=
  if a.path.isEmpty then ["end of input"] else a.path.map names.type

def message (names : Names) (a : Ambiguity) : String :=
  s!"ambiguous {a.key.occurrence.text} in rule `{names.rule a.key.rule}`: "
    ++ s!"{a.first.text} and {a.second.text} may both start with <"
    ++ " ".intercalate (a.typeNames names) ++ ">"

end Ambiguity

namespace Grammar

def branch (g : Grammar) (depth : Nat) (follow : PathSet) (label : BranchLabel)
    (pending : List Pending) : FirstM Branch := do
  return ⟨label, PathSet.append depth (← g.first depth pending) follow⟩

def decision (g : Grammar) (depth : Nat) (follow : PathSet) (key : DecisionKey) (fork : Fork) :
    FirstM Decision := do
  let branches ← fork.branches.mapM fun (label, pending) => g.branch depth follow label pending
  let exit ← fork.exit.mapM fun (label, pending) => g.branch depth follow label pending
  return ⟨key, branches, exit⟩

/-- The decision points of a grammar, in the order of rules and within a rule each before those
nested in it. -/
def forks (g : Grammar) : List (DecisionKey × Fork) :=
  g.contexts.filterMap fun (rule, n, after) =>
    match n.occurrence?, n.fork? after with
    | some occurrence, some fork => some (⟨rule, occurrence⟩, fork)
    | _, _ => none

def decisions (g : Grammar) (depth : Nat) (follow : FollowSets) : FirstM (List Decision) :=
  g.forks.mapM fun (key, fork) => g.decision depth (follow.get key.rule) key fork

end Grammar

namespace Branch

/-- The first path of a branch that meets a path of another. -/
def sharedPath? (v : Vocabulary) (b other : Branch) : Option Path :=
  let rivals := other.paths.map (AcceptPath.ofPath v)
  b.paths.find? fun p =>
    let p := AcceptPath.ofPath v p
    rivals.any p.meets

end Branch

namespace Decision

/-- Every branch with its ambiguity against the first of the later branches, or else the exit, that
meets it. -/
def checks (v : Vocabulary) (d : Decision) : List (Branch × Option Ambiguity) :=
  go d.branches
where
  go : List Branch → List (Branch × Option Ambiguity)
    | [] => []
    | b :: later =>
      let clash := (later ++ d.exit.toList).findSome? fun other =>
        (b.sharedPath? v other).map fun p => ⟨d.key, b.label, other.label, p⟩
      (b, clash) :: go later

def ambiguity? (v : Vocabulary) (d : Decision) : Option Ambiguity :=
  (d.checks v).findSome? (·.2)

def function (v : Vocabulary) (depth : Nat) (d : Decision) : Predictor :=
  ⟨depth, d.branches.map fun b => .ofPaths v b.paths⟩

end Decision

/-- The table of a grammar's decisions, or the first ambiguity. -/
def tableOf (v : Vocabulary) (depth : Nat) : List Decision → Except Ambiguity PredictionTable
  | [] => .ok []
  | d :: rest =>
    match d.ambiguity? v with
    | some a => .error a
    | none => do return (d.key, d.function v depth) :: (← tableOf v depth rest)

/-! ## Events -/

namespace PathSet

def describe (s : PathSet) : String :=
  let paths := s.map fun p =>
    "[" ++ ", ".intercalate (p.map fun t => s!"TokenTypeId({t})") ++ "]"
  "\x7b" ++ ", ".intercalate paths ++ "\x7d"

end PathSet

namespace Decision

def branchEvent (names : Names) (d : Decision) (b : Branch) : Event :=
  ⟨.trace, d.key.occurrence.text ++ " in " ++ names.rule d.key.rule ++ ": " ++ b.label.text
    ++ " has " ++ b.paths.describe⟩

/-- Reported for every branch up to the first one that is ambiguous. -/
def events (v : Vocabulary) (names : Names) (d : Decision) : List Event :=
  let checks := d.checks v
  let clear := checks.takeWhile (·.2.isNone)
  let last := (checks.drop clear.length).take 1
  (clear ++ last).map fun (b, _) => d.branchEvent names b

end Decision

/-- Reported while a table is computed: the branches of each decision up to the first ambiguous
one, or at the end the number of decisions. -/
def tableEvents (v : Vocabulary) (names : Names) (ds : List Decision) : List Event :=
  let clear := ds.takeWhile fun d => (d.ambiguity? v).isNone
  match ds.drop clear.length with
  | d :: _ => (clear ++ [d]).flatMap (·.events v names)
  | [] => ds.flatMap (·.events v names)
    ++ [⟨.debug, s!"computed {ds.length} lookahead functions"⟩]

end StrongLL
