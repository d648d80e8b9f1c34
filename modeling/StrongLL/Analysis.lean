import StrongLL.Grammar.Draft
import StrongLL.Prediction.Decision
import StrongLL.Parser.Run

/-!
# StrongLL.Analysis

From a grammar under construction to a parser:

* `GrammarFault`   — what can be wrong with a grammar.
* `Grammar.survey` — first sets of all rules, repetitions without progress, follow sets, and the
  paths of all decisions, in this order.
* `Grammar.table`  — the predictors of all decisions, if none is ambiguous within the lookahead.
* `Draft.parser`   — the parser of a grammar with a table.
-/

namespace StrongLL

inductive GrammarFault where
  | malformed (defects : List Defect)
  | ambiguous (a : Ambiguity)
  | leftRecursive (l : LeftRecursion)
deriving Repr

namespace GrammarFault

def message (names : Names) : GrammarFault → String
  | malformed defects =>
    "invalid grammar definition: " ++ "; ".intercalate (defects.map (·.message names))
  | ambiguous a => a.message names
  | leftRecursive l => "left recursion: " ++ " -> ".intercalate (l.cycle.map names.rule)

end GrammarFault

namespace Grammar

/-- Left recursion shows while the first sets of depth 1 are computed. -/
def checkLeftRecursion (g : Grammar) : FirstM Unit :=
  (List.range g.size).forM fun id => do let _ ← g.firstOfRule 1 id

/-- The repetitions of a grammar, in the order of rules and within a rule each before those nested
in it. -/
def repetitions (g : Grammar) : List (RuleId × Occurrence × Node) :=
  g.rules.zipIdx.flatMap fun (r, id) =>
    r.body.preorder.filterMap fun
      | .repetition body i atLeastOne => some (id, ⟨.ofRepetition atLeastOne, i⟩, body)
      | _ => none

/-- The repetitions whose body matches the empty input. -/
def emptyRepetitions (g : Grammar) : FirstM (List Defect) := do
  let found ← g.repetitions.mapM fun (rule, occurrence, body) => do
    return (.emptyRepetition rule occurrence body, ← g.firstOfNode 1 body)
  return (found.filter fun (_, first) => [] ∈ first).map (·.1)

def survey (g : Grammar) (depth : Nat) : FirstM (Except (List Defect) (List Decision)) := do
  g.checkLeftRecursion
  let defects ← g.emptyRepetitions
  if defects.isEmpty then
    let follow ← g.followSets depth
    return .ok (← g.decisions depth follow)
  else return .error defects

end Grammar

/-- The result of a computation that starts without any first sets known. -/
def FirstM.result {α : Type} (x : FirstM α) : Except LeftRecursion α := (x.run.run .empty).1

namespace Grammar

/-- All decisions of a grammar, if it is not left-recursive and every repetition makes progress. -/
def surveyed (g : Grammar) (depth : Nat) : Except GrammarFault (List Decision) :=
  match (g.survey depth).result with
  | .error l => .error (.leftRecursive l)
  | .ok (.error defects) => .error (.malformed defects)
  | .ok (.ok ds) => .ok ds

def table (g : Grammar) (v : Vocabulary) (depth : Nat) :
    Except GrammarFault PredictionTable := do
  (tableOf v depth (← g.surveyed depth)).mapError .ambiguous

/-- Reported while a grammar is analyzed. -/
def analysisEvents (g : Grammar) (v : Vocabulary) (depth : Nat) : List Event :=
  g.ruleEvents v
    ++ match g.surveyed depth with
      | .ok ds => tableEvents v (g.names v) ds
      | .error _ => []

end Grammar

namespace Draft

def parser (d : Draft) : Except GrammarFault Parser := do
  let g ← d.grammar.mapError .malformed
  let table ← g.table d.vocabulary d.config.lookahead
  return ⟨d.vocabulary, g, table, d.config⟩

def analysisEvents (d : Draft) : List Event :=
  match d.grammar with
  | .ok g => g.analysisEvents d.vocabulary d.config.lookahead
  | .error _ => []

end Draft

end StrongLL
