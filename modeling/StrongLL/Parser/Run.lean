import StrongLL.Config
import StrongLL.Event
import StrongLL.Parser.Mismatch
import StrongLL.Parser.Tree
import StrongLL.Prediction.Predictor

/-!
# StrongLL.Parser.Run

Running a grammar on a token list:

* `Parser`       — a grammar with the predictors of its decisions.
* `RunState`     — the tokens still to come, and the invocations so far.
* `runNode`      — the run of a node. Every decision takes the branch its predictor names and never
  comes back.
* `Parser.parse` — the run of a rule from the start.

An invocation takes one of the `room` for further nested invocations and gives it back at its end,
so `room` is the nesting limit less the active invocations.
-/

namespace StrongLL

structure Parser where
  vocabulary : Vocabulary
  grammar : Grammar
  table : PredictionTable
  config : Config

/-- `active` counts the invocations around this one. -/
structure Invocation where
  rule : RuleId
  position : Nat
  active : Nat
deriving DecidableEq, Repr

structure RunState where
  rest : List Token
  position : Nat
  /-- The invocations that were entered, the last one first. -/
  entered : List Invocation
deriving DecidableEq, Repr

structure RunError where
  mismatch : Mismatch
  entered : List Invocation
deriving DecidableEq, Repr

namespace RunState

def start (tokens : List Token) : RunState := ⟨tokens, 0, []⟩

/-- The kinds of the tokens to come. -/
def kinds (s : RunState) : List TypeId := s.rest.map (·.kind)

def fail {α : Type} (s : RunState) (rule : RuleId) (occurrence : Option Occurrence)
    (expected : Expectation) : Except RunError (α × RunState) :=
  .error ⟨⟨rule, occurrence, expected, s.rest.head?, s.position⟩, s.entered⟩

end RunState

namespace Parser

def names (p : Parser) : Names := p.grammar.names p.vocabulary

/-- The name of a rule, a question mark for a number outside the grammar. -/
def ruleName (p : Parser) (id : RuleId) : String :=
  match p.grammar.get? id with
  | some r => r.name
  | none => "?"

/-- How mismatches name types and rules. -/
def mismatchNames (p : Parser) : Names := ⟨p.vocabulary.name, p.ruleName⟩

def predictor? (p : Parser) (key : DecisionKey) : Option Predictor := p.table.lookup key

/-- The branch of a decision for the tokens to come. -/
def predict (p : Parser) (key : DecisionKey) (s : RunState) : Option Nat :=
  (p.predictor? key).bind fun f => f.predict s.kinds

/-- The types that may start another iteration. -/
def firstTypes (p : Parser) (key : DecisionKey) : List TypeId :=
  match p.predictor? key with
  | some f => f.firstTypes 0
  | none => []

/-- Run a body as long as `goesOn` holds, at most `room` times. Every iteration consumes a token, so
the number of tokens to come is room enough. -/
def runLoop (goesOn : RunState → Bool)
    (body : RunState → Except RunError (List TreeNode × RunState)) :
    Nat → RunState → Except RunError (List TreeNode × RunState)
  | 0, s => .ok ([], s)
  | room + 1, s =>
    if goesOn s then do
      let (first, s) ← body s
      let (more, s) ← runLoop goesOn body room s
      return (first ++ more, s)
    else .ok ([], s)

section

variable (p : Parser) (call : RuleId → RunState → Except RunError (ParseTree × RunState))
  (rule : RuleId)

mutual

/-- Run a node of a rule; `call` runs the rules it refers to. -/
def runNode : Node → RunState → Except RunError (List TreeNode × RunState)
  | .terminal t i, s =>
    match s.rest with
    | token :: rest =>
      if p.vocabulary.accepts t token.kind then
        .ok ([.token token], { s with rest, position := s.position + 1 })
      else s.fail rule (some ⟨.token, i⟩) (.tokens [t])
    | [] => s.fail rule (some ⟨.token, i⟩) (.tokens [t])
  | .sequence parts, s => runAll parts s
  | .optional body i, s =>
    if p.predict ⟨rule, ⟨.optional, i⟩⟩ s = some 0 then runNode body s else .ok ([], s)
  | .repetition body i atLeastOne, s =>
    let key : DecisionKey := ⟨rule, ⟨.ofRepetition atLeastOne, i⟩⟩
    if atLeastOne && p.predict key s ≠ some 0 then
      s.fail rule (some key.occurrence) (.tokens (p.firstTypes key))
    else runLoop (fun s => p.predict key s = some 0) (runNode body) s.rest.length s
  | .alternation alternatives i description, s =>
    let refused := s.fail rule (some ⟨.choice, i⟩) (.description description)
    match p.predict ⟨rule, ⟨.choice, i⟩⟩ s with
    | some branch => runNth alternatives branch refused s
    | none => refused
  | .ruleRef r _, s => do
    let (tree, s) ← call r s
    return ([tree.node], s)

def runAll : List Node → RunState → Except RunError (List TreeNode × RunState)
  | [], s => .ok ([], s)
  | n :: rest, s => do
    let (first, s) ← runNode n s
    let (more, s) ← runAll rest s
    return (first ++ more, s)

/-- Run the alternative with a number; where there is none, the choice is refused. -/
def runNth : List Node → Nat → Except RunError (List TreeNode × RunState) → RunState →
    Except RunError (List TreeNode × RunState)
  | [], _, refused, _ => refused
  | n :: _, 0, _, s => runNode n s
  | _ :: rest, i + 1, refused, s => runNth rest i refused s

end

end

/-- Run a rule with room for so many nested invocations, this one included. -/
def runRule (p : Parser) (room : Nat) (id : RuleId) (s : RunState) :
    Except RunError (ParseTree × RunState) :=
  match p.grammar.get? id with
  | none => s.fail id none (.tokens [])
  | some r =>
    match room with
    | 0 => s.fail id none (.nestingLimit p.config.nestingLimit)
    | room + 1 => do
      let entered := ⟨id, s.position, p.config.nestingLimit - (room + 1)⟩ :: s.entered
      let (children, s) ← runNode p (runRule p room) id r.body { s with entered }
      return (⟨id, children⟩, s)

/-- A parse with everything that was entered on the way. -/
def run (p : Parser) (id : RuleId) (tokens : List Token) :
    Except RunError (ParseTree × RunState) := do
  let (tree, s) ← p.runRule p.config.nestingLimit id (.start tokens)
  if p.config.wholeInput && !s.rest.isEmpty then s.fail id none .endOfInput
  else return (tree, s)

/-- Parse a token list, starting with a rule. -/
def parse (p : Parser) (id : RuleId) (tokens : List Token) : Except Mismatch ParseTree :=
  match p.run id tokens with
  | .ok (tree, _) => .ok tree
  | .error e => .error e.mismatch

/-- The invocations entered during a parse, in their order. -/
def entered (p : Parser) (id : RuleId) (tokens : List Token) : List Invocation :=
  match p.run id tokens with
  | .ok (_, s) => s.entered.reverse
  | .error e => e.entered.reverse

def parseEvents (p : Parser) (id : RuleId) (tokens : List Token) : List Event :=
  (p.entered id tokens).map fun call =>
    ⟨.trace, s!"enter {p.ruleName call.rule} at token {call.position}"⟩

end Parser

end StrongLL
