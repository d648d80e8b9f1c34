import StrongLL.Parser.Run

/-!
# StrongLL.Parser.Moments

A run as a sequence of moments:

* `Task`        — a part of its rule that an invocation has still to run.
* `Frame`       — an active invocation with its tasks and what it has made so far.
* `Moment`      — all active invocations and the tokens still to come.
* `Parser.step` — the next moment.

Nothing bounds the number of steps, and invocations may be nested without a limit.
-/

namespace StrongLL

inductive Task where
  | node (n : Node)
  /-- Further iterations of a repetition. -/
  | loop (repetition : Occurrence) (body : Node)
deriving Repr

structure Frame where
  rule : RuleId
  /-- The number of tokens before its first one. -/
  position : Nat
  children : List TreeNode
  /-- The next one first. -/
  tasks : List Task
deriving Repr

namespace Frame

def push (f : Frame) (tasks : List Task) : Frame := { f with tasks := tasks ++ f.tasks }

def add (f : Frame) (made : List TreeNode) : Frame := { f with children := f.children ++ made }

end Frame

/-- The active invocations are listed from the innermost one outwards. -/
inductive Moment where
  /-- A rule is about to be entered. -/
  | calling (rule : RuleId) (outer : List Frame) (s : RunState)
  | working (frame : Frame) (outer : List Frame) (s : RunState)
  /-- An invocation has ended with a tree. -/
  | returning (tree : ParseTree) (outer : List Frame) (s : RunState)
  | ended (result : Except RunError (ParseTree × RunState))

namespace Moment

def start (r : RuleId) (tokens : List Token) : Moment := calling r [] (.start tokens)

/-- The active invocations. -/
def active : Moment → List Frame
  | calling _ outer _ => outer
  | working f outer _ => f :: outer
  | returning _ outer _ => outer
  | ended _ => []

end Moment

namespace Parser

/-- Enter a rule, unless as many invocations are active as the limit allows. -/
def enter (p : Parser) (limit : Option Nat) (r : RuleId) (outer : List Frame) (s : RunState) :
    Moment :=
  match p.grammar.get? r with
  | none => .ended (s.fail r none (.tokens []))
  | some rule =>
    match limit.filter (· ≤ outer.length) with
    | some n => .ended (s.fail r none (.nestingLimit n))
    | none =>
      .working ⟨r, s.position, [], [.node rule.body]⟩ outer
        { s with entered := ⟨r, s.position, outer.length⟩ :: s.entered }

/-- Begin a task of an invocation; `f` has the tasks after it. -/
def work (p : Parser) (f : Frame) (outer : List Frame) (s : RunState) : Task → Moment
  | .node (.terminal t i) =>
    match s.rest with
    | token :: rest =>
      if p.vocabulary.accepts t token.kind then
        .working (f.add [.token token]) outer { s with rest, position := s.position + 1 }
      else .ended (s.fail f.rule (some ⟨.token, i⟩) (.tokens [t]))
    | [] => .ended (s.fail f.rule (some ⟨.token, i⟩) (.tokens [t]))
  | .node (.sequence parts) => .working (f.push (parts.map .node)) outer s
  | .node (.optional body i) =>
    if p.predict ⟨f.rule, ⟨.optional, i⟩⟩ s = some 0 then .working (f.push [.node body]) outer s
    else .working f outer s
  | .node (.repetition body i false) =>
    .working (f.push [.loop ⟨.ofRepetition false, i⟩ body]) outer s
  | .node (.repetition body i true) =>
    let key : DecisionKey := ⟨f.rule, ⟨.ofRepetition true, i⟩⟩
    if p.predict key s = some 0 then
      .working (f.push [.node body, .loop key.occurrence body]) outer s
    else .ended (s.fail f.rule (some key.occurrence) (.tokens (p.firstTypes key)))
  | .node (.alternation alternatives i description) =>
    match (p.predict ⟨f.rule, ⟨.choice, i⟩⟩ s).bind (alternatives[·]?) with
    | some n => .working (f.push [.node n]) outer s
    | none => .ended (s.fail f.rule (some ⟨.choice, i⟩) (.description description))
  | .node (.ruleRef r _) => .calling r (f :: outer) s
  | .loop o body =>
    if p.predict ⟨f.rule, o⟩ s = some 0 then .working (f.push [.node body, .loop o body]) outer s
    else .working f outer s

def step (p : Parser) (limit : Option Nat) : Moment → Moment
  | .calling r outer s => p.enter limit r outer s
  | .working f outer s =>
    match f.tasks with
    | [] => .returning ⟨f.rule, f.children⟩ outer s
    | task :: tasks => p.work { f with tasks } outer s task
  | .returning t (f :: outer) s => .working (f.add [t.node]) outer s
  | .returning t [] s =>
    .ended
      (if p.config.wholeInput && !s.rest.isEmpty then s.fail t.rule none .endOfInput
      else .ok (t, s))
  | .ended result => .ended result

end Parser

end StrongLL
