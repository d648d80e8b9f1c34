import StrongLL.Grammar.Printer

/-!
# StrongLL.Grammar.Defect

Defects of a grammar that show in its rules one by one, before their paths are computed.
-/

namespace StrongLL

inductive Defect where
  /-- A declared rule never got a body. -/
  | undefinedRule (rule : RuleId)
  /-- A rule got a second body. -/
  | duplicateRule (rule : RuleId)
  /-- A body was given for a rule that was not declared by then. -/
  | undeclaredRule (rule : RuleId)
  /-- A rule invokes one that is not part of the grammar. -/
  | unknownRule (caller : RuleId)
  /-- A rule consumes a type that is not part of the vocabulary. -/
  | unknownType (rule : RuleId)
  /-- A type stands before one of its categories. -/
  | undeclaredCategory (type : TypeId)
  /-- A rule invokes another one twice with one index. -/
  | duplicateOccurrence (caller target : RuleId) (index : Nat)
  | emptyAlternation (rule : RuleId) (decision : Occurrence)
  /-- The repeated body matches the empty input. -/
  | emptyRepetition (rule : RuleId) (decision : Occurrence) (body : Node)
  | invalidLookahead
deriving Repr

namespace Defect

def message (names : Names) : Defect → String
  | undefinedRule r => s!"rule `{names.rule r}` is not defined"
  | duplicateRule r => s!"rule `{names.rule r}` is defined more than once"
  | undeclaredRule r => s!"rule `r{r}` invokes a rule handle that does not belong to this grammar"
  | unknownRule r =>
    s!"rule `{names.rule r}` invokes a rule handle that does not belong to this grammar"
  | unknownType r =>
    s!"rule `{names.rule r}` consumes a token type that does not belong to the vocabulary"
  | undeclaredCategory t =>
    s!"token type `{names.type t}` belongs to a category that is not declared before it"
  | duplicateOccurrence r target i =>
    s!"rule `{names.rule r}` invokes `{names.rule target}` more than once with index {i}"
  | emptyAlternation r d => s!"{d.text} in rule `{names.rule r}` has no alternatives"
  | emptyRepetition r d body =>
    s!"{d.text} in rule `{names.rule r}` repeats `{body.text names}`, which can match empty input"
  | invalidLookahead => "lookahead depth must be at least 1"

end Defect

end StrongLL
