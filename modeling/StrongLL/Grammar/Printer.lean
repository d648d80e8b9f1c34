import StrongLL.Grammar.Basic
import StrongLL.Vocabulary

/-!
# StrongLL.Grammar.Printer

The written form of rule bodies: `[a]` for an optional part, `{a}` and `{a}+` for repetitions, bars
between alternatives, blanks between the parts of a sequence, and `()` for an empty one. A sequence
or a choice within a sequence stands in parentheses.
-/

namespace StrongLL

/-- How types and rules are called. -/
structure Names where
  type : TypeId → String
  rule : RuleId → String

namespace Grammar

/-- The name of a rule; a number outside the grammar is written as such. -/
def ruleText (g : Grammar) (id : RuleId) : String :=
  match g.get? id with
  | some r => r.name
  | none => s!"r{id}"

def names (g : Grammar) (v : Vocabulary) : Names := ⟨v.name, g.ruleText⟩

end Grammar

namespace Node

/-- A node that is set in parentheses within a sequence. -/
def isCompound : Node → Bool
  | sequence _ | alternation .. => true
  | terminal .. | optional .. | repetition .. | ruleRef .. => false

mutual

def text (names : Names) : Node → String
  | terminal t _ => names.type t
  | sequence parts => if parts.isEmpty then "()" else " ".intercalate (partTexts names parts)
  | optional body _ => "[" ++ body.text names ++ "]"
  | repetition body _ atLeastOne =>
    "\x7b" ++ body.text names ++ "\x7d" ++ (if atLeastOne then "+" else "")
  | alternation alternatives _ _ => " | ".intercalate (alternativeTexts names alternatives)
  | ruleRef r _ => names.rule r

def partTexts (names : Names) : List Node → List String
  | [] => []
  | n :: rest =>
    (if n.isCompound then "(" ++ n.text names ++ ")" else n.text names) :: partTexts names rest

def alternativeTexts (names : Names) : List Node → List String
  | [] => []
  | n :: rest => n.text names :: alternativeTexts names rest

end

end Node

end StrongLL
