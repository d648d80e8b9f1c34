import StrongLL.Grammar.Printer

/-!
# StrongLL.Parser.Mismatch

A mismatch between a grammar and a token list: where it occurred, what was expected and what was
found.
-/

namespace StrongLL

inductive Expectation where
  /-- A token of one of these types. -/
  | tokens (types : List TypeId)
  /-- What the description of a choice says. -/
  | description (text : String)
  | endOfInput
  | nestingLimit (limit : Nat)
deriving DecidableEq, Repr

namespace Expectation

def text (names : Names) : Expectation → String
  | tokens [] => "nothing"
  | tokens [t] => names.type t
  | tokens ts => "one of " ++ ", ".intercalate (ts.map names.type)
  | description d => d
  | endOfInput => "end of input"
  | nestingLimit n => s!"at most {n} nested rule invocations"

end Expectation

structure Mismatch where
  rule : RuleId
  /-- Where in the rule; there is none if the rule as a whole is at fault. -/
  occurrence : Option Occurrence
  expected : Expectation
  /-- The next token, unless the input is used up. -/
  found : Option Token
  /-- The number of tokens before. -/
  position : Nat
deriving DecidableEq, Repr

namespace Mismatch

def siteText (e : Mismatch) : String :=
  match e.occurrence with
  | some o => " at " ++ o.text
  | none => ""

def foundText (e : Mismatch) : String :=
  match e.found with
  | some t => s!"`{t.image}` at {t.place.line}:{t.place.column}"
  | none => "end of input"

def message (names : Names) (e : Mismatch) : String :=
  s!"in `{names.rule e.rule}`{e.siteText}: expected {e.expected.text names}, found {e.foundText}"

end Mismatch

end StrongLL
