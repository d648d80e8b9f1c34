/-!
# StrongLL.Config

The choices an author makes for a grammar and its parser.
-/

namespace StrongLL

structure Config where
  /-- How many tokens ahead a decision may look. -/
  lookahead : Nat := 1
  /-- A parse has to consume all tokens. -/
  wholeInput : Bool := true
  /-- How many rule invocations may be active at once. -/
  nestingLimit : Nat := 128
deriving DecidableEq, Repr

end StrongLL
