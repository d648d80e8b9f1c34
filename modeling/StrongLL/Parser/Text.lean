import StrongLL.Lexer.Scan
import StrongLL.Parser.Run

/-!
# StrongLL.Parser.Text

From a text to its tree: tokens first, then the parse.
-/

namespace StrongLL

/-- Why a text has no parse tree. -/
inductive TextError where
  | scan (e : ScanError)
  | mismatch (e : Mismatch)
deriving DecidableEq, Repr

namespace Parser

variable {ρ : Type} [Regex.Engine ρ]

/-- Cut a text into tokens and parse them, starting with a rule. -/
def parseText (p : Parser) (l : Lexer ρ) (id : RuleId) (text : String) :
    Except TextError ParseTree := do
  let streams ← (l.tokenize text).mapError .scan
  (p.parse id streams.main).mapError .mismatch

def textEvents (p : Parser) (l : Lexer ρ) (id : RuleId) (text : String) : List Event :=
  l.scanEvents text
    ++ match l.tokenize text with
      | .ok streams => p.parseEvents id streams.main
      | .error _ => []

end Parser

namespace TextError

def message (names : Names) : TextError → String
  | scan e => e.message
  | mismatch e => e.message names

end TextError

end StrongLL
