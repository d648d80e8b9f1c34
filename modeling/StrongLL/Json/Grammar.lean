import StrongLL.Analysis
import StrongLL.Parser.Text

/-!
# StrongLL.Json.Grammar

JSON documents as a language of this library: token types, lexer order, rules, and the reader made
of them.
-/

namespace StrongLL

namespace Json

/-! ## Token types -/

def keyword : TypeId := 0
def trueWord : TypeId := 1
def falseWord : TypeId := 2
def nullWord : TypeId := 3
def leftCurly : TypeId := 4
def rightCurly : TypeId := 5
def leftSquare : TypeId := 6
def rightSquare : TypeId := 7
def comma : TypeId := 8
def colon : TypeId := 9
def string : TypeId := 10
def number : TypeId := 11
def whiteSpace : TypeId := 12

/-- A quoted string without bare quotes or backslashes, with escapes. -/
def stringSource : String :=
  "\"(?:[^\\\\\"]|\\\\(?:[bfnrtv\"\\\\/]|u[0-9a-fA-F]\x7b4\x7d))*\""

def numberSource : String := "-?(?:0|[1-9]\\d*)(?:\\.\\d+)?(?:[eE][+-]?\\d+)?"

def whiteSpaceSource : String := "[ \\t\\n\\r]+"

def literal (name text : String) : TypeSpec := { name, pattern := .literal text }

def keywordLiteral (name text : String) : TypeSpec :=
  { name, pattern := .literal text, categories := [keyword] }

/-- The types in the order of their numbers. -/
def specs : List TypeSpec :=
  [{ name := "Keyword" },
    keywordLiteral "True" "true", keywordLiteral "False" "false", keywordLiteral "Null" "null",
    literal "LCurly" "\x7b", literal "RCurly" "\x7d", literal "LSquare" "[", literal "RSquare" "]",
    literal "Comma" ",", literal "Colon" ":",
    { name := "StringLiteral", pattern := .regex stringSource },
    { name := "NumberLiteral", pattern := .regex numberSource },
    { name := "WhiteSpace", pattern := .regex whiteSpaceSource, channel := .skipped }]

def vocabulary : Vocabulary := .ofSpecs specs

/-- The order of the lexer: white space, numbers and strings, punctuation, words. -/
def order : List TypeId :=
  [keyword, whiteSpace, number, string, comma, colon, leftCurly, rightCurly, leftSquare,
    rightSquare, trueWord, falseWord, nullWord]

/-! ## Rules -/

def object : RuleId := 0
def objectItem : RuleId := 1
def array : RuleId := 2
def value : RuleId := 3

def ruleNames : List String := ["object", "objectItem", "array", "value"]

/-- Items of one rule with commas between them, or none. -/
def commaSeparated (item : RuleId) : Step :=
  .optional [.call 1 item, .many [.token comma, .call 2 item]]

def objectBody : List Step := [.token leftCurly, commaSeparated objectItem, .token rightCurly]

def objectItemBody : List Step := [.token string, .token colon, .call 1 value]

def arrayBody : List Step := [.token leftSquare, commaSeparated value, .token rightSquare]

def valueBody : List Step :=
  [.choice "a value"
    [[.token string], [.token number], [.call 1 object], [.call 1 array], [.token trueWord],
      [.token falseWord], [.token nullWord]]]

def draft (config : Config) : Draft :=
  let declared :=
    ruleNames.foldl (fun d name => (Draft.declare d name).2) (Draft.empty vocabulary config)
  (((declared.define object objectBody).define objectItem objectItemBody).define array
    arrayBody).define value valueBody

/-- A lexer and a parser for JSON documents. -/
structure Reader where
  lexer : Lexer
  parser : Parser

inductive ReaderFault where
  | lexer (e : LexerFault)
  | grammar (e : GrammarFault)
deriving Repr

namespace ReaderFault

def message (names : Names) : ReaderFault → String
  | lexer e => e.message vocabulary
  | grammar e => e.message names

end ReaderFault

namespace Reader

def build (config : Config) : Except ReaderFault Reader := do
  let lexer ← (Lexer.build vocabulary order).mapError .lexer
  let parser ← (draft config).parser.mapError .grammar
  return ⟨lexer, parser⟩

/-- Reported while the reader is built. -/
def buildEvents (config : Config) : List Event :=
  match Lexer.build vocabulary order with
  | .ok lexer => lexer.builtEvent order.length :: (draft config).analysisEvents
  | .error _ => []

/-- The tree of a document. -/
def read (r : Reader) (text : String) : Except TextError ParseTree :=
  r.parser.parseText r.lexer value text

def readEvents (r : Reader) (text : String) : List Event :=
  r.parser.textEvents r.lexer value text

end Reader

end Json

end StrongLL
