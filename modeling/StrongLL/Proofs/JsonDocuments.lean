import StrongLL.Json.Grammar
import StrongLL.Proofs.Tiling

/-!
# StrongLL.Proofs.JsonDocuments

JSON documents as RFC 8259 describes them, apart from any lexer and parser:

* `IsWhite`    — insignificant white space.
* `IsNumber`, `IsString` — the texts of numbers and of strings.
* `IsScalar`   — the tokens that are a value of their own.
* `IsValue`    — the text of a value, its tokens, and how deep rules are nested in it.
* `IsDocument` — a value with white space around it.

A value is nested once in itself. An array adds its own rule and that of the value to the nesting of
its elements, and an object also that of the member.
-/

namespace StrongLL

namespace Json

/-! ## Characters -/

def whiteCharacters : List Char := [' ', '\t', '\n', '\r']

def nonzeroDigits : List Char := ['1', '2', '3', '4', '5', '6', '7', '8', '9']

def digits : List Char := '0' :: nonzeroDigits

def hexDigits : List Char :=
  digits ++ ['A', 'B', 'C', 'D', 'E', 'F', 'a', 'b', 'c', 'd', 'e', 'f']

/-- The characters that stand for a character of a string behind a backslash. -/
def escapes : List Char := ['"', '\\', '/', 'b', 'f', 'n', 'r', 't']

/-- The character may stand for itself in a string: it is no control character, no quotation mark
and no backslash. -/
def IsUnescaped (c : Char) : Prop :=
  (0x20 ≤ c.toNat ∧ c.toNat ≤ 0x21) ∨ (0x23 ≤ c.toNat ∧ c.toNat ≤ 0x5B) ∨
    (0x5D ≤ c.toNat ∧ c.toNat ≤ 0x10FFFF)

def IsWhite (text : List Char) : Prop := ∀ c ∈ text, c ∈ whiteCharacters

instance : DecidablePred IsWhite := List.decidableBAll (· ∈ whiteCharacters)

/-- A structural character, with any white space around it. -/
def IsStructural (c : Char) (text : List Char) : Prop :=
  ∃ before after, IsWhite before ∧ IsWhite after ∧ text = before ++ c :: after

/-! ## Numbers -/

def IsDigits (text : List Char) : Prop := text ≠ [] ∧ ∀ c ∈ text, c ∈ digits

instance : DecidablePred IsDigits := fun text =>
  @instDecidableAnd _ _ inferInstance (List.decidableBAll (· ∈ digits) text)

/-- Zero, or digits of which the first one is not zero. -/
inductive IsInt : List Char → Prop where
  | zero : IsInt ['0']
  | positive {c : Char} {rest : List Char} :
      c ∈ nonzeroDigits → (∀ d ∈ rest, d ∈ digits) → IsInt (c :: rest)

inductive IsFraction : List Char → Prop where
  | none : IsFraction []
  | some {text : List Char} : IsDigits text → IsFraction ('.' :: text)

inductive IsExponent : List Char → Prop where
  | none : IsExponent []
  | unsigned {e : Char} {text : List Char} :
      e ∈ ['e', 'E'] → IsDigits text → IsExponent (e :: text)
  | signed {e sign : Char} {text : List Char} :
      e ∈ ['e', 'E'] → sign ∈ ['-', '+'] → IsDigits text → IsExponent (e :: sign :: text)

inductive IsNumber : List Char → Prop where
  | positive {int fraction exponent : List Char} :
      IsInt int → IsFraction fraction → IsExponent exponent →
      IsNumber (int ++ fraction ++ exponent)
  | negative {int fraction exponent : List Char} :
      IsInt int → IsFraction fraction → IsExponent exponent →
      IsNumber ('-' :: (int ++ fraction ++ exponent))

/-! ## Strings -/

inductive IsCharacter : List Char → Prop where
  | unescaped {c : Char} : IsUnescaped c → IsCharacter [c]
  | escaped {c : Char} : c ∈ escapes → IsCharacter ['\\', c]
  | codeUnit {w x y z : Char} :
      w ∈ hexDigits → x ∈ hexDigits → y ∈ hexDigits → z ∈ hexDigits →
      IsCharacter ['\\', 'u', w, x, y, z]

def IsString (text : List Char) : Prop :=
  ∃ characters : List (List Char), (∀ x ∈ characters, IsCharacter x) ∧
    text = '"' :: (characters.flatten ++ ['"'])

/-! ## Values -/

/-- Values without parts. -/
inductive IsScalar : Piece → Prop where
  | trueWord : IsScalar ⟨trueWord, ['t', 'r', 'u', 'e']⟩
  | falseWord : IsScalar ⟨falseWord, ['f', 'a', 'l', 's', 'e']⟩
  | nullWord : IsScalar ⟨nullWord, ['n', 'u', 'l', 'l']⟩
  | string {text : List Char} : IsString text → IsScalar ⟨string, text⟩
  | number {text : List Char} : IsNumber text → IsScalar ⟨number, text⟩

/-- The tokens of the structural characters, each of one character. -/
def punctuation : List (TypeId × Char) :=
  [(leftCurly, '\x7b'), (rightCurly, '\x7d'), (leftSquare, '['), (rightSquare, ']'), (comma, ','),
    (colon, ':')]

mutual

inductive IsValue : List Char → List Piece → Nat → Prop where
  | scalar {x : Piece} : IsScalar x → IsValue x.image [x] 1
  | emptyArray {left right : List Char} :
      IsStructural '[' left → IsStructural ']' right →
      IsValue (left ++ right) [⟨leftSquare, ['[']⟩, ⟨rightSquare, [']']⟩] 2
  | array {left text right : List Char} {tokens : List Piece} {n : Nat} :
      IsStructural '[' left → IsElements text tokens n → IsStructural ']' right →
      IsValue (left ++ text ++ right)
        (⟨leftSquare, ['[']⟩ :: tokens ++ [⟨rightSquare, [']']⟩]) (n + 2)
  | emptyObject {left right : List Char} :
      IsStructural '\x7b' left → IsStructural '\x7d' right →
      IsValue (left ++ right) [⟨leftCurly, ['\x7b']⟩, ⟨rightCurly, ['\x7d']⟩] 2
  | object {left text right : List Char} {tokens : List Piece} {n : Nat} :
      IsStructural '\x7b' left → IsMembers text tokens n → IsStructural '\x7d' right →
      IsValue (left ++ text ++ right)
        (⟨leftCurly, ['\x7b']⟩ :: tokens ++ [⟨rightCurly, ['\x7d']⟩]) (n + 3)

inductive IsElements : List Char → List Piece → Nat → Prop where
  | one {text : List Char} {tokens : List Piece} {n : Nat} :
      IsValue text tokens n → IsElements text tokens n
  | more {text separator others : List Char} {tokens otherTokens : List Piece} {n m : Nat} :
      IsValue text tokens n → IsStructural ',' separator → IsElements others otherTokens m →
      IsElements (text ++ separator ++ others) (tokens ++ ⟨comma, [',']⟩ :: otherTokens) (max n m)

inductive IsMember : List Char → List Piece → Nat → Prop where
  | mk {key separator text : List Char} {tokens : List Piece} {n : Nat} :
      IsString key → IsStructural ':' separator → IsValue text tokens n →
      IsMember (key ++ separator ++ text) (⟨string, key⟩ :: ⟨colon, [':']⟩ :: tokens) n

inductive IsMembers : List Char → List Piece → Nat → Prop where
  | one {text : List Char} {tokens : List Piece} {n : Nat} :
      IsMember text tokens n → IsMembers text tokens n
  | more {text separator others : List Char} {tokens otherTokens : List Piece} {n m : Nat} :
      IsMember text tokens n → IsStructural ',' separator → IsMembers others otherTokens m →
      IsMembers (text ++ separator ++ others) (tokens ++ ⟨comma, [',']⟩ :: otherTokens) (max n m)

end

def IsDocument (text : List Char) (tokens : List Piece) (n : Nat) : Prop :=
  ∃ before value after, IsWhite before ∧ IsValue value tokens n ∧ IsWhite after ∧
    text = before ++ value ++ after

end Json

end StrongLL
