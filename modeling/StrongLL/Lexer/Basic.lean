import StrongLL.Vocabulary
import StrongLL.Regex.Engine
import StrongLL.Event

/-!
# StrongLL.Lexer.Basic

The construction of lexers:

* `Recognizer`  — a pattern made ready for matching.
* `LexerEntry`  — a token type with its recognizer and the position of its longer alternative.
* `Lexer.build` — checks the token types in three passes, first their declarations, then their
  patterns, then their longer alternatives, and stops at the first fault.

The engine of the regular expressions is told by the type `ρ` of its programs. Unless another one is
asked for, a lexer has automata.
-/

namespace StrongLL

inductive Recognizer (ρ : Type) where
  | literal (text : List Char)
  | regex (program : ρ)
deriving DecidableEq, Repr

namespace Recognizer

/-- The length of a match at the start of a text. A match of no characters counts as none. -/
def matchLength? {ρ : Type} [Regex.Engine ρ] (text : List Char) (r : Recognizer ρ) : Option Nat :=
  (match r with
    | literal l => if l.isPrefixOf text then some l.length else none
    | regex program => Regex.Engine.matchEnd? program text).filter (0 < ·)

end Recognizer

structure LexerEntry (ρ : Type) where
  kind : TypeId
  recognizer : Recognizer ρ
  channel : Channel
  /-- A position among the lexer's entries. -/
  longerAlt : Option Nat
deriving DecidableEq, Repr

/-- The entries are tried in their order. -/
structure Lexer (ρ : Type := Automaton) where
  vocabulary : Vocabulary
  entries : List (LexerEntry ρ)
deriving DecidableEq, Repr

inductive LexerFault where
  | unknownType (id : TypeId)
  | undeclaredCategory (id category : TypeId)
  | duplicateName (name : String)
  | invalidPattern (id : TypeId)
  | emptyMatch (id : TypeId)
  | unknownLongerAlt (id alt : TypeId)
  | unmatchableLongerAlt (id alt : TypeId)
deriving DecidableEq, Repr

namespace LexerFault

def describeId (id : TypeId) : String := s!"TokenTypeId({id})"

def message (v : Vocabulary) : LexerFault → String
  | unknownType id => s!"token type {describeId id} is not part of the vocabulary"
  | undeclaredCategory id category =>
    s!"token type `{v.name id}` belongs to category {describeId category}, "
      ++ "which is not declared before it"
  | duplicateName name => s!"token type name `{name}` is used more than once"
  | invalidPattern id => s!"invalid pattern for token type `{v.name id}`"
  | emptyMatch id => s!"pattern of token type `{v.name id}` can match the empty string"
  | unknownLongerAlt id alt =>
    s!"longer alternative `{v.name alt}` of token type `{v.name id}` is not handed to the lexer"
  | unmatchableLongerAlt id alt =>
    s!"longer alternative `{v.name alt}` of token type `{v.name id}` has no pattern"

end LexerFault

namespace Lexer

/-- Every type is declared, its categories are declared before it, and its name is new. -/
def checkDeclared (v : Vocabulary) (seen : List String) : List TypeId → Except LexerFault Unit
  | [] => .ok ()
  | id :: rest =>
    match v.get? id with
    | none => .error (.unknownType id)
    | some t =>
      match v.undeclaredCategory? id with
      | some category => .error (.undeclaredCategory id category)
      | none =>
        if t.name ∈ seen then .error (.duplicateName t.name)
        else checkDeclared v (t.name :: seen) rest

section

variable (ρ : Type) [Regex.Engine ρ]

open Regex (Engine)

/-- The program of a pattern's regular expression, held to the start of the text. The source is read
together with the group around it. -/
def program? (source : String) : Option ρ := Engine.compile? ("\\A(?:" ++ source ++ ")")

/-- The recognizer of a type; a category has none. -/
def recognizer? (id : TypeId) : Pattern → Except LexerFault (Option (Recognizer ρ))
  | .category => .ok none
  | .literal text =>
    if text.isEmpty then .error (.emptyMatch id) else .ok (some (.literal text.toList))
  | .regex source =>
    match program? ρ source with
    | none => .error (.invalidPattern id)
    | some program =>
      if (Engine.matchEnd? program []).isSome then .error (.emptyMatch id)
      else .ok (some (.regex program))

/-- The entries of all types that have a pattern, still without longer alternatives. -/
def compile (v : Vocabulary) : List TypeId → Except LexerFault (List (LexerEntry ρ))
  | [] => .ok []
  | id :: rest =>
    match v.get? id with
    | none => compile v rest
    | some t => do
      match ← recognizer? ρ id t.pattern with
      | none => compile v rest
      | some recognizer =>
        return { kind := id, recognizer, channel := t.channel, longerAlt := none }
          :: (← compile v rest)

end

/-- The position of the longer alternative of a type. -/
def longerAlt? (v : Vocabulary) (order kinds : List TypeId) (id : TypeId) :
    Except LexerFault (Option Nat) :=
  match (v.get? id).bind (·.longerAlt) with
  | none => .ok none
  | some alt =>
    if alt ∉ order then .error (.unknownLongerAlt id alt)
    else
      match kinds.idxOf? alt with
      | some i => .ok (some i)
      | none => .error (.unmatchableLongerAlt id alt)

/-- The entries with their longer alternatives. -/
def resolve {ρ : Type} (v : Vocabulary) (order kinds : List TypeId) :
    List (LexerEntry ρ) → Except LexerFault (List (LexerEntry ρ))
  | [] => .ok []
  | entry :: rest => do
    let longerAlt ← longerAlt? v order kinds entry.kind
    return { entry with longerAlt } :: (← resolve v order kinds rest)

/-- A lexer whose entries stand in the order of the list. -/
def build (v : Vocabulary) (order : List TypeId) (ρ : Type := Automaton) [Regex.Engine ρ] :
    Except LexerFault (Lexer ρ) := do
  checkDeclared v [] order
  let entries ← compile ρ v order
  return ⟨v, ← resolve v order (entries.map (·.kind)) entries⟩

/-- Reported when a lexer has been built from `types` token types. -/
def builtEvent {ρ : Type} (l : Lexer ρ) (types : Nat) : Event :=
  ⟨.debug, s!"lexer with {l.entries.length} matchers out of {types} token types"⟩

end Lexer

end StrongLL
