import StrongLL.Token

/-!
# StrongLL.Vocabulary

The token types of a language and their categories:

* `TypeSpec`   — what an author says about a token type: name, pattern, channel, longer
  alternative, categories.
* `TokenType`  — a declared type, with the set of types it stands for.
* `Vocabulary` — all declared types; the number of a type is its position.

A category counts only if it was declared before its members, so the sets of ancestors are
complete when a type is declared and never change afterwards.
-/

namespace StrongLL

inductive Pattern where
  /-- A pure category: the lexer never matches it. -/
  | category
  | literal (text : String)
  /-- The source of a regular expression, tried at the current place. -/
  | regex (source : String)
deriving DecidableEq, Repr

namespace Pattern

def isMatchable : Pattern → Bool
  | category => false
  | literal _ | regex _ => true

end Pattern

/-- Where the tokens of a type go. -/
inductive Channel where
  | main
  | skipped
  | named (name : String)
deriving DecidableEq, Repr

structure TypeSpec where
  name : String
  pattern : Pattern := .category
  channel : Channel := .main
  longerAlt : Option TypeId := none
  categories : List TypeId := []
deriving DecidableEq, Repr

structure TokenType extends TypeSpec where
  /-- The type itself, its categories, their categories and so on, each once. -/
  ancestors : List TypeId
deriving DecidableEq, Repr

structure Vocabulary where
  types : List TokenType
deriving DecidableEq, Repr

namespace Vocabulary

def empty : Vocabulary := ⟨[]⟩

def size (v : Vocabulary) : Nat := v.types.length

def get? (v : Vocabulary) (id : TypeId) : Option TokenType := v.types[id]?

/-- The ancestors of a declared type; an undeclared one has none. -/
def ancestors (v : Vocabulary) (id : TypeId) : List TypeId :=
  match v.get? id with
  | some t => t.ancestors
  | none => []

/-- Declare a type. Its number is the size of the vocabulary before. -/
def add (v : Vocabulary) (spec : TypeSpec) : Vocabulary :=
  let ancestors := (v.size :: spec.categories.flatMap v.ancestors).eraseDups
  ⟨v.types ++ [{ spec with ancestors }]⟩

def ofSpecs (specs : List TypeSpec) : Vocabulary := specs.foldl add empty

/-- The first type declared under a name. -/
def lookup (v : Vocabulary) (name : String) : Option TypeId :=
  v.types.findIdx? (·.name = name)

/-- The name of a type, a question mark for a number outside the vocabulary. -/
def name (v : Vocabulary) (id : TypeId) : String :=
  match v.get? id with
  | some t => t.name
  | none => "?"

def names (v : Vocabulary) : List String := v.types.map (·.name)

/-- The first category of a type whose number is not below the type's own. -/
def undeclaredCategory? (v : Vocabulary) (id : TypeId) : Option TypeId :=
  (v.get? id).bind fun t => t.categories.find? (id ≤ ·)

/-- `expected` is the type `actual` or one of its categories. -/
def accepts (v : Vocabulary) (expected actual : TypeId) : Bool :=
  expected ∈ v.ancestors actual

/-- The type itself and the types it is a category of, in ascending order. -/
def members (v : Vocabulary) (expected : TypeId) : List TypeId :=
  (List.range v.size).filter (v.accepts expected)

@[simp] theorem size_add (v : Vocabulary) (spec : TypeSpec) : (v.add spec).size = v.size + 1 := by
  simp [add, size]

theorem get?_add_of_lt {v : Vocabulary} {id : TypeId} (spec : TypeSpec) (h : id < v.size) :
    (v.add spec).get? id = v.get? id :=
  List.getElem?_append_left h

theorem mem_members {v : Vocabulary} {expected actual : TypeId} :
    actual ∈ v.members expected ↔ actual < v.size ∧ v.accepts expected actual := by
  simp [members]

end Vocabulary

end StrongLL
