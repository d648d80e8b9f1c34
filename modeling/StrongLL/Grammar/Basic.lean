import StrongLL.Token

/-!
# StrongLL.Grammar.Basic

Grammars:

* `Node`          — the bodies of rules.
* `Pending`       — a part that is still to come: a node, or further iterations of a body.
* `Occurrence`    — a construct within a rule, by its kind and its number among those of the kind.
* `Grammar`       — the rules; the number of a rule is its position.
* `Node.preorder` — a node and all nodes within it, each before its parts.
-/

namespace StrongLL

abbrev RuleId := Nat

inductive Node where
  /-- One token of a type or category. -/
  | terminal (type : TypeId) (occurrence : Nat)
  | sequence (parts : List Node)
  | optional (body : Node) (occurrence : Nat)
  | repetition (body : Node) (occurrence : Nat) (atLeastOne : Bool)
  /-- A choice; the description stands for it in error messages. -/
  | alternation (alternatives : List Node) (occurrence : Nat) (description : String)
  | ruleRef (rule : RuleId) (occurrence : Nat)
deriving Inhabited, Repr

inductive Pending where
  | node (n : Node)
  /-- Zero or more further iterations. -/
  | loop (body : Node)
deriving Repr

inductive Construct where
  | token
  | call
  | optional
  | many
  | atLeastOne
  | choice
deriving DecidableEq, Repr

namespace Construct

def text : Construct → String
  | token => "CONSUME"
  | call => "SUBRULE"
  | optional => "OPTION"
  | many => "MANY"
  | atLeastOne => "AT_LEAST_ONE"
  | choice => "OR"

def ofRepetition (isAtLeastOne : Bool) : Construct := if isAtLeastOne then atLeastOne else many

end Construct

structure Occurrence where
  construct : Construct
  index : Nat
deriving DecidableEq, Repr

namespace Occurrence

def text (o : Occurrence) : String := o.construct.text ++ toString o.index

end Occurrence

structure Rule where
  name : String
  body : Node
deriving Repr

structure Grammar where
  rules : List Rule
deriving Repr

namespace Grammar

def size (g : Grammar) : Nat := g.rules.length

def get? (g : Grammar) (id : RuleId) : Option Rule := g.rules[id]?

/-- The first rule of a name. -/
def lookup (g : Grammar) (name : String) : Option RuleId := g.rules.findIdx? (·.name = name)

end Grammar

namespace Node

/-- A lone node stands for itself, several or none for their sequence. -/
def ofParts : List Node → Node
  | [n] => n
  | ns => sequence ns

/-- The decision point a node is, if it is one. -/
def occurrence? : Node → Option Occurrence
  | optional _ i => some ⟨.optional, i⟩
  | repetition _ i atLeastOne => some ⟨.ofRepetition atLeastOne, i⟩
  | alternation _ i _ => some ⟨.choice, i⟩
  | terminal .. | sequence _ | ruleRef .. => none

mutual

def preorder : Node → List Node
  | terminal t i => [terminal t i]
  | sequence parts => sequence parts :: preorderAll parts
  | optional body i => optional body i :: body.preorder
  | repetition body i atLeastOne => repetition body i atLeastOne :: body.preorder
  | alternation alternatives i description =>
    alternation alternatives i description :: preorderAll alternatives
  | ruleRef r i => [ruleRef r i]

def preorderAll : List Node → List Node
  | [] => []
  | n :: rest => n.preorder ++ preorderAll rest

end

end Node

end StrongLL
