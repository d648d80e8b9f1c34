import StrongLL.Grammar.Defect

/-!
# StrongLL.Grammar.Body

Bodies of rules as authors give them, and the nodes they stand for:

* `Step`      — one step of a body, with the bodies nested in it.
* `Numbering` — the numbers given and the defects found so far within one rule.
* `Step.node` — the node of a step. Constructs are numbered from 1 in the order of the steps, each
  kind of decision and each token type for itself; a decision takes its number before the bodies in
  it.
-/

namespace StrongLL

inductive Step where
  | token (type : TypeId)
  /-- An invocation of a rule, with the index by which its author tells it from others. -/
  | call (index : Nat) (rule : RuleId)
  | optional (body : List Step)
  | many (body : List Step)
  | atLeastOne (body : List Step)
  | choice (description : String) (alternatives : List (List Step))
deriving Inhabited, Repr

/-- What the steps of a rule may refer to: the vocabulary, the number of rules, and the rule
itself. -/
structure RuleScope where
  vocabulary : Vocabulary
  ruleCount : Nat
  rule : RuleId

structure Numbering where
  tokens : List TypeId
  decisions : List Construct
  calls : List (RuleId × Nat)
  /-- The defects found, in the order of the steps. -/
  defects : List Defect

namespace Numbering

def empty : Numbering := ⟨[], [], [], []⟩

def report (s : Numbering) (d : Defect) : Numbering := { s with defects := s.defects ++ [d] }

def token (c : RuleScope) (t : TypeId) (s : Numbering) : Node × Numbering :=
  let s := if t < c.vocabulary.size then s else s.report (.unknownType c.rule)
  (.terminal t (s.tokens.count t + 1), { s with tokens := t :: s.tokens })

def call (c : RuleScope) (i : Nat) (r : RuleId) (s : Numbering) : Node × Numbering :=
  let s :=
    if c.ruleCount ≤ r then s.report (.unknownRule c.rule)
    else if (r, i) ∈ s.calls then s.report (.duplicateOccurrence c.rule r i)
    else { s with calls := (r, i) :: s.calls }
  (.ruleRef r i, s)

/-- Give a decision the next number of its kind. -/
def draw (d : Construct) (s : Numbering) : Nat × Numbering :=
  (s.decisions.count d + 1, { s with decisions := d :: s.decisions })

end Numbering

namespace Step

mutual

def node (c : RuleScope) : Step → Numbering → Node × Numbering
  | token t, s => s.token c t
  | call i r, s => s.call c i r
  | optional body, s =>
    let (i, s) := s.draw .optional
    let (parts, s) := nodes c body s
    (.optional (.ofParts parts) i, s)
  | many body, s =>
    let (i, s) := s.draw .many
    let (parts, s) := nodes c body s
    (.repetition (.ofParts parts) i false, s)
  | atLeastOne body, s =>
    let (i, s) := s.draw .atLeastOne
    let (parts, s) := nodes c body s
    (.repetition (.ofParts parts) i true, s)
  | choice description alternatives, s =>
    let (i, s) := s.draw .choice
    let (bodies, s) := bodyNodes c alternatives s
    (.alternation bodies i description,
      if bodies.isEmpty then s.report (.emptyAlternation c.rule ⟨.choice, i⟩) else s)

/-- The nodes of the steps of a body. -/
def nodes (c : RuleScope) : List Step → Numbering → List Node × Numbering
  | [], s => ([], s)
  | step :: rest, s =>
    let (n, s) := step.node c s
    let (ns, s) := nodes c rest s
    (n :: ns, s)

/-- A node for each of several bodies. -/
def bodyNodes (c : RuleScope) : List (List Step) → Numbering → List Node × Numbering
  | [], s => ([], s)
  | body :: rest, s =>
    let (parts, s) := nodes c body s
    let (ns, s) := bodyNodes c rest s
    (.ofParts parts :: ns, s)

end

/-- The node of the body of a rule and the defects in it. -/
def ruleNode (c : RuleScope) (body : List Step) : Node × List Defect :=
  let (parts, s) := nodes c body .empty
  (.ofParts parts, s.defects)

end Step

end StrongLL
