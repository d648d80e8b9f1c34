import StrongLL.Config
import StrongLL.Event
import StrongLL.Grammar.Body

/-!
# StrongLL.Grammar.Draft

Grammars under construction:

* `Draft.declare` — a handle for a name, the same one each time.
* `Draft.define`  — a body for a handle; only the first one counts.
* `Draft.grammar` — the finished grammar, or everything that is wrong with its rules.
-/

namespace StrongLL

structure RuleDraft where
  name : String
  body : Option (List Step)
deriving Repr

structure Draft where
  vocabulary : Vocabulary
  config : Config
  rules : List RuleDraft
  /-- What was wrong with the definitions so far. -/
  misuses : List Defect

namespace Draft

def empty (v : Vocabulary) (config : Config) : Draft := ⟨v, config, [], []⟩

def declare (d : Draft) (name : String) : RuleId × Draft :=
  match d.rules.findIdx? (·.name = name) with
  | some id => (id, d)
  | none => (d.rules.length, { d with rules := d.rules ++ [⟨name, none⟩] })

def define (d : Draft) (id : RuleId) (body : List Step) : Draft :=
  match d.rules[id]? with
  | none => { d with misuses := d.misuses ++ [.undeclaredRule id] }
  | some r =>
    match r.body with
    | some _ => { d with misuses := d.misuses ++ [.duplicateRule id] }
    | none => { d with rules := d.rules.set id { r with body := some body } }

/-- A handle for a name and a body for it in one go. -/
def rule (d : Draft) (name : String) (body : List Step) : RuleId × Draft :=
  let (id, d) := d.declare name
  (id, d.define id body)

def names (d : Draft) : Names where
  type := d.vocabulary.name
  rule id :=
    match d.rules[id]? with
    | some r => r.name
    | none => s!"r{id}"

/-- The types that stand before one of their categories. -/
def categoryDefects (v : Vocabulary) : List Defect :=
  ((List.range v.size).filter fun id => (v.undeclaredCategory? id).isSome).map .undeclaredCategory

/-- A rule and the defects in it. -/
def finishRule (d : Draft) (id : RuleId) (r : RuleDraft) : Rule × List Defect :=
  match r.body with
  | some body =>
    let (node, defects) := Step.ruleNode ⟨d.vocabulary, d.rules.length, id⟩ body
    (⟨r.name, node⟩, defects)
  | none => (⟨r.name, .sequence []⟩, [.undefinedRule id])

def finishedRules (d : Draft) : List (Rule × List Defect) :=
  d.rules.zipIdx.map fun (r, id) => d.finishRule id r

def defects (d : Draft) : List Defect :=
  categoryDefects d.vocabulary ++ d.misuses
    ++ (if d.config.lookahead = 0 then [.invalidLookahead] else [])
    ++ d.finishedRules.flatMap (·.2)

def grammar (d : Draft) : Except (List Defect) Grammar :=
  if d.defects.isEmpty then .ok ⟨d.finishedRules.map (·.1)⟩ else .error d.defects

end Draft

namespace Grammar

/-- Reported when a grammar is complete: the number of rules, then every rule. -/
def ruleEvents (g : Grammar) (v : Vocabulary) : List Event :=
  ⟨.debug, s!"recorded {g.size} rules"⟩
    :: g.rules.map fun r => ⟨.trace, r.name ++ " := " ++ r.body.text (g.names v)⟩

end Grammar

end StrongLL
