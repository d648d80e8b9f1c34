import StrongLL.Grammar.Body

/-!
# StrongLL.Grammar.Recorder

The recording of a body while its steps are taken one after the other:

* `Recorder`         — the bodies begun and not yet ended, and the numbering.
* `Recorder.capture` — the node of a body that is begun, recorded and ended.
* `Step.record`      — one step. A decision takes its number, then its bodies are captured, then its
  node is added to the body around it.
* `Step.recordRule`  — the node of the body of a rule and the defects in it.
-/

namespace StrongLL

structure Recorder where
  /-- The nodes so far of every body that is being recorded, the innermost body first. -/
  frames : List (List Node)
  numbering : Numbering

namespace Recorder

/-- Nothing is recorded yet of the body of a rule. -/
def start : Recorder := ⟨[[]], .empty⟩

def begin (r : Recorder) : Recorder := { r with frames := [] :: r.frames }

/-- Add a node to the innermost body. -/
def push (n : Node) (r : Recorder) : Recorder :=
  match r.frames with
  | frame :: outer => { r with frames := (frame ++ [n]) :: outer }
  | [] => r

/-- End the innermost body. -/
def finish (r : Recorder) : Node × Recorder :=
  match r.frames with
  | frame :: outer => (.ofParts frame, { r with frames := outer })
  | [] => (.ofParts [], r)

def capture (body : Recorder → Recorder) (r : Recorder) : Node × Recorder := (body r.begin).finish

/-- Take a number, or whatever the numbering has to give. -/
def take {α : Type} (f : Numbering → α × Numbering) (r : Recorder) : α × Recorder :=
  ((f r.numbering).1, { r with numbering := (f r.numbering).2 })

def report (d : Defect) (r : Recorder) : Recorder := { r with numbering := r.numbering.report d }

end Recorder

namespace Step

mutual

def record (c : RuleScope) : Step → Recorder → Recorder
  | token t, r =>
    let (n, r) := r.take (·.token c t)
    r.push n
  | call i target, r =>
    let (n, r) := r.take (·.call c i target)
    r.push n
  | optional body, r =>
    let (i, r) := r.take (·.draw .optional)
    let (n, r) := r.capture (recordAll c body)
    r.push (.optional n i)
  | many body, r =>
    let (i, r) := r.take (·.draw .many)
    let (n, r) := r.capture (recordAll c body)
    r.push (.repetition n i false)
  | atLeastOne body, r =>
    let (i, r) := r.take (·.draw .atLeastOne)
    let (n, r) := r.capture (recordAll c body)
    r.push (.repetition n i true)
  | choice description alternatives, r =>
    let (i, r) := r.take (·.draw .choice)
    let (ns, r) := recordAlternatives c alternatives r
    let r := if ns.isEmpty then r.report (.emptyAlternation c.rule ⟨.choice, i⟩) else r
    r.push (.alternation ns i description)

def recordAll (c : RuleScope) : List Step → Recorder → Recorder
  | [], r => r
  | step :: rest, r => recordAll c rest (step.record c r)

/-- A node for each of several bodies. None of them is added to the body around them. -/
def recordAlternatives (c : RuleScope) : List (List Step) → Recorder → List Node × Recorder
  | [], r => ([], r)
  | body :: rest, r =>
    let (n, r) := r.capture (recordAll c body)
    let (ns, r) := recordAlternatives c rest r
    (n :: ns, r)

end

def recordRule (c : RuleScope) (body : List Step) : Node × List Defect :=
  let (n, r) := (recordAll c body .start).finish
  (n, r.numbering.defects)

end Step

end StrongLL
