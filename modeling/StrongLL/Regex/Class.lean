import StrongLL.Regex.Escape

/-!
# StrongLL.Regex.Class

Character classes in written expressions:

* `Regex.Written`    — a value with the nesting depth of its written form.
* `Regex.ClassFrame` — the class being read: what stands before its last operator, and the members
  since.
* `Regex.readClass`  — reads a class to its closing bracket.

Layers of the written form are brackets, unions of two or more members, and operators. Beyond
`Regex.nestLimit` layers, a written form is refused.
-/

namespace StrongLL

namespace Regex

def nestLimit : Nat := 250

structure Written (α : Type) where
  value : α
  depth : Nat

/-- One more layer around written forms of a depth. -/
def Written.layer? {α : Type} (value : α) (depth : Nat) : Option (Written α) :=
  if depth < nestLimit then some ⟨value, depth + 1⟩ else none

/-! ## Members -/

/-- Read one member: a character, which may start a range, or a set. -/
def classItem? (f : Flags) (input : List Char) : Option ((Char ⊕ CharSet) × List Char) := do
  let (item, rest) ← match input with
    | [] => none
    | '\\' :: rest => escape? f rest
    | c :: rest => some (.char c, rest)
  match item with
  | .char c => if f.unicode || c.toNat < 128 then return (.inl c, rest) else none
  | .set s => return (.inr s, rest)
  | .assertion _ => none

/-- Read a member or a range of members. A hyphen before the closing bracket or before another
hyphen starts no range. -/
def classRange? (f : Flags) (input : List Char) : Option (CharSet × List Char) := do
  let (low, rest) ← classItem? f input
  let rest := f.skip rest
  let isRange := match rest with
    | '-' :: after => (f.glimpse? after).all fun c => c ≠ ']' && c ≠ '-'
    | _ => false
  if isRange then
    let (high, rest) ← classItem? f (f.skip rest.tail)
    match low, high with
    | .inl a, .inl b => if a ≤ b then return (CharSet.range a b, rest) else none
    | _, _ => none
  else
    match low with
    | .inl c => return (CharSet.single c, rest)
    | .inr s => return (s, rest)

/-- Read a named class of ASCII characters behind its opening bracket, if there is one. -/
def namedClass? (f : Flags) (input : List Char) : Option (Option CharSet × List Char) :=
  match input with
  | ':' :: rest =>
    let (negated, rest) := match rest with
      | '^' :: rest => (true, rest)
      | _ => (false, rest)
    let (name, rest) := rest.span (· ≠ ':')
    match Text.asciiClass? (String.ofList name), rest with
    | some s, ':' :: ']' :: rest =>
      some (if negated then f.complement? (f.fold s) else some (f.fold s), rest)
    | _, _ => none
  | _ => none

/-! ## Brackets -/

inductive SetOperator where
  | inter
  | diff
  | symmDiff

def SetOperator.apply : SetOperator → CharSet → CharSet → CharSet
  | inter => CharSet.inter
  | diff => CharSet.diff
  | symmDiff => CharSet.symmDiff

/-- Before its first member, hyphens and then one closing bracket stand for themselves. -/
inductive ClassStage where
  | start
  | hyphens
  | members
deriving DecidableEq

/-- `level` counts the brackets around the class, `count` and `depth` belong to the members since
the last operator. -/
structure ClassFrame where
  level : Nat
  negated : Bool
  stage : ClassStage
  left : Option (Written CharSet × SetOperator)
  members : CharSet
  count : Nat
  depth : Nat

namespace ClassFrame

/-- Start a class behind its opening bracket. -/
def start (f : Flags) (level : Nat) (input : List Char) : ClassFrame × List Char :=
  match f.skip input with
  | '^' :: rest => (⟨level, true, .start, none, CharSet.empty, 0, 0⟩, rest)
  | rest => (⟨level, false, .start, none, CharSet.empty, 0, 0⟩, rest)

def right (k : ClassFrame) : Written CharSet :=
  ⟨k.members, if k.count < 2 then k.depth else k.depth + 1⟩

def combined (k : ClassFrame) : Written CharSet :=
  match k.left with
  | none => k.right
  | some (left, op) =>
    ⟨op.apply left.value k.right.value, max left.depth k.right.depth + 1⟩

/-- The set of a class that is complete. -/
def value? (f : Flags) (k : ClassFrame) : Option (Written CharSet) := do
  let s := k.combined
  Written.layer? (← if k.negated then f.complement? s.value else some s.value) s.depth

def add (k : ClassFrame) (stage : ClassStage) (s : CharSet) (depth : Nat) : ClassFrame :=
  { k with
    stage, members := k.members.union s, count := k.count + 1, depth := max k.depth depth }

def operate (k : ClassFrame) (op : SetOperator) : ClassFrame :=
  { k with
    stage := .members, left := some (k.combined, op), members := CharSet.empty, count := 0,
    depth := 0 }

end ClassFrame

/-- Read a class to its closing bracket. `room` exceeds the length of the input. -/
def readClass (f : Flags) : Nat → ClassFrame → List Char → Option (Written CharSet × List Char)
  | 0, _, _ => none
  | room + 1, k, input =>
    match f.skip input, k.stage with
    | [], _ => none
    | '-' :: rest, .start | '-' :: rest, .hyphens =>
      readClass f room (k.add .hyphens (CharSet.single '-') 0) rest
    | ']' :: rest, .start => readClass f room (k.add .members (CharSet.single ']') 0) rest
    | ']' :: rest, _ => (k.value? f).map (·, rest)
    | '[' :: rest, _ =>
      match namedClass? f rest with
      | some (s, rest) => do readClass f room (k.add .members (← s) 0) rest
      | none =>
        if nestLimit ≤ k.level then none
        else do
          let (inner, rest) := ClassFrame.start f (k.level + 1) rest
          let (s, rest) ← readClass f room inner rest
          readClass f room (k.add .members s.value s.depth) rest
    | '&' :: '&' :: rest, _ => readClass f room (k.operate .inter) rest
    | '-' :: '-' :: rest, _ => readClass f room (k.operate .diff) rest
    | '~' :: '~' :: rest, _ => readClass f room (k.operate .symmDiff) rest
    | input, _ => do
      let (s, rest) ← classRange? f input
      readClass f room (k.add .members (f.fold s) 0) rest

/-- Read a class behind its opening bracket. -/
def class? (f : Flags) (input : List Char) : Option (Written CharSet × List Char) :=
  let (k, rest) := ClassFrame.start f 0 input
  readClass f (rest.length + 1) k rest

end Regex

end StrongLL
