import StrongLL.Regex.Class
import StrongLL.Regex.Size
import StrongLL.Text.Alphabetic
import StrongLL.Text.Numeric

/-!
# StrongLL.Regex.Reader

The written form of regular expressions:

* `Regex.Frame` — the group being read: its finished alternatives and the items of the present one.
* `Regex.read?` — the expression written by a text, if it is well formed, does not nest beyond
  `Regex.nestLimit` and does not grow beyond `Regex.sizeLimit`.

A flag holds to the end of the group that sets it, across alternatives. Look-around,
back-references and Unicode properties by name are refused. Layers of the written form are groups,
repetitions, sequences of two or more items, choices, and those of character classes.
-/

namespace StrongLL

namespace Regex

/-! ## Counts -/

/-- The greatest number that a count may hold. -/
def countLimit : Nat := 4294967295

/-- Read a number with blanks around it. -/
def count? (f : Flags) (input : List Char) : Option (Nat × List Char) :=
  let (digits, rest) := f.span Char.isDigit (input.dropWhile Text.isBlank)
  let n := digits.foldl (fun n c => n * 10 + (c.toNat - '0'.toNat)) 0
  if digits.isEmpty || countLimit < n then none else some (n, rest.dropWhile Text.isBlank)

/-- Read the counts of a repetition behind the opening brace, with the closing one: the least
number, and the greatest if there is one. -/
def counts? (f : Flags) (input : List Char) : Option (Nat × Option Nat × List Char) := do
  let (least, rest) ← count? f (f.skip input)
  match rest with
  | '}' :: rest => return (least, some least, rest)
  | ',' :: rest =>
    match f.skip rest with
    | '}' :: rest => return (least, none, rest)
    | rest =>
      let (most, rest) ← count? f rest
      match rest with
      | '}' :: rest => if least ≤ most then return (least, some most, rest) else none
      | _ => none
  | _ => none

/-- A question mark behind an operator turns its preference round. -/
def greed (f : Flags) : List Char → Bool × List Char
  | '?' :: rest => (f.swapGreed, rest)
  | rest => (!f.swapGreed, rest)

/-! ## Groups -/

/-- What an opening parenthesis starts: flags for the rest of the group around it, or a group of
its own with its flags and all group names so far. -/
inductive Opening where
  | directive (flags : Flags)
  | group (flags : Flags) (names : List String) (numbered : Bool)

/-- The flag letters up to a colon or closing parenthesis, each at most once, with at most one
hyphen, behind which flags are switched off. -/
def flagLetters? (f : Flags) (seen : List Char) :
    List Char → Option (Flags × List Char × List Char)
  | [] => none
  | c :: rest =>
    if c = ':' || c = ')' then
      if seen.head? = some '-' then none else some (f, seen, c :: rest)
    else if c ∈ seen then none
    else if c = '-' then flagLetters? f (c :: seen) rest
    else do flagLetters? (← f.set (decide ('-' ∉ seen)) c) (c :: seen) rest

def isNameStart (c : Char) : Bool := c = '_' || Text.isAlphabetic c

def isNameChar (c : Char) : Bool :=
  isNameStart c || Text.isNumeric c || c = '.' || c = '[' || c = ']'

/-- A group name up to its closing bracket, not used before. -/
def groupName? (names : List String) (input : List Char) : Option (String × List Char) :=
  let (written, rest) := input.span (· ≠ '>')
  let name := String.ofList written
  match rest with
  | _ :: rest =>
    if written.head?.any isNameStart && written.all isNameChar && name ∉ names then
      some (name, rest)
    else none
  | [] => none

/-- Read what follows an opening parenthesis, up to the body of its group. -/
def opening? (f : Flags) (names : List String) (input : List Char) :
    Option (Opening × List Char) :=
  match f.skip input with
  | '?' :: 'P' :: '<' :: rest =>
    (groupName? names rest).map fun (name, rest) => (.group f (name :: names) true, rest)
  | '?' :: '<' :: rest =>
    (groupName? names rest).map fun (name, rest) => (.group f (name :: names) true, rest)
  | '?' :: rest => do
    match ← flagLetters? f [] rest with
    | (flags, _, ':' :: rest) => return (.group flags names false, rest)
    | (flags, seen, _ :: rest) => if seen.isEmpty then none else return (.directive flags, rest)
    | (_, _, []) => none
  | rest => some (.group f names true, rest)

/-- The group being read. `level` counts the groups around it and `groups` the numbered groups so
far. `done` holds its finished alternatives and `items` the items of the present one, the last one
first in both. An item `none` is a flag directive, which matches empty text and cannot be
repeated. -/
structure Frame where
  flags : Flags
  names : List String
  level : Nat
  groups : Nat
  done : List (Written Regex)
  items : List (Option (Written Regex))

namespace Frame

def start (flags : Flags) (names : List String) (level groups : Nat) : Frame :=
  ⟨flags, names, level, groups, [], []⟩

def maxDepth (parts : List (Written Regex)) : Nat := (parts.map (·.depth)).foldl max 0

/-- The alternative made of the items so far. -/
def alternative? (g : Frame) : Option (Written Regex) :=
  match g.items with
  | [] | [none] => some ⟨empty, 0⟩
  | [some r] => some r
  | items =>
    let parts := items.reverse.filterMap id
    Written.layer? (concat (parts.map (·.value))) (maxDepth parts)

/-- The expression of all alternatives so far. -/
def value? (g : Frame) : Option (Written Regex) := do
  let last ← g.alternative?
  match g.done with
  | [] => return last
  | done =>
    let parts := (last :: done).reverse
    Written.layer? (alternation (parts.map (·.value))) (maxDepth parts)

def push (g : Frame) (r : Regex) : Frame := { g with items := some ⟨r, 0⟩ :: g.items }

/-- Finish the present alternative. -/
def bar? (g : Frame) : Option Frame := do
  return { g with done := (← g.alternative?) :: g.done, items := [] }

/-- Repeat the last item. -/
def repeatLast? (g : Frame) (greedy : Bool) (least : Nat) (most : Option Nat) : Option Frame :=
  match g.items with
  | some r :: rest => do
    let r ← Written.layer? (iterate greedy least most r.value) r.depth
    return { g with items := some r :: rest }
  | _ => none

/-- Take a finished group as an item. A numbered group has the next number behind those opened
before it. -/
def close? (g inner : Frame) (numbered : Bool) : Option Frame := do
  let r ← inner.value?
  let body := if numbered then group (g.groups + 1) r.value else r.value
  let item ← Written.layer? body r.depth
  return { g with names := inner.names, groups := inner.groups, items := some item :: g.items }

end Frame

/-- Read a group up to its closing parenthesis or the end of the text, without either. `room`
exceeds the length of the input. -/
def readGroup : Nat → Frame → List Char → Option (Frame × List Char)
  | 0, _, _ => none
  | room + 1, g, input =>
    let f := g.flags
    match f.skip input with
    | [] => some (g, [])
    | ')' :: rest => some (g, ')' :: rest)
    | '|' :: rest => do readGroup room (← g.bar?) rest
    | '(' :: rest => do
      match ← opening? f g.names rest with
      | (.directive flags, rest) =>
        readGroup room { g with flags, items := none :: g.items } rest
      | (.group flags names numbered, rest) =>
        if nestLimit ≤ g.level then none
        else
          let groups := if numbered then g.groups + 1 else g.groups
          match ← readGroup room (Frame.start flags names (g.level + 1) groups) rest with
          | (inner, ')' :: rest) => readGroup room (← g.close? inner numbered) rest
          | _ => none
    | '[' :: rest => do
      let (s, rest) ← class? f rest
      readGroup room { g with items := some ⟨ofSet s.value, s.depth⟩ :: g.items } rest
    | '?' :: rest => do
      let (greedy, rest) := greed f rest
      readGroup room (← g.repeatLast? greedy 0 (some 1)) rest
    | '*' :: rest => do
      let (greedy, rest) := greed f rest
      readGroup room (← g.repeatLast? greedy 0 none) rest
    | '+' :: rest => do
      let (greedy, rest) := greed f rest
      readGroup room (← g.repeatLast? greedy 1 none) rest
    | '{' :: rest => do
      let (least, most, rest) ← counts? f rest
      let (greedy, rest) := greed f (f.skip rest)
      readGroup room (← g.repeatLast? greedy least most) rest
    | '\\' :: rest => do
      match ← escape? f rest with
      | (.char c, rest) => readGroup room (g.push (f.literal c)) rest
      | (.set s, rest) => readGroup room (g.push (ofSet s)) rest
      | (.assertion a, rest) => readGroup room (g.push (assertion a)) rest
    | '.' :: rest => do readGroup room (g.push (ofSet (← f.dot?))) rest
    | '^' :: rest => readGroup room (g.push (assertion f.caret)) rest
    | '$' :: rest => readGroup room (g.push (assertion f.dollar)) rest
    | c :: rest => readGroup room (g.push (f.literal c)) rest

def ofChars? (source : List Char) : Option Regex := do
  match ← readGroup (source.length + 1) (Frame.start {} [] 0 0) source with
  | (g, []) =>
    let r ← g.value?
    if r.value.isSmall then return r.value else none
  | _ => none

def read? (source : String) : Option Regex := ofChars? source.toList

end Regex

end StrongLL
