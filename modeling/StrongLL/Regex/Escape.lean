import StrongLL.Regex.Flags

/-!
# StrongLL.Regex.Escape

Escapes in written expressions:

* `Regex.Escape`  — what an escape stands for.
* `Regex.escape?` — reads one behind its backslash.

The escapes of letters are fixed; an ASCII character that is no letter, digit or angle bracket
stands for itself.
-/

namespace StrongLL

namespace Regex

inductive Escape where
  | char (c : Char)
  | set (s : CharSet)
  | assertion (a : Assertion)

def hexValue? (c : Char) : Option Nat :=
  if '0' ≤ c && c ≤ '9' then some (c.toNat - '0'.toNat)
  else if 'a' ≤ c && c ≤ 'f' then some (c.toNat - 'a'.toNat + 10)
  else if 'A' ≤ c && c ≤ 'F' then some (c.toNat - 'A'.toNat + 10)
  else none

def hexNumber? (digits : List Char) : Option Nat :=
  digits.foldl (fun n c => do return (← n) * 16 + (← hexValue? c)) (some 0)

/-- The character of a code point; surrogates and numbers beyond the last one have none. -/
def character? (n : Nat) : Option Char := if n.isValidChar then some (Char.ofNat n) else none

/-- Read a code point in hexadecimal digits, a fixed number of them or any within braces. -/
def hexEscape? (f : Flags) (digits : Nat) (input : List Char) : Option (Char × List Char) :=
  let isDigit (c : Char) : Bool := (hexValue? c).isSome
  match f.skip input with
  | '{' :: rest =>
    match f.span isDigit rest with
    | (written, '}' :: rest) =>
      if written.isEmpty then none
      else do return (← character? (← hexNumber? written), f.skip rest)
    | _ => none
  | rest =>
    let (written, rest) := f.spanFrom isDigit false digits rest
    if written.length < digits then none
    else do return (← character? (← hexNumber? written), rest)

def wordEdge? : String → Option WordEdge
  | "start" => some .start
  | "end" => some .stop
  | "start-half" => some .noneBefore
  | "end-half" => some .noneAfter
  | _ => none

/-- Read the name of an edge in braces behind the letter `b`. Without a name the letter stands
alone, and a brace starts a repetition. -/
def namedEdge? (f : Flags) (input : List Char) : Option (WordEdge × List Char) :=
  match input with
  | '{' :: rest =>
    match f.span (fun c => c.isAlpha || c = '-') rest with
    | ([], _) => some (.boundary, input)
    | (name, '}' :: rest) => (wordEdge? (String.ofList name)).map (·, rest)
    | _ => none
  | _ => some (.boundary, input)

def escape? (f : Flags) : List Char → Option (Escape × List Char)
  | [] => none
  | c :: rest =>
    match c with
    | 'x' => do
      let (d, after) ← hexEscape? f 2 rest
      -- two digits beyond ASCII are a byte of no character where Unicode is off
      if f.unicode || d.toNat < 128 || (f.skip rest).head? = some '{' then return (.char d, after)
      else none
    | 'u' => (hexEscape? f 4 rest).map fun (d, rest) => (.char d, rest)
    | 'U' => (hexEscape? f 8 rest).map fun (d, rest) => (.char d, rest)
    | 'a' => some (.char '\x07', rest)
    | 'f' => some (.char '\x0c', rest)
    | 't' => some (.char '\t', rest)
    | 'n' => some (.char '\n', rest)
    | 'r' => some (.char '\r', rest)
    | 'v' => some (.char '\x0b', rest)
    | 'A' => some (.assertion .textStart, rest)
    | 'z' => some (.assertion .textEnd, rest)
    | 'b' => (namedEdge? f rest).map fun (e, rest) => (.assertion (f.edge e), rest)
    | 'B' => some (.assertion (f.edge .noBoundary), rest)
    | '<' => some (.assertion (f.edge .start), rest)
    | '>' => some (.assertion (f.edge .stop), rest)
    | _ =>
      match f.named? c with
      | some s => some (.set s, rest)
      | none => if c.toNat < 128 && !c.isAlphanum then some (.char c, rest) else none

end Regex

end StrongLL
