import StrongLL.Text.CharSet

/-!
# StrongLL.Text.Utf8

The UTF-8 forms of a set of characters, as sequences of byte ranges:

* `Utf8.sequences`   — the fewest sequences in ascending order: a form belongs to a character of the
  set if its bytes lie in the ranges of one sequence.
* `Utf8.prefixCount` — how many beginnings the sequences have, the whole ones counted too.
* `Utf8.nodes`       — the beginnings told apart only by what may follow them.
-/

namespace StrongLL.Text.Utf8

abbrev ByteRange := Nat × Nat

/-- The sequences of a first byte and `more` continuation bytes for the numbers from `lo` to `hi`.
The first byte holds the digits above the last `6 * more` bits, added to `mark`. -/
def split : (mark more lo hi : Nat) → List (List ByteRange)
  | mark, 0, lo, hi => [[(mark + lo, mark + hi)]]
  | mark, more + 1, lo, hi =>
    let unit := 64 ^ (more + 1)
    let after (first : Nat) (tails : List (List ByteRange)) : List (List ByteRange) :=
      tails.map ((mark + first, mark + first) :: ·)
    let a := lo / unit
    let b := hi / unit
    let below := lo % unit
    let above := hi % unit
    if a = b then after a (split 0x80 more below above)
    else
      let low := if below = 0 then [] else after a (split 0x80 more below (unit - 1))
      let high := if above = unit - 1 then [] else after b (split 0x80 more 0 above)
      let start := if below = 0 then a else a + 1
      let stop := if above = unit - 1 then b else b - 1
      let full :=
        if start ≤ stop then
          [(mark + start, mark + stop) :: List.replicate (more + 1) (0x80, 0xBF)]
        else []
      low ++ full ++ high

/-- Code points whose forms have equally many bytes, without the surrogates. -/
structure Block where
  mark : Nat
  more : Nat
  lo : Nat
  hi : Nat

def blocks : List Block :=
  [⟨0x00, 0, 0x0000, 0x007F⟩, ⟨0xC0, 1, 0x0080, 0x07FF⟩, ⟨0xE0, 2, 0x0800, 0xD7FF⟩,
   ⟨0xE0, 2, 0xE000, 0xFFFF⟩, ⟨0xF0, 3, 0x10000, CharSet.top⟩]

def sequences (s : CharSet) : List (List ByteRange) :=
  s.ranges.flatMap fun (lo, hi) =>
    blocks.flatMap fun b =>
      let lo := max lo b.lo
      let hi := min hi b.hi
      if lo ≤ hi then split b.mark b.more lo hi else []

/-- How much of the second sequence the first one does not begin with, too. -/
def fresh : List ByteRange → List ByteRange → Nat
  | r :: rest, s :: rest' => if r = s then fresh rest rest' else rest'.length + 1
  | _, rest => rest.length

/-- Equal beginnings stand next to each other, so each sequence adds what it does not share with
the one before it. -/
def prefixCount (previous : List ByteRange) : List (List ByteRange) → Nat
  | [] => 0
  | s :: rest => fresh previous s + prefixCount s rest

/-- What may follow each first range. -/
def branches : List (List ByteRange) → List (ByteRange × List (List ByteRange))
  | [] => []
  | [] :: rest => branches rest
  | (r :: tail) :: rest =>
    match branches rest with
    | (s, tails) :: others =>
      if r = s then (r, tail :: tails) :: others else (r, [tail]) :: (s, tails) :: others
    | [] => [(r, [tail])]

/-- What may follow the beginnings of up to `depth` ranges, each once. -/
def nodes : Nat → List (List (List ByteRange)) → List (List (List ByteRange))
  | 0, _ => []
  | depth + 1, level =>
    let next := level.flatMap fun tails => ((branches tails).map (·.2)).filter (· ≠ [[]])
    (level ++ nodes depth next.eraseDups).eraseDups

end StrongLL.Text.Utf8
