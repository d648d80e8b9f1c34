/-!
# StrongLL.Text.CharSet

Sets of characters as closed ranges of code points. The operations keep the ranges ascending and
apart. Surrogates are no characters: a complement leaves them out, so a complement or intersection
without characters has no ranges.
-/

namespace StrongLL

structure CharSet where
  ranges : List (Nat × Nat)
deriving DecidableEq, Repr

namespace CharSet

/-- The largest code point. -/
def top : Nat := 0x10FFFF

def empty : CharSet := ⟨[]⟩

def isEmpty (s : CharSet) : Bool := s.ranges.isEmpty

/-- Every character of the set is ASCII. -/
def isAscii (s : CharSet) : Bool := s.ranges.all (·.2 < 128)

def range (lo hi : Char) : CharSet := ⟨[(lo.toNat, hi.toNat)]⟩

def single (c : Char) : CharSet := range c c

/-- The only character of a set that has just one. -/
def only? (s : CharSet) : Option Char :=
  match s.ranges with
  | [(lo, hi)] => if lo = hi then some (Char.ofNat lo) else none
  | _ => none

def contains (s : CharSet) (c : Char) : Bool :=
  s.ranges.any fun r => r.1 ≤ c.toNat && c.toNat ≤ r.2

/-- Put a range among ascending ranges and join what touches it. -/
def insertRange (lo hi : Nat) : List (Nat × Nat) → List (Nat × Nat)
  | [] => [(lo, hi)]
  | (a, b) :: rest =>
    if hi + 1 < a then (lo, hi) :: (a, b) :: rest
    else if b + 1 < lo then (a, b) :: insertRange lo hi rest
    else insertRange (min lo a) (max hi b) rest

def union (s t : CharSet) : CharSet :=
  ⟨t.ranges.foldl (fun ranges r => insertRange r.1 r.2 ranges) s.ranges⟩

/-- The code points from `start` on that ascending ranges leave out. -/
def gaps (start : Nat) : List (Nat × Nat) → List (Nat × Nat)
  | [] => if start ≤ top then [(start, top)] else []
  | (lo, hi) :: rest =>
    if start < lo then (start, lo - 1) :: gaps (hi + 1) rest else gaps (hi + 1) rest

def complement (s : CharSet) : CharSet := ⟨gaps 0 (insertRange 0xD800 0xDFFF s.ranges)⟩

def inter (s t : CharSet) : CharSet := (s.complement.union t.complement).complement

def diff (s t : CharSet) : CharSet := s.inter t.complement

def symmDiff (s t : CharSet) : CharSet := (s.diff t).union (t.diff s)

/-- The part of a set between two code points, moved up by `up` and down by `down`. -/
def shifted (s : CharSet) (lo hi up down : Nat) : CharSet :=
  ⟨s.ranges.filterMap fun r =>
    let a := max r.1 lo
    let b := min r.2 hi
    if a ≤ b then some (a + up - down, b + up - down) else none⟩

/-- Add the other case of every ASCII letter. -/
def ignoreCase (s : CharSet) : CharSet :=
  (s.union (s.shifted 'a'.toNat 'z'.toNat 0 32)).union (s.shifted 'A'.toNat 'Z'.toNat 32 0)

end CharSet

end StrongLL
