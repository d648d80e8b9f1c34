import StrongLL.Token

/-!
# StrongLL.Prediction.PathSet

Paths of token types and sets of them. A set is a list without duplicates in the order in which
its paths were found; that order shows in error messages and in lists of expected tokens.
-/

namespace StrongLL

abbrev Path := List TypeId

abbrev PathSet := List Path

namespace PathSet

/-- The set of the empty path. -/
def epsilon : PathSet := [[]]

def union (s t : PathSet) : PathSet := (s ++ t).eraseDups

/-- Extend each path shorter than `k` by the paths of `tails room`, where `room` is what the path
lacks to length `k`. Other paths stay as they are. -/
def extend (k : Nat) (heads : PathSet) (tails : Nat → PathSet) : PathSet :=
  (heads.flatMap fun p =>
    if k ≤ p.length then [p] else (tails (k - p.length)).map (p ++ ·)).eraseDups

/-- Append to each path shorter than `k` every path of the second set, cut to length `k`. -/
def append (k : Nat) (s t : PathSet) : PathSet :=
  extend k s fun room => t.map (·.take room)

/-- What the paths shorter than `k` lack to length `k`, in the order of the paths. -/
def rooms (k : Nat) (s : PathSet) : List Nat :=
  ((s.filter (·.length < k)).map (k - ·.length)).eraseDups

/-- `extend` with tails that take effects, each computed once. -/
def extendM {m : Type → Type} [Monad m] (k : Nat) (heads : PathSet) (tails : Nat → m PathSet) :
    m PathSet := do
  let known ← (rooms k heads).mapM fun room => do return (room, ← tails room)
  return extend k heads fun room => (known.lookup room).getD []

theorem mem_union {s t : PathSet} {p : Path} : p ∈ union s t ↔ p ∈ s ∨ p ∈ t := by
  simp [union, List.mem_eraseDups]

theorem mem_extend {k : Nat} {s : PathSet} {tails : Nat → PathSet} {q : Path} :
    q ∈ extend k s tails ↔
      ∃ p ∈ s, (k ≤ p.length ∧ q = p) ∨
        (p.length < k ∧ ∃ t ∈ tails (k - p.length), q = p ++ t) := by
  simp only [extend, List.mem_eraseDups, List.mem_flatMap]
  refine exists_congr fun p => and_congr_right fun _ => ?_
  by_cases h : k ≤ p.length
  · simp [h, Nat.not_lt.mpr h]
  · simp [h, Nat.lt_of_not_le h, eq_comm]

end PathSet

end StrongLL
