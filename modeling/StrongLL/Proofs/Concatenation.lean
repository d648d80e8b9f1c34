import StrongLL.Proofs.ExactSets

/-!
# StrongLL.Proofs.Concatenation

Appending as concatenation of sets of paths:

* `PathSet.Concatenates`    — a set holds what starts the concatenations of two sets, cut to `k`
  types.
* `PathSet.mem_append_iff`  — what appending gives: only the paths of the second set are cut.
* `PathSet.mem_append_assoc`, `PathSet.append_mono` — its algebra.
* `PathSet.append_exact`    — it gives the concatenation exactly if no path of the first set is too
  long to begin with.
-/

namespace StrongLL

namespace PathSet

variable {k : Nat} {s t u : PathSet}

/-- `r` holds the first `k` types of every path of `s` followed by one of `t`, and nothing else. -/
def Concatenates (k : Nat) (s t r : PathSet) : Prop :=
  ∀ q, q ∈ r ↔ ∃ p ∈ s, ∃ x ∈ t, q = (p ++ x).take k

/-- A path that is long enough is followed by nothing, which is the beginning of any path. -/
theorem mem_append_iff (ht : t ≠ []) {q : Path} :
    q ∈ append k s t ↔ ∃ p ∈ s, ∃ x ∈ t, q = p ++ x.take (k - p.length) := by
  obtain ⟨some, hsome⟩ := List.exists_mem_of_ne_nil t ht
  rw [mem_append]
  refine exists_congr fun p => and_congr_right fun _ => ?_
  constructor
  · rintro (⟨hlen, rfl⟩ | ⟨-, x, hx, rfl⟩)
    · exact ⟨some, hsome, by simp [Nat.sub_eq_zero_of_le hlen]⟩
    · exact ⟨x, hx, rfl⟩
  · rintro ⟨x, hx, rfl⟩
    obtain hlen | hlen := Nat.lt_or_ge p.length k
    · exact .inr ⟨hlen, x, hx, rfl⟩
    · exact .inl ⟨hlen, by simp [Nat.sub_eq_zero_of_le hlen]⟩

theorem append_ne_nil (hs : s ≠ []) (ht : t ≠ []) : append k s t ≠ [] := by
  obtain ⟨p, hp⟩ := List.exists_mem_of_ne_nil s hs
  obtain ⟨x, hx⟩ := List.exists_mem_of_ne_nil t ht
  exact List.ne_nil_of_mem ((mem_append_iff ht).mpr ⟨p, hp, x, hx, rfl⟩)

/-- What is cut off behind a second part is what a third part lacks. -/
theorem take_append_take (p x y : Path) :
    (x ++ y.take (k - x.length)).take (k - p.length) =
      x.take (k - p.length) ++ y.take (k - (p ++ x.take (k - p.length)).length) := by
  rw [List.take_append, List.take_take]
  congr 2
  rw [List.length_append, List.length_take]
  omega

theorem mem_append_assoc (ht : t ≠ []) (hu : u ≠ []) {q : Path} :
    q ∈ append k (append k s t) u ↔ q ∈ append k s (append k t u) := by
  rw [mem_append_iff hu, mem_append_iff (append_ne_nil ht hu)]
  constructor
  · rintro ⟨r, hr, y, hy, rfl⟩
    obtain ⟨p, hp, x, hx, rfl⟩ := (mem_append_iff ht).mp hr
    refine ⟨p, hp, _, (mem_append_iff hu).mpr ⟨x, hx, y, hy, rfl⟩, ?_⟩
    rw [take_append_take, List.append_assoc]
  · rintro ⟨p, hp, r, hr, rfl⟩
    obtain ⟨x, hx, y, hy, rfl⟩ := (mem_append_iff hu).mp hr
    refine ⟨_, (mem_append_iff ht).mpr ⟨p, hp, x, hx, rfl⟩, y, hy, ?_⟩
    rw [take_append_take, List.append_assoc]

theorem append_mono {s' t' : PathSet} (hs : s ⊆ s') (ht : t ⊆ t') :
    append k s t ⊆ append k s' t' := by
  intro q hq
  obtain ⟨p, hp, hq⟩ := mem_append.mp (FollowSets.append_subset ht hq)
  exact mem_append.mpr ⟨p, hs hp, hq⟩

/-- A path that is short enough is cut nowhere but in what follows it. -/
theorem concatenates_append_of_length_le (ht : t ≠ []) (hs : ∀ p ∈ s, p.length ≤ k) :
    Concatenates k s t (append k s t) := by
  intro q
  rw [mem_append_iff ht]
  refine exists_congr fun p => and_congr_right fun hp => ?_
  simp only [List.take_append, List.take_of_length_le (hs p hp)]

theorem Concatenates.length_le {r : PathSet} (h : Concatenates k s t r) :
    ∀ q ∈ r, q.length ≤ k := by
  intro q hq
  obtain ⟨p, -, x, -, rfl⟩ := (h q).mp hq
  exact List.length_take_le k _

/-- Every path of the first set begins one of the result. -/
theorem length_le_of_append (ht : t ≠ []) (h : ∀ q ∈ append k s t, q.length ≤ k) :
    ∀ p ∈ s, p.length ≤ k := by
  intro p hp
  obtain ⟨x, hx⟩ := List.exists_mem_of_ne_nil t ht
  have hlen := h _ ((mem_append_iff ht).mpr ⟨p, hp, x, hx, rfl⟩)
  rw [List.length_append] at hlen
  exact Nat.le_of_add_right_le hlen

/-- Appending follows each path of the first set by as much of each path of the second set as it
lacks to length `k`. That is concatenation cut to `k` types exactly if the first set has no longer
path, which would stay as it is. Either way it is associative and monotone. -/
theorem append_exact (ht : t ≠ []) :
    (append k s t).Nodup ∧
    (∀ q, q ∈ append k s t ↔ ∃ p ∈ s, ∃ x ∈ t, q = p ++ x.take (k - p.length)) ∧
    (Concatenates k s t (append k s t) ↔ ∀ p ∈ s, p.length ≤ k) ∧
    ((∀ q ∈ append k s t, q.length ≤ k) ↔ ∀ p ∈ s, p.length ≤ k) ∧
    (∀ u ≠ [], ∀ q, q ∈ append k (append k s t) u ↔ q ∈ append k s (append k t u)) ∧
    ∀ s' t', s ⊆ s' → t ⊆ t' → append k s t ⊆ append k s' t' := by
  have hshort := concatenates_append_of_length_le (k := k) (s := s) ht
  have hlong := length_le_of_append (k := k) (s := s) ht
  refine ⟨nodup_eraseDups _, fun q => mem_append_iff ht, ⟨fun h => hlong h.length_le, hshort⟩,
    ⟨hlong, fun h => (hshort h).length_le⟩, fun u hu q => mem_append_assoc ht hu,
    fun s' t' => append_mono⟩

theorem append_pairs_exact :
    Concatenates 2 [[0], [1, 2]] [[], [3, 4]] (append 2 [[0], [1, 2]] [[], [3, 4]]) ∧
    ¬ Concatenates 1 [[0], [1, 2]] [[], [3, 4]] (append 1 [[0], [1, 2]] [[], [3, 4]]) := by
  obtain ⟨-, -, hshort, -⟩ :=
    append_exact (k := 2) (s := [[0], [1, 2]]) (t := [[], [3, 4]]) (by decide)
  obtain ⟨-, -, hlong, -⟩ :=
    append_exact (k := 1) (s := [[0], [1, 2]]) (t := [[], [3, 4]]) (by decide)
  exact ⟨hshort.mpr (by decide), mt hlong.mp (by decide)⟩

/-- A path that is already too long is not cut. -/
theorem append_tooLong :
    append 1 [[1, 2]] [[]] = [[1, 2]] ∧
      ¬ Concatenates 1 [[1, 2]] [[]] (append 1 [[1, 2]] [[]]) := by
  have hresult : append 1 [[1, 2]] [[]] = [[1, 2]] := by decide
  refine ⟨hresult, fun h => ?_⟩
  have hlen := h.length_le [1, 2] (by rw [hresult]; exact List.mem_singleton.mpr rfl)
  exact absurd hlen (by decide)

end PathSet

end StrongLL
