import Mathlib.Data.List.Basic
import Mathlib.Data.List.Induction
import Mathlib.Data.List.Nodup

/-!
# StrongLL.Proofs.InTurn

Lists that are gone through from the front, where what is said of an element may depend on the
elements before it:

* `inTurn f xs`    — what `f` says of the elements of `xs`, one after the other.
* `inTurn_concat`  — an element more at the end, one judgement more at the most.
* `head?_inTurn_cons` — the first judgement of a list is that of its first element, if there is one.
-/

namespace StrongLL

variable {α β : Type}

/-- What `f` says of the elements of a list, given those before each of them. -/
def inTurn (f : List α → α → Option β) (xs : List α) : List β :=
  xs.zipIdx.filterMap fun (x, i) => f (xs.take i) x

variable {f : List α → α → Option β}

@[simp] theorem inTurn_nil : inTurn f [] = [] := rfl

theorem inTurn_concat (f : List α → α → Option β) (xs : List α) (x : α) :
    inTurn f (xs ++ [x]) = inTurn f xs ++ (f xs x).toList := by
  have hfront : ∀ y ∈ xs.zipIdx, f ((xs ++ [x]).take y.2) y.1 = f (xs.take y.2) y.1 := by
    rintro ⟨y, i⟩ hy
    obtain ⟨hi, -⟩ := List.getElem?_eq_some_iff.mp (List.mem_zipIdx_iff_getElem?.mp hy)
    rw [List.take_append_of_le_length (Nat.le_of_lt hi)]
  rw [inTurn, List.zipIdx_append, List.filterMap_append, List.filterMap_congr hfront]
  cases h : f xs x <;> simp [inTurn, h]

theorem inTurn_cons (f : List α → α → Option β) (x : α) (xs : List α) :
    inTurn f (x :: xs) = (f [] x).toList ++ inTurn (fun before => f (x :: before)) xs := by
  induction xs using List.reverseRecOn with
  | nil => simpa using inTurn_concat f [] x
  | append_singleton xs y ih =>
    rw [← List.cons_append, inTurn_concat, inTurn_concat, ih, List.append_assoc]

/-- The first judgement of a list is that of its first element, or else that of the rest. -/
theorem head?_inTurn_cons (f : List α → α → Option β) (x : α) (xs : List α) :
    (inTurn f (x :: xs)).head? = (f [] x).or (inTurn (fun before => f (x :: before)) xs).head? := by
  rw [inTurn_cons, List.head?_append]
  cases f [] x <;> rfl

theorem inTurn_concat_eq_nil_iff {xs : List α} {x : α} :
    inTurn f (xs ++ [x]) = [] ↔ inTurn f xs = [] ∧ f xs x = none := by
  rw [inTurn_concat, List.append_eq_nil_iff, Option.toList_eq_nil_iff]

/-- All values are different if each is new behind those before it. -/
theorem nodup_map_concat_iff {g : α → β} {xs : List α} {x : α} :
    ((xs ++ [x]).map g).Nodup ↔ (xs.map g).Nodup ∧ g x ∉ xs.map g := by
  rw [List.map_append, List.map_singleton, ← List.concat_eq_append, List.nodup_concat, and_comm]

end StrongLL
