import StrongLL.Grammar.Expansion

/-!
# StrongLL.Proofs.Expansion

Leftmost expansions one step at a time, and the opening paths of each kind of part:

* `Unfolds g x p xs`        — one step: the part `x` gives way to `xs` after emitting `p`.
* `Expands.rec_unfolds`     — induction over the steps, whatever the parts are.
* `Grammar.opens_append`    — the opening paths of a list of parts, from those of its pieces.
* `Grammar.opens_loop`      — iterations that emit nothing add no opening path.
* `Expands.exists_mid`      — an expansion passes through every prefix of what it emits.
-/

namespace StrongLL

/-- What one step of a leftmost expansion makes of the part it works on. -/
inductive Unfolds (g : Grammar) : Pending → Path → List Pending → Prop where
  | terminal {t : TypeId} {i : Nat} : Unfolds g (.node (.terminal t i)) [t] []
  | sequence {parts : List Node} : Unfolds g (.node (.sequence parts)) [] (parts.map .node)
  | skip {body : Node} {i : Nat} : Unfolds g (.node (.optional body i)) [] []
  | enter {body : Node} {i : Nat} : Unfolds g (.node (.optional body i)) [] [.node body]
  | many {body : Node} {i : Nat} :
      Unfolds g (.node (.repetition body i false)) [] [.loop body]
  | atLeastOne {body : Node} {i : Nat} :
      Unfolds g (.node (.repetition body i true)) [] [.node body, .loop body]
  | stop {body : Node} : Unfolds g (.loop body) [] []
  | again {body : Node} : Unfolds g (.loop body) [] [.node body, .loop body]
  | alternative {alternatives : List Node} {n : Node} {i : Nat} {description : String} :
      n ∈ alternatives →
      Unfolds g (.node (.alternation alternatives i description)) [] [.node n]
  | ruleRef {r : RuleId} {rule : Rule} {i : Nat} :
      g.get? r = some rule → Unfolds g (.node (.ruleRef r i)) [] [.node rule.body]

theorem Unfolds.length_le_one {g : Grammar} {x : Pending} {xs : List Pending} {p : Path}
    (h : Unfolds g x p xs) : p.length ≤ 1 := by
  cases h <;> simp

namespace Expands

variable {g : Grammar}

theorem step {x : Pending} {xs rest left : List Pending} {p q : Path} (hx : Unfolds g x p xs)
    (h : Expands g (xs ++ rest) q left) : Expands g (x :: rest) (p ++ q) left := by
  cases hx with
  | terminal => exact .terminal h
  | sequence => exact .sequence h
  | skip => exact .skip h
  | enter => exact .enter h
  | many => exact .many h
  | atLeastOne => exact .atLeastOne h
  | stop => exact .stop h
  | again => exact .again h
  | alternative hn => exact .alternative hn h
  | ruleRef hr => exact .ruleRef hr h

@[elab_as_elim]
theorem rec_unfolds {motive : ∀ xs p left, Expands g xs p left → Prop}
    (refl : ∀ xs, motive xs [] xs .refl)
    (step : ∀ {x : Pending} {xs rest left : List Pending} {p q : Path} (hx : Unfolds g x p xs)
      (h : Expands g (xs ++ rest) q left), motive (xs ++ rest) q left h →
      motive (x :: rest) (p ++ q) left (h.step hx))
    {xs : List Pending} {p : Path} {left : List Pending} (h : Expands g xs p left) :
    motive xs p left h := by
  induction h with
  | refl => exact refl _
  | terminal h ih => exact step .terminal h ih
  | sequence h ih => exact step .sequence h ih
  | skip h ih => exact step .skip h ih
  | enter h ih => exact step .enter h ih
  | many h ih => exact step .many h ih
  | atLeastOne h ih => exact step .atLeastOne h ih
  | stop h ih => exact step .stop h ih
  | again h ih => exact step .again h ih
  | alternative hn h ih => exact step (.alternative hn) h ih
  | ruleRef hr h ih => exact step (.ruleRef hr) h ih

theorem eq_nil_of_nil {left : List Pending} {p : Path} (h : Expands g [] p left) :
    p = [] ∧ left = [] := by
  cases h
  exact ⟨rfl, rfl⟩

/-- An expansion has not begun yet, or its first step is one of the first part. -/
theorem cases_cons {x : Pending} {rest left : List Pending} {p : Path}
    (h : Expands g (x :: rest) p left) :
    (p = [] ∧ left = x :: rest) ∨
      ∃ a xs q, Unfolds g x a xs ∧ p = a ++ q ∧ Expands g (xs ++ rest) q left := by
  generalize hz : x :: rest = zs at h
  induction h using rec_unfolds with
  | refl zs => exact .inl ⟨rfl, rfl⟩
  | @step y ys rest' left a q hu h _ =>
    cases hz
    exact .inr ⟨a, ys, q, hu, rfl, h⟩

theorem exists_mid {xs left : List Pending} {p : Path} (h : Expands g xs p left) :
    ∀ a b, p = a ++ b → ∃ mid, Expands g xs a mid ∧ Expands g mid b left := by
  induction h using rec_unfolds with
  | refl xs =>
    intro a b hab
    obtain ⟨rfl, rfl⟩ := List.append_eq_nil_iff.mp hab.symm
    exact ⟨xs, .refl, .refl⟩
  | @step x xs rest left p q hu h ih =>
    intro a b hab
    obtain ⟨c, hp, hb⟩ | ⟨c, ha, hq⟩ := List.append_eq_append_iff.mp hab.symm
    · -- the cut is within what the first step emits, which is at most one type
      cases a with
      | nil =>
        obtain rfl : p ++ q = b := hab
        exact ⟨x :: rest, .refl, h.step hu⟩
      | cons t a =>
        have hlen : p.length ≤ 1 := hu.length_le_one
        have ha : a = [] ∧ c = [] := by
          rw [hp] at hlen
          simp only [List.length_append, List.length_cons] at hlen
          exact ⟨List.eq_nil_of_length_eq_zero (by omega),
            List.eq_nil_of_length_eq_zero (by omega)⟩
        obtain ⟨rfl, rfl⟩ := ha
        subst hp
        obtain rfl : b = q := by simpa using hb
        refine ⟨xs ++ rest, ?_, h⟩
        have hstep : Expands g (x :: rest) ([t] ++ []) (xs ++ rest) := Expands.refl.step hu
        simpa using hstep
    · obtain ⟨mid, h₁, h₂⟩ := ih c b hq
      exact ⟨mid, ha ▸ h₁.step hu, h₂⟩

/-- An expansion ends before it comes to the iterations at the end of the list, or goes on with
them. There it emits nothing more, ends within the next iteration, or completes one that emits
something: empty iterations only shorten the expansion. -/
theorem cases_append_loop {body : Node} {zs left : List Pending} {p : Path}
    (h : Expands g zs p left) : ∀ xs, zs = xs ++ [.loop body] →
      (∃ ys, left = ys ++ [.loop body] ∧ Expands g xs p ys) ∨
      ∃ a b, p = a ++ b ∧ Expands g xs a [] ∧ Expands g [.loop body] b left ∧
        (b = [] ∨ (∃ ys, Expands g [.node body] b ys ∧ left = ys ++ [.loop body]) ∨
          ∃ c d, c ≠ [] ∧ b = c ++ d ∧ Expands g [.node body] c [] ∧
            Expands g [.loop body] d left) := by
  induction h using rec_unfolds with
  | refl zs =>
    intro xs hz
    exact .inl ⟨xs, hz, .refl⟩
  | @step x ys rest left p q hu h ih =>
    intro xs hz
    obtain ⟨rfl, hc⟩ | ⟨xs', rfl, rfl⟩ := List.cons_eq_append_iff.mp hz
    · -- the step is one of the iterations themselves
      obtain ⟨rfl, rfl⟩ := List.cons.inj hc
      cases hu with
      | stop =>
        obtain ⟨rfl, rfl⟩ := eq_nil_of_nil h
        exact .inr ⟨[], [], rfl, .refl, .stop .refl, .inl rfl⟩
      | again =>
        refine .inr ⟨[], q, rfl, .refl, .again h, ?_⟩
        obtain ⟨ys, rfl, hys⟩ | ⟨a, b, rfl, ha, hb, hcases⟩ := ih [.node body] rfl
        · exact .inr (.inl ⟨ys, hys, rfl⟩)
        · by_cases hnil : a = []
          · subst hnil
            exact hcases
          · exact .inr (.inr ⟨a, b, hnil, rfl, ha, hb⟩)
    · obtain ⟨zs, rfl, hzs⟩ | ⟨a, b, rfl, ha, hb⟩ := ih (ys ++ xs') (by simp)
      · exact .inl ⟨zs, rfl, hzs.step hu⟩
      · exact .inr ⟨p ++ a, b, by simp, ha.step hu, hb⟩

theorem cases_loop {body : Node} {left : List Pending} {p : Path}
    (h : Expands g [.loop body] p left) :
    p = [] ∨ (∃ ys, Expands g [.node body] p ys ∧ left = ys ++ [.loop body]) ∨
      ∃ a b, a ≠ [] ∧ p = a ++ b ∧ Expands g [.node body] a [] ∧
        Expands g [.loop body] b left := by
  obtain ⟨ys, rfl, hys⟩ | ⟨a, b, rfl, ha, -, hb⟩ := h.cases_append_loop [] rfl
  · exact .inl (eq_nil_of_nil hys).1
  · obtain ⟨rfl, -⟩ := eq_nil_of_nil ha
    exact hb

end Expands

/-- Where an expansion ends, seen from a place `m` types later. -/
theorem ends_add_iff {m n k : Nat} {done : Prop} (hm : m ≤ k) :
    (m + n = k ∨ m + n < k ∧ done) ↔ (n = k - m ∨ n < k - m ∧ done) := by
  have heq : m + n = k ↔ n = k - m := by omega
  have hlt : m + n < k ↔ n < k - m := by omega
  rw [heq, hlt]

namespace Grammar

variable {g : Grammar} {k : Nat}

theorem Opens.length_le {xs : List Pending} {p : Path} (h : g.Opens k xs p) : p.length ≤ k := by
  obtain ⟨_, _, h | h⟩ := h
  · exact Nat.le_of_eq h
  · exact Nat.le_of_lt h.1

theorem Opens.of_complete {xs : List Pending} {p : Path} (h : Expands g xs p [])
    (hp : p.length ≤ k) : g.Opens k xs p := by
  refine ⟨[], h, ?_⟩
  rcases Nat.lt_or_eq_of_le hp with hp | hp
  · exact .inr ⟨hp, rfl⟩
  · exact .inl hp

/-- A path that is not cut off belongs to a complete expansion. -/
theorem Opens.complete {xs : List Pending} {p : Path} (h : g.Opens k xs p) (hp : p.length < k) :
    Expands g xs p [] := by
  obtain ⟨left, hx, h | ⟨-, rfl⟩⟩ := h
  · omega
  · exact hx

/-- Looking less far ahead cuts the paths. -/
theorem Opens.take {xs : List Pending} {p : Path} (h : g.Opens k xs p) {j : Nat} (hj : j ≤ k) :
    g.Opens j xs (p.take j) := by
  obtain ⟨left, hx, hend⟩ := h
  obtain ⟨mid, h₁, -⟩ := hx.exists_mid (p.take j) (p.drop j) (List.take_append_drop j p).symm
  by_cases hp : j ≤ p.length
  · exact ⟨mid, h₁, .inl (by simp [hp])⟩
  · obtain hend | ⟨-, rfl⟩ := hend
    · omega
    · rw [List.take_of_length_le (by omega)]
      exact .of_complete hx (by omega)

@[simp] theorem opens_zero {xs : List Pending} {p : Path} : g.Opens 0 xs p ↔ p = [] := by
  constructor
  · intro h
    exact List.eq_nil_of_length_eq_zero (Nat.le_zero.mp h.length_le)
  · rintro rfl
    exact ⟨xs, .refl, .inl rfl⟩

@[simp] theorem opens_nil {p : Path} : g.Opens k [] p ↔ p = [] := by
  constructor
  · intro hmade
    obtain ⟨left, h, -⟩ := hmade
    exact h.eq_nil_of_nil.1
  · rintro rfl
    exact .of_complete .refl (Nat.zero_le k)

theorem opens_nil_iff_erasable {xs : List Pending} (hk : 0 < k) :
    g.Opens k xs [] ↔ g.Erasable xs :=
  ⟨fun h => h.complete hk, fun h => .of_complete h (Nat.zero_le k)⟩

theorem Erasable.of_append {xs ys : List Pending} (h : g.Erasable (xs ++ ys)) : g.Erasable xs := by
  obtain ⟨zs, hzs, hxs⟩ | ⟨a, b, hab, hxs, -⟩ := Expands.exists_of_append h
  · obtain ⟨rfl, -⟩ := List.append_eq_nil_iff.mp hzs.symm
    exact hxs
  · obtain ⟨rfl, -⟩ := List.append_eq_nil_iff.mp hab.symm
    exact hxs

theorem opens_append {xs ys : List Pending} {p : Path} :
    g.Opens k (xs ++ ys) p ↔ ∃ q, g.Opens k xs q ∧
      ((k ≤ q.length ∧ p = q) ∨
        (q.length < k ∧ ∃ t, g.Opens (k - q.length) ys t ∧ p = q ++ t)) := by
  constructor
  · intro h
    obtain ⟨left, h, hend⟩ := h
    obtain ⟨zs, rfl, hx⟩ | ⟨a, b, rfl, ha, hb⟩ := h.exists_of_append
    · obtain hend | ⟨hp, hnil⟩ := hend
      · exact ⟨p, ⟨zs, hx, .inl hend⟩, .inl ⟨Nat.le_of_eq hend.symm, rfl⟩⟩
      · obtain ⟨rfl, rfl⟩ := List.append_eq_nil_iff.mp hnil
        exact ⟨p, .of_complete hx (Nat.le_of_lt hp), .inr ⟨hp, [], by simp, by simp⟩⟩
    · have hlen : a.length + b.length ≤ k := by
        have : (a ++ b).length ≤ k := Opens.length_le ⟨left, h, hend⟩
        simpa using this
      refine ⟨a, .of_complete ha (by omega), ?_⟩
      by_cases hk : k ≤ a.length
      · obtain rfl : b = [] := List.eq_nil_of_length_eq_zero (by omega)
        exact .inl ⟨hk, by simp⟩
      · rw [List.length_append, ends_add_iff (by omega)] at hend
        exact .inr ⟨by omega, b, ⟨left, hb, hend⟩, rfl⟩
  · intro h
    obtain ⟨q, hq, ⟨hk, rfl⟩ | ⟨hk, t, ⟨left, ht, hend⟩, rfl⟩⟩ := h
    · obtain ⟨zs, hx, h | h⟩ := hq
      · exact ⟨zs ++ ys, hx.append_right ys, .inl h⟩
      · omega
    · refine ⟨left, ((hq.complete hk).append_right ys).trans ht, ?_⟩
      rw [List.length_append, ends_add_iff (by omega)]
      exact hend

theorem opens_cons {x : Pending} {ys : List Pending} {p : Path} :
    g.Opens k (x :: ys) p ↔ ∃ q, g.Opens k [x] q ∧
      ((k ≤ q.length ∧ p = q) ∨
        (q.length < k ∧ ∃ t, g.Opens (k - q.length) ys t ∧ p = q ++ t)) :=
  @opens_append g k [x] ys p

/-- The opening paths of one part are those of what its first step makes of it. -/
theorem opens_singleton (hk : 0 < k) {x : Pending} {p : Path} :
    g.Opens k [x] p ↔
      ∃ a xs q, Unfolds g x a xs ∧ p = a ++ q ∧ g.Opens (k - a.length) xs q := by
  constructor
  · intro h
    obtain ⟨left, h, hend⟩ := h
    obtain ⟨rfl, rfl⟩ | ⟨a, xs, q, hu, rfl, hq⟩ := h.cases_cons
    · simp at hend
      omega
    · have ha : a.length ≤ 1 := hu.length_le_one
      rw [List.length_append, ends_add_iff (by omega)] at hend
      exact ⟨a, xs, q, hu, rfl, left, by simpa using hq, hend⟩
  · intro h
    obtain ⟨a, xs, q, hu, rfl, left, hq, hend⟩ := h
    have ha : a.length ≤ 1 := hu.length_le_one
    refine ⟨left, Expands.step hu (by simpa using hq), ?_⟩
    rw [List.length_append, ends_add_iff (by omega)]
    exact hend

section

variable {p : Path}

theorem opens_terminal (hk : 0 < k) {t : TypeId} {i : Nat} :
    g.Opens k [.node (.terminal t i)] p ↔ p = [t] := by
  rw [opens_singleton hk]
  constructor
  · intro h
    obtain ⟨a, xs, q, hu, rfl, hq⟩ := h
    cases hu
    simpa using hq
  · rintro rfl
    exact ⟨[t], [], [], .terminal, rfl, by simp⟩

theorem opens_sequence (hk : 0 < k) {parts : List Node} :
    g.Opens k [.node (.sequence parts)] p ↔ g.Opens k (parts.map .node) p := by
  rw [opens_singleton hk]
  constructor
  · intro h
    obtain ⟨a, xs, q, hu, rfl, hq⟩ := h
    cases hu
    exact hq
  · intro h
    exact ⟨[], _, p, .sequence, rfl, h⟩

theorem opens_optional (hk : 0 < k) {body : Node} {i : Nat} :
    g.Opens k [.node (.optional body i)] p ↔ g.Opens k [.node body] p ∨ p = [] := by
  rw [opens_singleton hk]
  constructor
  · intro h
    obtain ⟨a, xs, q, hu, rfl, hq⟩ := h
    cases hu with
    | skip => exact .inr (by simpa using hq)
    | enter => exact .inl hq
  · intro h
    obtain h | rfl := h
    · exact ⟨[], _, p, .enter, rfl, h⟩
    · exact ⟨[], _, [], .skip, rfl, by simp⟩

theorem opens_many (hk : 0 < k) {body : Node} {i : Nat} :
    g.Opens k [.node (.repetition body i false)] p ↔ g.Opens k [.loop body] p := by
  rw [opens_singleton hk]
  constructor
  · intro h
    obtain ⟨a, xs, q, hu, rfl, hq⟩ := h
    cases hu
    exact hq
  · intro h
    exact ⟨[], _, p, .many, rfl, h⟩

theorem opens_atLeastOne (hk : 0 < k) {body : Node} {i : Nat} :
    g.Opens k [.node (.repetition body i true)] p ↔ g.Opens k [.node body, .loop body] p := by
  rw [opens_singleton hk]
  constructor
  · intro h
    obtain ⟨a, xs, q, hu, rfl, hq⟩ := h
    cases hu
    exact hq
  · intro h
    exact ⟨[], _, p, .atLeastOne, rfl, h⟩

theorem opens_alternation (hk : 0 < k) {alternatives : List Node} {i : Nat}
    {description : String} :
    g.Opens k [.node (.alternation alternatives i description)] p ↔
      ∃ n ∈ alternatives, g.Opens k [.node n] p := by
  rw [opens_singleton hk]
  constructor
  · intro h
    obtain ⟨a, xs, q, hu, rfl, hq⟩ := h
    cases hu with
    | alternative hn => exact ⟨_, hn, hq⟩
  · intro h
    obtain ⟨n, hn, h⟩ := h
    exact ⟨[], _, p, .alternative hn, rfl, h⟩

theorem opens_ruleRef (hk : 0 < k) {r : RuleId} {i : Nat} :
    g.Opens k [.node (.ruleRef r i)] p ↔
      ∃ rule, g.get? r = some rule ∧ g.Opens k [.node rule.body] p := by
  rw [opens_singleton hk]
  constructor
  · intro h
    obtain ⟨a, xs, q, hu, rfl, hq⟩ := h
    cases hu with
    | ruleRef hr => exact ⟨_, hr, hq⟩
  · intro h
    obtain ⟨rule, hr, h⟩ := h
    exact ⟨[], _, p, .ruleRef hr, rfl, h⟩

theorem opens_loop (hk : 0 < k) {body : Node} :
    g.Opens k [.loop body] p ↔ p = [] ∨ ∃ q, (q ≠ [] ∧ g.Opens k [.node body] q) ∧
      ((k ≤ q.length ∧ p = q) ∨
        (q.length < k ∧ ∃ t, g.Opens (k - q.length) [.loop body] t ∧ p = q ++ t)) := by
  constructor
  · intro h
    obtain ⟨left, h, hend⟩ := h
    obtain rfl | ⟨ys, hys, rfl⟩ | ⟨a, b, ha, rfl, hbody, hloop⟩ := h.cases_loop
    · exact .inl rfl
    · have hp : p.length = k := by simpa using hend
      have hne : p ≠ [] := List.ne_nil_of_length_pos (by omega)
      exact .inr ⟨p, ⟨hne, ys, hys, .inl hp⟩, .inl ⟨Nat.le_of_eq hp.symm, rfl⟩⟩
    · have hlen : a.length + b.length ≤ k := by
        have : (a ++ b).length ≤ k := Opens.length_le ⟨left, h, hend⟩
        simpa using this
      refine .inr ⟨a, ⟨ha, .of_complete hbody (by omega)⟩, ?_⟩
      by_cases hk : k ≤ a.length
      · obtain rfl : b = [] := List.eq_nil_of_length_eq_zero (by omega)
        exact .inl ⟨hk, by simp⟩
      · rw [List.length_append, ends_add_iff (by omega)] at hend
        exact .inr ⟨by omega, b, ⟨left, hloop, hend⟩, rfl⟩
  · intro h
    obtain rfl | ⟨q, ⟨-, hq⟩, hend⟩ := h
    · exact .of_complete (.stop .refl) (Nat.zero_le k)
    · refine (opens_singleton hk).mpr ⟨[], _, p, .again, rfl, ?_⟩
      exact opens_cons.mpr ⟨q, hq, hend⟩

end

end Grammar

end StrongLL
