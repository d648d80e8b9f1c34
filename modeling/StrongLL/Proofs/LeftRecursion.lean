import Mathlib.Data.Fintype.EquivFin
import Mathlib.Data.List.Chain
import Mathlib.Logic.Relation
import StrongLL.Prediction.FirstCache
import StrongLL.Proofs.Expansion

/-!
# StrongLL.Proofs.LeftRecursion

Left recursion, said by the grammar alone, and why a grammar without it can always go on:

* `Leads g n r`           — within `n`, an invocation of `r` can come before any token.
* `Grammar.LeftRecursive` — a rule leads back to itself.
* `Grammar.IsLeftCycle`   — a report of left recursion tells the truth.
* `Node.Proper`           — all rules and types a node refers to are declared, and no choice is
  empty.
* `exists_opens`          — in a proper grammar without left recursion, every part has an opening
  path at every depth. This holds even where no complete expansion exists.
-/

namespace StrongLL

inductive Leads (g : Grammar) : Node → RuleId → Prop where
  | ruleRef {r : RuleId} {i : Nat} : Leads g (.ruleRef r i) r
  | sequence {before after : List Node} {n : Node} {r : RuleId} :
      (∀ m ∈ before, g.Erasable [.node m]) → Leads g n r →
      Leads g (.sequence (before ++ n :: after)) r
  | optional {body : Node} {i : Nat} {r : RuleId} :
      Leads g body r → Leads g (.optional body i) r
  | repetition {body : Node} {i : Nat} {atLeastOne : Bool} {r : RuleId} :
      Leads g body r → Leads g (.repetition body i atLeastOne) r
  | alternation {alternatives : List Node} {n : Node} {i : Nat} {description : String}
      {r : RuleId} :
      n ∈ alternatives → Leads g n r → Leads g (.alternation alternatives i description) r

namespace Leads

variable {g : Grammar}

theorem sequence_head {n : Node} {rest : List Node} {r : RuleId} (h : Leads g n r) :
    Leads g (.sequence (n :: rest)) r :=
  @sequence g [] rest n r (by simp) h

theorem sequence_tail {n : Node} {rest : List Node} {r : RuleId} (hn : g.Erasable [.node n])
    (h : Leads g (.sequence rest) r) : Leads g (.sequence (n :: rest)) r := by
  cases h with
  | @sequence before after m _ hbefore hm =>
    refine @sequence g (n :: before) after m r ?_ hm
    intro m hmem
    rcases List.mem_cons.mp hmem with rfl | hmem
    · exact hn
    · exact hbefore m hmem

theorem cases_sequence_cons {n : Node} {rest : List Node} {r : RuleId}
    (h : Leads g (.sequence (n :: rest)) r) :
    Leads g n r ∨ (g.Erasable [.node n] ∧ Leads g (.sequence rest) r) := by
  generalize hparts : Node.sequence (n :: rest) = m at h
  cases h with
  | @sequence before after m _ hbefore hm =>
    cases before with
    | nil =>
      obtain ⟨rfl, rfl⟩ : n = m ∧ rest = after := by simpa using hparts
      exact .inl hm
    | cons n' before =>
      obtain ⟨rfl, rfl⟩ : n = n' ∧ rest = before ++ m :: after := by simpa using hparts
      exact .inr ⟨hbefore n (by simp), .sequence (fun x hx => hbefore x (by simp [hx])) hm⟩
  | _ => cases hparts

theorem not_sequence_nil {r : RuleId} : ¬ Leads g (.sequence []) r := by
  intro h
  generalize hparts : Node.sequence [] = m at h
  cases h with
  | sequence => simp at hparts
  | _ => cases hparts

end Leads

namespace Grammar

/-- The body of `a` leads to an invocation of `b`. -/
def LeftCalls (g : Grammar) (a b : RuleId) : Prop :=
  ∃ rule, g.get? a = some rule ∧ Leads g rule.body b

def LeftRecursive (g : Grammar) : Prop := ∃ r, Relation.TransGen g.LeftCalls r r

/-- A cycle of distinct rules, the first one repeated at the end, each of which leads to the
next. -/
def IsLeftCycle (g : Grammar) (l : LeftRecursion) : Prop :=
  ∃ r path, l.cycle = r :: path ++ [r] ∧ (r :: path).Nodup ∧ l.cycle.IsChain g.LeftCalls

variable {g : Grammar}

theorem get?_eq_some_lt {r : RuleId} {rule : Rule} (h : g.get? r = some rule) : r < g.size :=
  (List.getElem?_eq_some_iff.mp h).1

theorem exists_get? {r : RuleId} (h : r < g.size) : ∃ rule, g.get? r = some rule :=
  ⟨g.rules[r], List.getElem?_eq_getElem h⟩

theorem LeftCalls.lt {a b : RuleId} (h : g.LeftCalls a b) : a < g.size :=
  let ⟨_, hr, _⟩ := h
  get?_eq_some_lt hr

/-- Every later element of a chain is reached from the first. -/
theorem transGen_of_isChain {r : RuleId} : ∀ (path : List RuleId) (a : RuleId),
    (a :: path ++ [r]).IsChain g.LeftCalls → Relation.TransGen g.LeftCalls a r := by
  intro path
  induction path with
  | nil =>
    intro a h
    exact .single (by simpa using h)
  | cons b path ih =>
    intro a h
    have h : g.LeftCalls a b ∧ (b :: path ++ [r]).IsChain g.LeftCalls := by simpa using h
    exact .head h.1 (ih b h.2)

theorem IsLeftCycle.leftRecursive {l : LeftRecursion} (h : g.IsLeftCycle l) :
    g.LeftRecursive := by
  obtain ⟨r, path, hl, -, hchain⟩ := h
  rw [hl] at hchain
  exact ⟨r, transGen_of_isChain path r hchain⟩

theorem wellFounded_of_not_leftRecursive (h : ¬ g.LeftRecursive) :
    WellFounded fun b a : Fin g.size => Relation.TransGen g.LeftCalls a b := by
  have : IsTrans (Fin g.size) fun b a => Relation.TransGen g.LeftCalls a b :=
    ⟨fun _ _ _ hab hbc => hbc.trans hab⟩
  have : Std.Irrefl fun b a : Fin g.size => Relation.TransGen g.LeftCalls (a : Nat) b :=
    ⟨fun a ha => h ⟨a, ha⟩⟩
  exact Finite.wellFounded_of_trans_of_irrefl _

end Grammar

/-! ## Proper grammars -/

/-- A node over so many types and rules that refers to no others and has no empty choice. -/
inductive Node.Proper (types rules : Nat) : Node → Prop where
  | terminal {t : TypeId} {i : Nat} : t < types → Proper types rules (.terminal t i)
  | sequence {parts : List Node} :
      (∀ n ∈ parts, Proper types rules n) → Proper types rules (.sequence parts)
  | optional {body : Node} {i : Nat} :
      Proper types rules body → Proper types rules (.optional body i)
  | repetition {body : Node} {i : Nat} {atLeastOne : Bool} :
      Proper types rules body → Proper types rules (.repetition body i atLeastOne)
  | alternation {alternatives : List Node} {i : Nat} {description : String} :
      alternatives ≠ [] → (∀ n ∈ alternatives, Proper types rules n) →
      Proper types rules (.alternation alternatives i description)
  | ruleRef {r : RuleId} {i : Nat} : r < rules → Proper types rules (.ruleRef r i)

/-- The node of a pending part. -/
def Pending.part : Pending → Node
  | .node n => n
  | .loop body => body

/-- All rules of the grammar have proper bodies. -/
def Grammar.Proper (g : Grammar) (types : Nat) : Prop :=
  ∀ r rule, g.get? r = some rule → rule.body.Proper types g.size

section

variable {g : Grammar} {types : Nat}

theorem Unfolds.proper (hg : g.Proper types) {x : Pending} {xs : List Pending} {p : Path}
    (h : Unfolds g x p xs) (hx : x.part.Proper types g.size) :
    ∀ y ∈ xs, y.part.Proper types g.size := by
  intro y hy
  cases h with
  | terminal | skip | stop => simp at hy
  | @sequence parts =>
    obtain ⟨n, hn, rfl⟩ := List.mem_map.mp hy
    cases hx with
    | sequence h => exact h n hn
  | enter =>
    obtain rfl := List.mem_singleton.mp hy
    cases hx with
    | optional h => exact h
  | many =>
    obtain rfl := List.mem_singleton.mp hy
    cases hx with
    | repetition h => exact h
  | @atLeastOne body =>
    cases hx with
    | repetition h =>
      have hy : y = .node body ∨ y = .loop body := by simpa using hy
      rcases hy with rfl | rfl <;> exact h
  | @again body =>
    have hy : y = .node body ∨ y = .loop body := by simpa using hy
    rcases hy with rfl | rfl <;> exact hx
  | alternative hn =>
    obtain rfl := List.mem_singleton.mp hy
    cases hx with
    | alternation _ h => exact h _ hn
  | ruleRef hr =>
    obtain rfl := List.mem_singleton.mp hy
    exact hg _ _ hr

theorem Expands.proper (hg : g.Proper types) {xs left : List Pending} {p : Path}
    (h : Expands g xs p left) :
    (∀ x ∈ xs, x.part.Proper types g.size) → ∀ x ∈ left, x.part.Proper types g.size := by
  induction h using Expands.rec_unfolds with
  | refl xs => exact id
  | @step x xs rest left p q hu h ih =>
    intro hxs
    apply ih
    intro y hy
    rcases List.mem_append.mp hy with hy | hy
    · exact hu.proper hg (hxs x (by simp)) y hy
    · exact hxs y (by simp [hy])

/-! ## Going on -/

/-- Pending parts have an opening path of depth `k` if the first of them does, and if all do at
smaller depths. -/
theorem exists_opens_cons {k : Nat} {x : Pending} {rest : List Pending} {p : Path}
    (hp : g.Opens k [x] p) (hnil : p = [] → ∃ q, g.Opens k rest q)
    (hbelow : ∀ j < k, ∃ q, g.Opens j rest q) : ∃ q, g.Opens k (x :: rest) q := by
  by_cases hk : k ≤ p.length
  · exact ⟨p, Grammar.opens_cons.mpr ⟨p, hp, .inl ⟨hk, rfl⟩⟩⟩
  · have htail : ∃ q, g.Opens (k - p.length) rest q := by
      by_cases hempty : p = []
      · simpa [hempty] using hnil hempty
      · have := List.length_pos_iff.mpr hempty
        exact hbelow _ (by omega)
    obtain ⟨q, hq⟩ := htail
    exact ⟨p ++ q, Grammar.opens_cons.mpr ⟨p, hp, .inr ⟨by omega, q, hq, rfl⟩⟩⟩

/-- All lists of proper parts have an opening path of depth `k`. -/
def Grammar.OpensAll (g : Grammar) (types k : Nat) : Prop :=
  ∀ xs : List Pending, (∀ x ∈ xs, x.part.Proper types g.size) → ∃ p, g.Opens k xs p

variable {k : Nat}

mutual

theorem exists_opens_node (hk : 0 < k) (hbelow : ∀ j < k, g.OpensAll types j) :
    ∀ n : Node, n.Proper types g.size →
      (∀ r, Leads g n r → r < g.size → ∃ p, g.Opens k [.node (.ruleRef r 0)] p) →
      ∃ p, g.Opens k [.node n] p
  | .terminal t i, _, _ => ⟨[t], (Grammar.opens_terminal hk).mpr rfl⟩
  | .sequence parts, hn, hleads => by
    cases hn with
    | sequence hparts =>
      obtain ⟨p, hp⟩ := exists_opens_parts hk hbelow parts hparts hleads
      exact ⟨p, (Grammar.opens_sequence hk).mpr hp⟩
  | .optional _ _, _, _ => ⟨[], (Grammar.opens_optional hk).mpr (.inr rfl)⟩
  | .repetition body i false, _, _ =>
    ⟨[], (Grammar.opens_many hk).mpr ((Grammar.opens_loop hk).mpr (.inl rfl))⟩
  | .repetition body i true, hn, hleads => by
    cases hn with
    | repetition hbody =>
      obtain ⟨p, hp⟩ := exists_opens_node hk hbelow body hbody
        fun r hr => hleads r (.repetition hr)
      have hloop : ∀ j, ∃ q, g.Opens j [.loop body] q := fun j =>
        ⟨[], .of_complete (.stop .refl) (Nat.zero_le j)⟩
      obtain ⟨q, hq⟩ := exists_opens_cons hp (fun _ => hloop k) fun j _ => hloop j
      exact ⟨q, (Grammar.opens_atLeastOne hk).mpr hq⟩
  | .alternation alternatives i description, hn, hleads => by
    cases hn with
    | alternation hne halts =>
      obtain ⟨n, hn, p, hp⟩ := exists_opens_alternative hk hbelow alternatives hne halts
        fun n hn r hr => hleads r (.alternation hn hr)
      exact ⟨p, (Grammar.opens_alternation hk).mpr ⟨n, hn, hp⟩⟩
  | .ruleRef r i, hn, hleads => by
    cases hn with
    | ruleRef hr =>
      obtain ⟨p, hp⟩ := hleads r .ruleRef hr
      exact ⟨p, (Grammar.opens_ruleRef hk).mpr ((Grammar.opens_ruleRef hk).mp hp)⟩

theorem exists_opens_parts (hk : 0 < k) (hbelow : ∀ j < k, g.OpensAll types j) :
    ∀ parts : List Node, (∀ n ∈ parts, n.Proper types g.size) →
      (∀ r, Leads g (.sequence parts) r → r < g.size →
        ∃ p, g.Opens k [.node (.ruleRef r 0)] p) →
      ∃ p, g.Opens k (parts.map .node) p
  | [], _, _ => ⟨[], Grammar.opens_nil.mpr rfl⟩
  | n :: rest, hparts, hleads => by
    obtain ⟨p, hp⟩ := exists_opens_node hk hbelow n (hparts n (by simp))
      fun r hr => hleads r hr.sequence_head
    refine exists_opens_cons hp ?_ ?_
    · rintro rfl
      have hn : g.Erasable [.node n] := (Grammar.opens_nil_iff_erasable hk).mp hp
      exact exists_opens_parts hk hbelow rest (fun m hm => hparts m (by simp [hm]))
        fun r hr => hleads r (hr.sequence_tail hn)
    · intro j hj
      refine hbelow j hj _ fun x hx => ?_
      obtain ⟨m, hm, rfl⟩ := List.mem_map.mp hx
      exact hparts m (by simp [hm])

theorem exists_opens_alternative (hk : 0 < k) (hbelow : ∀ j < k, g.OpensAll types j) :
    ∀ alternatives : List Node, alternatives ≠ [] → (∀ n ∈ alternatives, n.Proper types g.size) →
      (∀ n ∈ alternatives, ∀ r, Leads g n r → r < g.size →
        ∃ p, g.Opens k [.node (.ruleRef r 0)] p) →
      ∃ n ∈ alternatives, ∃ p, g.Opens k [.node n] p
  | [], hne, _, _ => absurd rfl hne
  | n :: _, _, hproper, hleads => by
    obtain ⟨p, hp⟩ := exists_opens_node hk hbelow n (hproper n (by simp)) (hleads n (by simp))
    exact ⟨n, by simp, p, hp⟩

end

theorem exists_opens (hg : g.Proper types) (hrec : ¬ g.LeftRecursive) :
    ∀ k, g.OpensAll types k := by
  intro k
  induction k using Nat.strong_induction_on with
  | _ k hbelow =>
    intro xs hxs
    by_cases hk : k = 0
    · subst hk
      exact ⟨[], by simp⟩
    have hk : 0 < k := by omega
    have hrule : ∀ r : Fin g.size, ∃ p, g.Opens k [.node (.ruleRef r 0)] p := by
      intro r
      induction r using (Grammar.wellFounded_of_not_leftRecursive hrec).induction with
      | _ r ih =>
        obtain ⟨rule, hr⟩ := Grammar.exists_get? r.isLt
        obtain ⟨p, hp⟩ := exists_opens_node hk hbelow rule.body (hg r rule hr) fun b hb hlt =>
          ih ⟨b, hlt⟩ (.single ⟨rule, hr, hb⟩)
        exact ⟨p, (Grammar.opens_ruleRef hk).mpr ⟨rule, hr, hp⟩⟩
    induction xs with
    | nil => exact ⟨[], by simp⟩
    | cons x rest ih =>
      have hrest : ∀ y ∈ rest, y.part.Proper types g.size := fun y hy => hxs y (by simp [hy])
      have hx : ∃ p, g.Opens k [x] p := by
        cases x with
        | node n =>
          exact exists_opens_node hk hbelow n (hxs (.node n) (by simp)) fun r _ hr => hrule ⟨r, hr⟩
        | loop body => exact ⟨[], .of_complete (.stop .refl) (Nat.zero_le k)⟩
      obtain ⟨p, hp⟩ := hx
      exact exists_opens_cons hp (fun _ => ih hrest) fun j hj => hbelow j hj rest hrest

/-- Every opening path is the beginning of a longer one, or complete. -/
theorem Grammar.Opens.exists_longer (hg : g.Proper types) (hrec : ¬ g.LeftRecursive) {j : Nat}
    {xs : List Pending} (hxs : ∀ x ∈ xs, x.part.Proper types g.size) {p : Path}
    (h : g.Opens j xs p) (hjk : j ≤ k) : ∃ q, g.Opens k xs q ∧ q.take j = p := by
  obtain ⟨left, hx, hp | ⟨hp, rfl⟩⟩ := h
  · obtain ⟨q, left', hq, hend⟩ := exists_opens hg hrec (k - j) left (hx.proper hg hxs)
    refine ⟨p ++ q, ⟨left', hx.trans hq, ?_⟩, by simp [← hp]⟩
    rw [List.length_append, ends_add_iff (by omega), hp]
    exact hend
  · exact ⟨p, .of_complete hx (by omega), List.take_of_length_le (by omega)⟩

end

end StrongLL
