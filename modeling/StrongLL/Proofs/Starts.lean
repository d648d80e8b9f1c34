import StrongLL.Proofs.Storeless
import StrongLL.Proofs.Truncation

/-!
# StrongLL.Proofs.Starts

What something may begin with is found in an order that the lookahead has no part in:

* `Starts`             — the types that something may begin with, and `none` for its end, as often
  and in the order in which they are met. Two orders agree if they do without repetitions.
* `PathSet.StartsAs`   — the paths of a set have given starts.
* `Node.starts`, `Grammar.ruleStarts` — the starts of a node and of a rule, told without paths.
* `PathSet.StartsAs.extend` — paths get no other starts by being extended, unless they are empty.
* `Contract.node_starts`  — the equations give paths with the starts of the node.
* `Grammar.plainFirst_starts` — so the paths of pending parts have the same starts at all depths.
-/

namespace StrongLL

/-! ## The first occurrences in a list -/

section

variable {α β : Type} [BEq α] [LawfulBEq α]

theorem eraseDups_eraseDups_append (xs ys : List α) :
    (xs.eraseDups ++ ys).eraseDups = (xs ++ ys).eraseDups := by
  induction ys using List.reverseRecOn with
  | nil => simp [eraseDups_eq_self (nodup_eraseDups xs)]
  | append_singleton ys a ih =>
    rw [← List.append_assoc, ← List.append_assoc, eraseDups_concat, eraseDups_concat, ih]
    simp only [List.mem_append, List.mem_eraseDups]

theorem eraseDups_append_eraseDups (xs ys : List α) :
    (xs ++ ys.eraseDups).eraseDups = (xs ++ ys).eraseDups := by
  induction ys using List.reverseRecOn with
  | nil => simp
  | append_singleton ys a ih =>
    rw [eraseDups_concat, ← List.append_assoc, eraseDups_concat]
    by_cases ha : a ∈ ys
    · simp [ha, ih]
    · rw [if_neg ha, ← List.append_assoc, eraseDups_concat, ih]
      simp only [List.mem_append, List.mem_eraseDups]

theorem eraseDups_append_congr {xs xs' ys ys' : List α} (hxs : xs.eraseDups = xs'.eraseDups)
    (hys : ys.eraseDups = ys'.eraseDups) : (xs ++ ys).eraseDups = (xs' ++ ys').eraseDups := by
  rw [← eraseDups_eraseDups_append, ← eraseDups_append_eraseDups, hxs, hys,
    eraseDups_append_eraseDups, eraseDups_eraseDups_append]

theorem eraseDups_flatMap_congr {xs : List β} {f f' : β → List α}
    (h : ∀ x ∈ xs, (f x).eraseDups = (f' x).eraseDups) :
    (xs.flatMap f).eraseDups = (xs.flatMap f').eraseDups := by
  induction xs with
  | nil => rfl
  | cons x xs ih =>
    rw [List.flatMap_cons, List.flatMap_cons]
    exact eraseDups_append_congr (h x (by simp)) (ih fun y hy => h y (by simp [hy]))

theorem eraseDups_flatMap_eraseDups [BEq β] [LawfulBEq β] (xs : List β) (f : β → List α) :
    (xs.eraseDups.flatMap f).eraseDups = (xs.flatMap f).eraseDups := by
  induction xs using List.reverseRecOn with
  | nil => simp
  | append_singleton xs x ih =>
    rw [eraseDups_concat, List.flatMap_append, List.flatMap_singleton]
    by_cases hx : x ∈ xs
    · have hsub : f x ⊆ xs.flatMap f := fun a ha => List.mem_flatMap.mpr ⟨x, hx, ha⟩
      rw [if_pos hx, ih, eraseDups_append_of_subset hsub]
    · rw [if_neg hx, List.flatMap_append, List.flatMap_singleton]
      exact eraseDups_append_congr ih rfl

theorem eraseDups_filterMap_congr [BEq β] [LawfulBEq β] {xs ys : List β}
    (h : xs.eraseDups = ys.eraseDups) (f : β → Option α) :
    (xs.filterMap f).eraseDups = (ys.filterMap f).eraseDups := by
  rw [List.filterMap_eq_flatMap_toList, List.filterMap_eq_flatMap_toList,
    ← eraseDups_flatMap_eraseDups, h, eraseDups_flatMap_eraseDups]

/-- Elements that are all the same, if there are any, count as one. -/
theorem eraseDups_eq_singleton {xs : List α} {a : α} (hne : xs ≠ []) (h : ∀ x ∈ xs, x = a) :
    xs.eraseDups = [a] := by
  obtain ⟨x, xs, rfl⟩ := List.exists_cons_of_ne_nil hne
  obtain rfl : x = a := h x (by simp)
  have hsub : xs ⊆ [x] := fun y hy => List.mem_singleton.mpr (h y (by simp [hy]))
  rw [← List.singleton_append, eraseDups_append_of_subset hsub,
    eraseDups_eq_self (List.nodup_singleton x)]

end

/-! ## Starts -/

abbrev Starts := List (Option TypeId)

namespace Starts

/-- What comes next takes the place of the end. -/
def andThen (first next : Starts) : Starts :=
  first.flatMap fun
    | some t => [some t]
    | none => next

theorem andThen_congr {first first' next next' : Starts}
    (hfirst : first.eraseDups = first'.eraseDups) (hnext : next.eraseDups = next'.eraseDups) :
    (first.andThen next).eraseDups = (first'.andThen next').eraseDups := by
  rw [andThen, andThen, ← eraseDups_flatMap_eraseDups, hfirst, eraseDups_flatMap_eraseDups]
  refine eraseDups_flatMap_congr fun a _ => ?_
  cases a with
  | some t => rfl
  | none => exact hnext

theorem andThen_none (first : Starts) : first.andThen [none] = first := by
  induction first with
  | nil => rfl
  | cons a first ih => cases a <;> exact congrArg (_ :: ·) ih

/-- Without an end, what comes next does not show. -/
theorem andThen_eq_self {first next : Starts} (h : none ∉ first) : first.andThen next = first := by
  induction first with
  | nil => rfl
  | cons a first ih =>
    cases a with
    | none => simp at h
    | some t => exact congrArg (some t :: ·) (ih fun hmem => h (by simp [hmem]))

/-- The starts of any number of iterations. -/
def ofLoop (once : Starts) : Starts := none :: once.andThen []

end Starts

namespace PathSet

def starts (s : PathSet) : Starts := s.map (·.head?)

/-- The paths start so, in the order in which they are first found. -/
def StartsAs (s : PathSet) (a : Starts) : Prop := s.starts.eraseDups = a.eraseDups

theorem startsAs_epsilon : epsilon.StartsAs [none] := rfl

theorem startsAs_eraseDups (s : PathSet) : StartsAs s.eraseDups s.starts := by
  unfold StartsAs starts
  rw [List.map_eq_flatMap, List.map_eq_flatMap, eraseDups_flatMap_eraseDups]

variable {k : Nat} {s t : PathSet} {a b next : Starts}

theorem StartsAs.nil_mem (h : s.StartsAs a) : [] ∈ s ↔ none ∈ a := by
  have hstarts : [] ∈ s ↔ none ∈ s.starts := by simp [starts]
  rw [hstarts, ← List.mem_eraseDups, h, List.mem_eraseDups]

/-- Paths that start so have those first types. -/
theorem StartsAs.heads (h : s.StartsAs a) :
    (s.filterMap (·.head?)).eraseDups = (a.filterMap id).eraseDups := by
  have hmap : s.filterMap (·.head?) = s.starts.filterMap id := by
    rw [starts, List.filterMap_map]
    rfl
  rw [hmap]
  exact eraseDups_filterMap_congr h id

/-- Where nothing comes next, empty paths do not count. -/
theorem starts_filter (s : PathSet) :
    (starts (s.filter (· ≠ []))).andThen [] = s.starts.andThen [] := by
  induction s with
  | nil => rfl
  | cons p s ih =>
    cases p with
    | nil => exact ih
    | cons t p => exact congrArg (some t :: ·) ih

theorem StartsAs.union (hs : s.StartsAs a) (ht : t.StartsAs b) : (s.union t).StartsAs (a ++ b) := by
  have happend : (s ++ t).starts = s.starts ++ t.starts := List.map_append
  rw [StartsAs, PathSet.union, startsAs_eraseDups, happend]
  exact eraseDups_append_congr hs ht

/-- Paths that are extended start as before, and empty ones start as what extends them. -/
theorem StartsAs.extend (hk : 0 < k) (hs : s.StartsAs a) {tails : Nat → PathSet}
    (hsame : [] ∈ s → (tails k).StartsAs next) (hbelow : ∀ p ∈ s, p ≠ [] → p.length < k →
      tails (k - p.length) ≠ []) :
    (PathSet.extend k s tails).StartsAs (a.andThen next) := by
  rw [StartsAs, PathSet.extend, startsAs_eraseDups]
  refine Eq.trans ?_ (Starts.andThen_congr hs rfl)
  rw [starts, starts, Starts.andThen, List.map_flatMap, List.flatMap_map]
  refine eraseDups_flatMap_congr fun p hp => ?_
  cases p with
  | nil => simpa [Nat.ne_of_gt hk, StartsAs, starts] using hsame hp
  | cons t p =>
    -- however many paths come of this one, all of them start with its first type
    split
    · rfl
    · rename_i hlt
      have hne := hbelow _ hp (by simp) (Nat.lt_of_not_le hlt)
      refine eraseDups_eq_singleton (by simpa using hne) fun x hx => ?_
      obtain ⟨q, hq, rfl⟩ := List.mem_map.mp hx
      obtain ⟨tail, -, rfl⟩ := List.mem_map.mp hq
      rfl

end PathSet

/-! ## The starts of a node -/

mutual

/-- Where the starts of the rules are known. -/
def Node.starts (rule : RuleId → Starts) : Node → Starts
  | .terminal t _ => [some t]
  | .sequence parts => sequenceStarts rule parts
  | .optional body _ => body.starts rule ++ [none]
  | .repetition body _ false => .ofLoop (body.starts rule)
  | .repetition body _ true => (body.starts rule).andThen (.ofLoop (body.starts rule))
  | .alternation alternatives _ _ => alternativesStarts rule alternatives
  | .ruleRef r _ => rule r

def sequenceStarts (rule : RuleId → Starts) : List Node → Starts
  | [] => [none]
  | n :: rest => (n.starts rule).andThen (sequenceStarts rule rest)

def alternativesStarts (rule : RuleId → Starts) : List Node → Starts
  | [] => []
  | n :: rest => n.starts rule ++ alternativesStarts rule rest

end

def Pending.starts (rule : RuleId → Starts) : Pending → Starts
  | .node n => n.starts rule
  | .loop body => .ofLoop (body.starts rule)

def pendingStarts (rule : RuleId → Starts) : List Pending → Starts
  | [] => [none]
  | part :: rest => (part.starts rule).andThen (pendingStarts rule rest)

namespace Contract

variable {m : Type → Type} [Monad m] (C : Contract m) {env : Surroundings m} {types rules : Nat}

/-- Smaller depths have paths for all proper parts. -/
def BelowFilled (types rules : Nat) (env : Surroundings m) : Prop :=
  ∀ j < env.depth, ∀ xs : List Pending, (∀ x ∈ xs, x.part.Proper types rules) →
    C.Ensures (env.below j xs) (· ≠ [])

/-- One part before others. -/
theorem cons_starts (hk : 0 < env.depth) {head : PathSet} {same : m PathSet}
    {below : Nat → m PathSet} {a next : Starts} (hhead : head.StartsAs a)
    (hsame : C.Ensures same (·.StartsAs next))
    (hbelow : ∀ j < env.depth, C.Ensures (below j) (· ≠ [])) :
    C.Ensures
      (PathSet.extendM env.depth head fun room => if room = env.depth then same else below room)
      (·.StartsAs (a.andThen next)) := by
  refine C.mono (C.extendM_tails
    (R := fun room s => if room = env.depth then s.StartsAs next else s ≠ []) ?_) ?_
  · intro p hp hlt
    split
    · exact hsame
    · exact hbelow _ (by omega)
  · rintro s ⟨made, rfl, hmade⟩
    refine hhead.extend hk (fun hnil => ?_) fun p hp hne hlt => ?_
    · simpa using hmade [] hnil hk
    · have hpos := List.length_pos_iff.mpr hne
      have hmade := hmade p hp hlt
      rwa [if_neg (by omega)] at hmade

theorem loop_starts (hk : 0 < env.depth) (hbelow : C.BelowFilled types rules env) {body : Node}
    (hbody : body.Proper types rules) {once : PathSet} {a : Starts} (honce : once.StartsAs a) :
    C.Ensures (loopFirst env body once) (·.StartsAs (.ofLoop a)) := by
  have hloop : ∀ x ∈ [Pending.loop body], x.part.Proper types rules :=
    List.forall_mem_singleton.mpr hbody
  refine C.bind (C.extendM_tails (R := fun _ s => s ≠ []) fun p hp hlt => ?_) fun more hmore => ?_
  · have hne : p ≠ [] := by simpa using (List.mem_filter.mp hp).2
    have hpos := List.length_pos_iff.mpr hne
    exact hbelow _ (by omega) _ hloop
  · obtain ⟨made, rfl, hmade⟩ := hmore
    have hfull : [] ∉ once.filter (· ≠ []) := by simp
    have hmore : (PathSet.extend env.depth (once.filter (· ≠ [])) made).StartsAs
        ((PathSet.starts (once.filter (· ≠ []))).andThen []) :=
      .extend hk rfl (fun hnil => absurd hnil hfull) fun p hp _ hlt => hmade p hp hlt
    refine C.pure ((PathSet.startsAs_epsilon.union hmore).trans ?_)
    rw [PathSet.starts_filter]
    exact eraseDups_append_congr rfl (Starts.andThen_congr honce rfl)

mutual

theorem node_starts (hk : 0 < env.depth) (hbelow : C.BelowFilled types rules env)
    {rule : RuleId → Starts} (hrule : ∀ r, C.Ensures (env.rule r) (·.StartsAs (rule r))) :
    ∀ n : Node, n.Proper types rules → C.Ensures (n.first env) (·.StartsAs (n.starts rule))
  | .terminal t i, _ => C.pure rfl
  | .sequence parts, hn => by
    cases hn with
    | sequence hparts =>
      rw [Node.first, Node.starts]
      exact sequence_starts hk hbelow hrule parts hparts
  | .optional body i, hn => by
    cases hn with
    | optional hbody =>
      rw [Node.first, Node.starts]
      exact C.bind (node_starts hk hbelow hrule body hbody) fun s hs =>
        C.pure (hs.union PathSet.startsAs_epsilon)
  | .repetition body i false, hn => by
    cases hn with
    | repetition hbody =>
      rw [Node.first, Node.starts]
      exact C.bind (node_starts hk hbelow hrule body hbody) fun once honce =>
        C.loop_starts hk hbelow hbody honce
  | .repetition body i true, hn => by
    cases hn with
    | repetition hbody =>
      rw [Node.first, Node.starts]
      have honce := node_starts hk hbelow hrule body hbody
      refine C.bind honce fun once hs => C.cons_starts hk hs ?_ fun j hj => hbelow j hj _ ?_
      · exact C.bind honce fun once hs => C.loop_starts hk hbelow hbody hs
      · exact List.forall_mem_singleton.mpr hbody
  | .alternation alternatives i description, hn => by
    cases hn with
    | alternation _ halternatives =>
      rw [Node.first, Node.starts]
      exact alternatives_starts hk hbelow hrule alternatives halternatives
  | .ruleRef r i, _ => by
    rw [Node.first, Node.starts]
    exact hrule r

theorem sequence_starts (hk : 0 < env.depth) (hbelow : C.BelowFilled types rules env)
    {rule : RuleId → Starts} (hrule : ∀ r, C.Ensures (env.rule r) (·.StartsAs (rule r))) :
    ∀ parts : List Node, (∀ n ∈ parts, n.Proper types rules) →
      C.Ensures (sequenceFirst env parts) (·.StartsAs (sequenceStarts rule parts))
  | [], _ => C.pure rfl
  | n :: rest, hparts => by
    rw [sequenceFirst, sequenceStarts]
    have hrest : ∀ m ∈ rest, m.Proper types rules := fun m hm => hparts m (by simp [hm])
    refine C.bind (node_starts hk hbelow hrule n (hparts n (by simp))) fun head hhead => ?_
    refine C.cons_starts hk hhead (sequence_starts hk hbelow hrule rest hrest) ?_
    intro j hj
    refine hbelow j hj _ fun x hx => ?_
    obtain ⟨m, hm, rfl⟩ := List.mem_map.mp hx
    exact hrest m hm

theorem alternatives_starts (hk : 0 < env.depth) (hbelow : C.BelowFilled types rules env)
    {rule : RuleId → Starts} (hrule : ∀ r, C.Ensures (env.rule r) (·.StartsAs (rule r))) :
    ∀ alternatives : List Node, (∀ n ∈ alternatives, n.Proper types rules) →
      C.Ensures (alternativesFirst env alternatives)
        (·.StartsAs (alternativesStarts rule alternatives))
  | [], _ => C.pure rfl
  | n :: rest, halternatives => by
    rw [alternativesFirst, alternativesStarts]
    have hrest : ∀ m ∈ rest, m.Proper types rules := fun m hm => halternatives m (by simp [hm])
    refine C.bind (node_starts hk hbelow hrule n (halternatives n (by simp))) fun s hs => ?_
    exact C.bind (alternatives_starts hk hbelow hrule rest hrest) fun t ht => C.pure (hs.union ht)

end

theorem pending_starts (hk : 0 < env.depth) (hbelow : C.BelowFilled types rules env)
    {rule : RuleId → Starts} (hrule : ∀ r, C.Ensures (env.rule r) (·.StartsAs (rule r)))
    (xs : List Pending) (hxs : ∀ x ∈ xs, x.part.Proper types rules) :
    C.Ensures (pendingFirst env xs) (·.StartsAs (pendingStarts rule xs)) := by
  induction xs with
  | nil => exact C.pure rfl
  | cons x rest ih =>
    obtain ⟨hx, hrest⟩ := List.forall_mem_cons.mp hxs
    have hfirst : C.Ensures (x.first env) (·.StartsAs (x.starts rule)) := by
      have hpart := C.node_starts hk hbelow hrule x.part hx
      cases x with
      | node n => exact hpart
      | loop body => exact C.bind hpart fun once honce => C.loop_starts hk hbelow hx honce
    exact C.bind hfirst fun head hhead =>
      C.cons_starts hk hhead (ih hrest) fun j hj => hbelow j hj rest hrest

end Contract

/-! ## The starts of a grammar -/

/-- What is returned, if something is, is right. -/
def whenReturned : Contract (Except LeftRecursion) where
  Ensures x post := ∀ a, x = .ok a → post a
  pure h := fun _ heq => Except.ok.inj heq ▸ h
  bind {α β x f mid post} hx hf := by
    intro b hb
    cases x with
    | error l => cases hb
    | ok a => exact hf a (hx a rfl) b hb
  mono hx hpost := fun a ha => hpost a (hx a ha)

namespace Grammar

variable {g : Grammar} {types k : Nat}

/-- The starts of a rule, as far as `room` invocations in one another lead. -/
def ruleStarts (g : Grammar) : Nat → RuleId → Starts
  | 0, _ => []
  | room + 1, r =>
    match g.get? r with
    | some rule => rule.body.starts (g.ruleStarts room)
    | none => []

theorem plainRule_starts (hg : g.Proper types) (hk : 0 < k)
    {below : Nat → List Pending → Except LeftRecursion PathSet}
    (hbelow : ∀ j < k, ∀ xs : List Pending, (∀ x ∈ xs, x.part.Proper types g.size) →
      whenReturned.Ensures (below j xs) (· ≠ [])) :
    ∀ room active r, whenReturned.Ensures (g.plainRule k below room active r)
      (·.StartsAs (g.ruleStarts room r)) := by
  intro room
  induction room with
  | zero =>
    intro active r
    by_cases hmem : r ∈ active
    · rw [plainRule_of_mem hmem]
      exact fun s hs => by cases hs
    · rw [plainRule_zero hmem]
      exact whenReturned.pure rfl
  | succ room ih =>
    intro active r
    by_cases hmem : r ∈ active
    · rw [plainRule_of_mem hmem]
      exact fun s hs => by cases hs
    rw [ruleStarts]
    cases hr : g.get? r with
    | none =>
      rw [plainRule_of_none hmem hr]
      exact whenReturned.pure rfl
    | some rule =>
      rw [plainRule_of_some hmem hr]
      have henv : whenReturned.BelowFilled types g.size
          ⟨k, g.plainRule k below room (active ++ [r]), below⟩ := hbelow
      exact whenReturned.node_starts hk henv (ih (active ++ [r])) rule.body (hg r rule hr)

theorem nodup_extendM (k : Nat) (heads : PathSet)
    (tails : Nat → Except LeftRecursion PathSet) :
    whenReturned.Ensures (PathSet.extendM k heads tails) (·.Nodup) := by
  refine whenReturned.mono
    (whenReturned.extendM_tails (R := fun _ _ => True) fun _ _ _ _ _ => trivial) ?_
  rintro s ⟨made, rfl, -⟩
  exact nodup_eraseDups _

/-- No path is found twice. -/
theorem plainFirst_nodup {xs : List Pending} {s : PathSet} (h : g.plainFirst k xs = .ok s) :
    s.Nodup := by
  cases k with
  | zero =>
    obtain rfl : PathSet.epsilon = s := Except.ok.inj h
    exact List.nodup_singleton _
  | succ k =>
    cases xs with
    | nil =>
      obtain rfl : PathSet.epsilon = s := Except.ok.inj h
      exact List.nodup_singleton _
    | cons x rest =>
      exact whenReturned.bind (fun _ _ => trivial)
        (fun head (_ : True) => nodup_extendM (k + 1) head _) s h

/-- Pending parts have the same starts at all depths, found in the same order. -/
theorem plainFirst_starts (hg : g.Proper types) (hrec : ¬ g.LeftRecursive) (hk : 0 < k)
    {xs : List Pending} (hxs : ∀ x ∈ xs, x.part.Proper types g.size) {s : PathSet}
    (h : g.plainFirst k xs = .ok s) : s.StartsAs (pendingStarts (g.ruleStarts g.size) xs) := by
  obtain ⟨k, rfl⟩ := Nat.exists_eq_succ_of_ne_zero (Nat.ne_of_gt hk)
  have hbelow : ∀ j < k + 1, ∀ xs : List Pending, (∀ x ∈ xs, x.part.Proper types g.size) →
      whenReturned.Ensures (g.plainBelow (k + 1) j xs) (· ≠ []) := by
    intro j hj xs hxs s hs
    rw [plainBelow_of_lt hj] at hs
    obtain ⟨p, hp⟩ := exists_opens hg hrec j xs hxs
    exact List.ne_nil_of_mem ((isFirst_of_plainFirst hs p).mpr hp)
  have henv : whenReturned.BelowFilled types g.size
      ⟨k + 1, g.plainRule (k + 1) (g.plainBelow (k + 1)) g.size [], g.plainBelow (k + 1)⟩ := hbelow
  exact whenReturned.pending_starts hk henv (plainRule_starts hg hk hbelow g.size []) xs hxs s h

theorem exists_plainFirst (hrec : ¬ g.LeftRecursive) (k : Nat) (xs : List Pending) :
    ∃ s, g.plainFirst k xs = .ok s := by
  obtain ⟨s, hs, -⟩ := exists_first hrec FirstCache.sound_empty k xs
  exact ⟨s, (exec_first FirstCache.consistent_empty xs).1 ▸ hs⟩

/-- A node that is not empty hides what follows it: the first types are its own, at all depths. -/
theorem plainFirst_heads (hg : g.Proper types) (hrec : ¬ g.LeftRecursive) (hk : 0 < k) {n : Node}
    {rest : List Pending} (hn : n.Proper types g.size)
    (hrest : ∀ x ∈ rest, x.part.Proper types g.size) (hfull : ¬ g.Erasable [.node n])
    {s : PathSet} (h : g.plainFirst k (.node n :: rest) = .ok s) :
    (s.filterMap (·.head?)).eraseDups =
      ((n.starts (g.ruleStarts g.size)).filterMap id).eraseDups := by
  have hnone : none ∉ n.starts (g.ruleStarts g.size) := by
    have hone : ∀ x ∈ [Pending.node n], x.part.Proper types g.size :=
      List.forall_mem_singleton.mpr hn
    obtain ⟨alone, halone⟩ := exists_plainFirst hrec 1 [.node n]
    have hstarts := plainFirst_starts hg hrec Nat.one_pos hone halone
    rw [pendingStarts, pendingStarts, Starts.andThen_none, Pending.starts] at hstarts
    intro hmem
    have hopens := (isFirst_of_plainFirst halone []).mp (hstarts.nil_mem.mpr hmem)
    exact hfull ((opens_nil_iff_erasable Nat.one_pos).mp hopens)
  have hall : ∀ x ∈ .node n :: rest, x.part.Proper types g.size :=
    List.forall_mem_cons.mpr ⟨hn, hrest⟩
  have hstarts := plainFirst_starts hg hrec hk hall h
  rw [pendingStarts, Pending.starts, Starts.andThen_eq_self hnone] at hstarts
  exact hstarts.heads

end Grammar

end StrongLL
