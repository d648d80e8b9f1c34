import Mathlib.Data.Finset.Prod
import StrongLL.Proofs.Moments
import StrongLL.Proofs.Steps

/-!
# StrongLL.Proofs.Nesting

How deep invocations can be nested:

* `Expands.leadsTo`     — what an expansion comes to before it emits anything is led to by its
  beginning.
* `Around`              — the invocations around another one, as long as no token comes between.
* `Moment.Sound`        — what holds at every moment; `Moment.Sound.step` keeps it.
* `Around.nodup`        — no rule is active twice from the same place on, for that would be left
  recursion.
* `Draft.parse_nesting` — a run ends, every iteration consumes a token, and the nesting is linear in
  the input whatever the limit is.
-/

namespace StrongLL

/-! ## Before the first token -/

/-- A chain of leading invocations goes from the part to `r`. -/
def Pending.LeadsTo (g : Grammar) (x : Pending) (r : RuleId) : Prop :=
  ∃ a, Leads g x.part a ∧ Relation.ReflTransGen g.LeftCalls a r

/-- One of the parts leads to `r`, and all parts before it can be empty. -/
def LeadsTo (g : Grammar) : List Pending → RuleId → Prop
  | [], _ => False
  | x :: rest, r => x.LeadsTo g r ∨ (g.Erasable [x] ∧ LeadsTo g rest r)

section

variable {g : Grammar} {r : RuleId}

theorem leadsTo_singleton {x : Pending} : LeadsTo g [x] r ↔ x.LeadsTo g r := by
  simp [LeadsTo]

theorem leadsTo_append {xs ys : List Pending} (h : LeadsTo g (xs ++ ys) r) :
    LeadsTo g xs r ∨ (g.Erasable xs ∧ LeadsTo g ys r) := by
  induction xs with
  | nil => exact .inr ⟨.refl, h⟩
  | cons x xs ih =>
    obtain hx | ⟨hx, hxs⟩ := h
    · exact .inl (.inl hx)
    · obtain hxs | ⟨hxs, hys⟩ := ih hxs
      · exact .inl (.inr ⟨hx, hxs⟩)
      · exact .inr ⟨Expands.trans (Expands.append_right hx xs) hxs, hys⟩

theorem LeadsTo.sequence {parts : List Node} (h : LeadsTo g (parts.map .node) r) :
    (Pending.node (.sequence parts)).LeadsTo g r := by
  induction parts with
  | nil => exact h.elim
  | cons n rest ih =>
    obtain ⟨a, ha, hr⟩ | ⟨hn, hrest⟩ := h
    · exact ⟨a, ha.sequence_head, hr⟩
    · obtain ⟨a, ha, hr⟩ := ih hrest
      exact ⟨a, ha.sequence_tail hn, hr⟩

/-- What a silent step makes of a part leads nowhere that the part does not lead. -/
theorem Unfolds.leadsTo {x : Pending} {xs : List Pending} (hu : Unfolds g x [] xs)
    (h : LeadsTo g xs r) : x.LeadsTo g r := by
  cases hu with
  | sequence => exact h.sequence
  | skip | stop => exact h.elim
  | enter =>
    obtain ⟨a, ha, hr⟩ := leadsTo_singleton.mp h
    exact ⟨a, .optional ha, hr⟩
  | many =>
    obtain ⟨a, ha, hr⟩ := leadsTo_singleton.mp h
    exact ⟨a, .repetition ha, hr⟩
  | atLeastOne =>
    -- the further iterations lead where the first one does
    obtain ⟨a, ha, hr⟩ | ⟨-, h⟩ := h
    · exact ⟨a, .repetition ha, hr⟩
    · obtain ⟨a, ha, hr⟩ := leadsTo_singleton.mp h
      exact ⟨a, .repetition ha, hr⟩
  | again =>
    obtain ⟨a, ha, hr⟩ | ⟨-, h⟩ := h
    · exact ⟨a, ha, hr⟩
    · exact leadsTo_singleton.mp h
  | alternative hn =>
    obtain ⟨a, ha, hr⟩ := leadsTo_singleton.mp h
    exact ⟨a, .alternation hn ha, hr⟩
  | ruleRef hrule =>
    obtain ⟨a, ha, hr⟩ := leadsTo_singleton.mp h
    exact ⟨_, .ruleRef, .head ⟨_, hrule, ha⟩ hr⟩

theorem Expands.leadsTo {xs left : List Pending} {p : Path} (h : Expands g xs p left)
    (hp : p = []) {i : Nat} {rest : List Pending} (hleft : left = .node (.ruleRef r i) :: rest) :
    LeadsTo g xs r := by
  induction h using Expands.rec_unfolds with
  | refl xs =>
    subst hleft
    exact .inl ⟨r, .ruleRef, .refl⟩
  | @step x xs rest' left p q hu _ ih =>
    obtain ⟨rfl, rfl⟩ := List.append_eq_nil_iff.mp hp
    obtain hxs | ⟨hxs, hrest⟩ := leadsTo_append (ih rfl hleft)
    · exact .inl (hu.leadsTo hxs)
    · have hxs : Expands g (xs ++ []) [] [] := by rwa [List.append_nil]
      exact .inr ⟨hxs.step hu, hrest⟩

end

/-! ## Active invocations -/

namespace Task

def pending : Task → Pending
  | node n => .node n
  | loop _ body => .loop body

end Task

/-- A task gives way to others by a step of an expansion. -/
theorem Parser.GivesWay.unfolds {p : Parser} {r : RuleId} {s : RunState} {task : Task}
    {tasks : List Task} (h : p.GivesWay r s task tasks) :
    Unfolds p.grammar task.pending [] (tasks.map (·.pending)) := by
  cases h with
  | sequence =>
    rw [List.map_map]
    exact .sequence
  | enter _ => exact .enter
  | skip _ => exact .skip
  | many => exact .many
  | atLeastOne _ => exact .atLeastOne
  | alternative hn =>
    obtain ⟨branch, -, hbranch⟩ := Option.bind_eq_some_iff.mp hn
    exact .alternative (List.mem_of_getElem? hbranch)
  | again _ => exact .again
  | stop _ => exact .stop

namespace Frame

def pending (f : Frame) : List Pending := f.tasks.map (·.pending)

/-- The rule and where it was entered. -/
def key (f : Frame) : RuleId × Nat := (f.rule, f.position)

end Frame

/-- The rule `r` was entered at `start`, and unless a token came since then, `xs` is what an
expansion of its body has left after emitting nothing. -/
def Entered (g : Grammar) (r : RuleId) (start : Nat) (xs : List Pending) (position : Nat) : Prop :=
  start ≤ position ∧
    ∃ rule, g.get? r = some rule ∧ (start = position → Expands g [.node rule.body] [] xs)

/-- The frames around an invocation of `r` that was entered at `start`. -/
inductive Around (g : Grammar) : RuleId → Nat → List Frame → Prop where
  | nil {r : RuleId} {start : Nat} : Around g r start []
  | cons {r : RuleId} {start i : Nat} {f : Frame} {outer : List Frame} :
      Entered g f.rule f.position (.node (.ruleRef r i) :: f.pending) start →
      Around g f.rule f.position outer → Around g r start (f :: outer)

section

variable {g : Grammar} {r : RuleId} {start position n : Nat} {xs ys : List Pending}
  {outer : List Frame}

theorem Entered.lt (h : Entered g r start xs position) : r < g.size :=
  let ⟨_, _, hr, _⟩ := h
  Grammar.get?_eq_some_lt hr

theorem Entered.expands (h : Entered g r start xs position)
    (hsilent : Expands g xs [] ys) : Entered g r start ys position := by
  obtain ⟨hle, rule, hr, hxs⟩ := h
  exact ⟨hle, rule, hr, fun heq => (hxs heq).trans hsilent⟩

theorem Entered.unfolds {x : Pending} (h : Entered g r start (x :: xs) position)
    (hu : Unfolds g x [] ys) : Entered g r start (ys ++ xs) position :=
  h.expands (Expands.refl.step hu)

/-- After a token, nothing is asked of what is left. -/
theorem Entered.consumed (h : Entered g r start xs position) :
    Entered g r start ys (position + 1) := by
  obtain ⟨hle, rule, hr, -⟩ := h
  exact ⟨by omega, rule, hr, fun heq => by omega⟩

/-- An invocation from the same place is led to. -/
theorem Entered.transGen {callee : RuleId} {i : Nat}
    (h : Entered g r start (.node (.ruleRef callee i) :: xs) start) :
    Relation.TransGen g.LeftCalls r callee := by
  obtain ⟨-, rule, hr, hxs⟩ := h
  obtain ⟨a, ha, hcallee⟩ | ⟨-, h⟩ := (hxs rfl).leadsTo rfl rfl
  · exact .head' ⟨rule, hr, ha⟩ hcallee
  · exact h.elim

namespace Around

theorem le (h : Around g r start outer) : ∀ f ∈ outer, f.rule < g.size ∧ f.position ≤ start := by
  induction h with
  | nil => simp
  | @cons r start i f outer hf _ ih =>
    intro f' hf'
    obtain rfl | hf' := List.mem_cons.mp hf'
    · exact ⟨hf.lt, hf.1⟩
    · exact ⟨(ih f' hf').1, Nat.le_trans (ih f' hf').2 hf.1⟩

theorem transGen (h : Around g r start outer) :
    ∀ f ∈ outer, f.position = start → Relation.TransGen g.LeftCalls f.rule r := by
  induction h with
  | nil => simp
  | @cons r start i f outer hf houter ih =>
    intro f' hf' heq
    obtain rfl | hf' := List.mem_cons.mp hf'
    · subst heq
      exact hf.transGen
    · -- what is further out was entered no later
      have hle := (houter.le f' hf').2
      have hstart : f.position = start := Nat.le_antisymm hf.1 (heq ▸ hle)
      have hinner : Relation.TransGen g.LeftCalls f.rule r := by
        subst hstart
        exact hf.transGen
      exact (ih f' hf' (heq.trans hstart.symm)).trans hinner

theorem nodup (hrec : ¬ g.LeftRecursive) (h : Around g r start outer) :
    ((r, start) :: outer.map (·.key)).Nodup := by
  induction h with
  | nil => simp
  | @cons r start i f outer hf houter ih =>
    refine List.nodup_cons.mpr ⟨?_, ih⟩
    intro hmem
    obtain ⟨f', hf', hkey⟩ := List.mem_map.mp hmem
    obtain ⟨rfl, rfl⟩ : f'.rule = r ∧ f'.position = start := by simpa [Frame.key] using hkey
    exact hrec ⟨f'.rule, (Around.cons hf houter).transGen f' hf' rfl⟩

end Around

/-- There are only so many rules and places. -/
theorem length_le_of_nodup {keys : List (RuleId × Nat)} (size n : Nat) (hnodup : keys.Nodup)
    (hkeys : ∀ key ∈ keys, key.1 < size ∧ key.2 ≤ n) : keys.length ≤ size * (n + 1) := by
  have hsub : keys.toFinset ⊆ Finset.range size ×ˢ Finset.range (n + 1) := by
    intro key hkey
    obtain ⟨hrule, hplace⟩ := hkeys key (List.mem_toFinset.mp hkey)
    exact Finset.mem_product.mpr
      ⟨Finset.mem_range.mpr hrule, Finset.mem_range.mpr (Nat.lt_succ_of_le hplace)⟩
  calc keys.length = keys.toFinset.card := (List.toFinset_card_of_nodup hnodup).symm
    _ ≤ (Finset.range size ×ˢ Finset.range (n + 1)).card := Finset.card_le_card hsub
    _ = size * (n + 1) := by simp

theorem Around.length_lt (hrec : ¬ g.LeftRecursive) (h : Around g r start outer) (hr : r < g.size)
    (hstart : start ≤ n) : outer.length < g.size * (n + 1) := by
  have hlen := length_le_of_nodup g.size n (h.nodup hrec) ?_
  · simpa using hlen
  · intro key hkey
    obtain rfl | hkey := List.mem_cons.mp hkey
    · exact ⟨hr, hstart⟩
    · obtain ⟨f, hf, rfl⟩ := List.mem_map.mp hkey
      exact ⟨(h.le f hf).1, Nat.le_trans (h.le f hf).2 hstart⟩

end

/-! ## All moments -/

namespace Moment

/-- What holds at every moment of a run on `n` tokens. -/
inductive Sound (g : Grammar) (limit : Option Nat) (n : Nat) : Moment → Prop where
  | calling {r : RuleId} {outer : List Frame} {s : RunState} :
      s.position + s.rest.length = n → Around g r s.position outer →
      Sound g limit n (.calling r outer s)
  | working {f : Frame} {outer : List Frame} {s : RunState} :
      s.position + s.rest.length = n → Entered g f.rule f.position f.pending s.position →
      Around g f.rule f.position outer → Sound g limit n (.working f outer s)
  | returning {t : ParseTree} {start : Nat} {outer : List Frame} {s : RunState} :
      s.position + s.rest.length = n → Entered g t.rule start [] s.position →
      Around g t.rule start outer → Sound g limit n (.returning t outer s)
  | ended {result : Except RunError (ParseTree × RunState)} :
      (∀ e, result = .error e → ∀ m, e.mismatch.expected = .nestingLimit m →
        limit = some m ∧ m < g.size * (n + 1)) → Sound g limit n (.ended result)

variable {g : Grammar} {limit : Option Nat} {n : Nat}

/-- An error that is not about the limit. -/
theorem Sound.fail {s : RunState} {r : RuleId} {o : Option Occurrence} {expected : Expectation}
    (h : ∀ m, expected ≠ .nestingLimit m) : Sound g limit n (.ended (s.fail r o expected)) := by
  refine .ended fun e he m hm => ?_
  cases he
  exact absurd hm (h m)

/-- A task is begun by a step of an expansion, or it takes a token. -/
theorem Sound.begins {p : Parser} {f : Frame} {outer : List Frame} {s : RunState} {task : Task}
    {m : Moment} (hs : s.position + s.rest.length = n)
    (hf : Entered p.grammar f.rule f.position (task.pending :: f.pending) s.position)
    (houter : Around p.grammar f.rule f.position outer) (h : p.Begins f outer s task m) :
    Sound p.grammar limit n m := by
  cases h with
  | push hgives =>
    refine .working hs ?_ houter
    simpa [Frame.pending, Frame.push] using hf.unfolds hgives.unfolds
  | @take _ _ token rest hrest _ =>
    refine .working ?_ hf.consumed houter
    rw [hrest, List.length_cons] at hs
    show s.position + 1 + rest.length = n
    omega
  | call => exact .calling hs (.cons hf houter)
  | fail hrefuses => exact .fail (by cases hrefuses <;> simp)

/-- An invocation that consumed nothing is one of a rule that can be empty. -/
theorem Sound.resume {t : ParseTree} {start i : Nat} {f : Frame}
    {outer : List Frame} {s : RunState} (hs : s.position + s.rest.length = n)
    (ht : Entered g t.rule start [] s.position)
    (hf : Entered g f.rule f.position (.node (.ruleRef t.rule i) :: f.pending) start)
    (houter : Around g f.rule f.position outer) :
    Sound g limit n (.working (f.add [t.node]) outer s) := by
  obtain ⟨hle, rule, hr, herased⟩ := ht
  obtain ⟨hle', rule', hr', hleft⟩ := hf
  refine .working hs ⟨Nat.le_trans hle' hle, rule', hr', fun heq => ?_⟩ houter
  have heq : f.position = s.position := heq
  have hstart : start = s.position := by omega
  have hcall : Expands g [.node (.ruleRef t.rule i)] [] [] := .ruleRef hr (herased hstart)
  exact (hleft (heq.trans hstart.symm)).trans (hcall.append_right f.pending)

theorem Sound.step {p : Parser} (hrec : ¬ p.grammar.LeftRecursive)
    {m : Moment} (h : Sound p.grammar limit n m) : Sound p.grammar limit n (p.step limit m) := by
  have hgoes := p.goes limit m
  generalize p.step limit m = m' at hgoes ⊢
  cases hgoes with
  | @enter r rule outer s hr _ =>
    cases h with
    | calling hs houter => exact .working hs ⟨Nat.le_refl _, rule, hr, fun _ => .refl⟩ houter
  | unknown _ => exact .fail (by simp)
  | tooDeep hr hlimit hfull =>
    cases h with
    | calling hs houter =>
      refine .ended fun e he m' hm' => ?_
      cases he
      cases hm'
      have hbound := houter.length_lt hrec (Grammar.get?_eq_some_lt hr) (n := n) (by omega)
      exact ⟨hlimit, Nat.lt_of_le_of_lt hfull hbound⟩
  | @work f task tasks outer s m' htasks hbegins =>
    cases h with
    | working hs hf houter =>
      have hcons : f.pending = task.pending :: tasks.map (·.pending) := by
        rw [Frame.pending, htasks, List.map_cons]
      exact .begins (f := { f with tasks }) hs (hcons ▸ hf) houter hbegins
  | @finish f outer s htasks =>
    cases h with
    | working hs hf houter =>
      have hnil : f.pending = [] := by rw [Frame.pending, htasks, List.map_nil]
      exact .returning hs (hnil ▸ hf) houter
  | resume =>
    cases h with
    | returning hs ht houter =>
      cases houter with
      | cons hf houter => exact .resume hs ht hf houter
  | leftover _ _ => exact .fail (by simp)
  | complete _ => exact .ended fun e he => by cases he
  | stay => exact h

theorem Sound.steps {p : Parser} (hrec : ¬ p.grammar.LeftRecursive)
    {m m' : Moment} (hm : Sound p.grammar limit n m) (h : p.Steps limit m m') :
    Sound p.grammar limit n m' := by
  induction h with
  | refl => exact hm
  | tail _ hstep ih =>
    subst hstep
    exact ih.step hrec

theorem sound_start (r : RuleId) (w : List Token) :
    Sound g limit w.length (.start r w) :=
  .calling (Nat.zero_add _) .nil

/-- The active invocations of a rule were entered at different places. -/
theorem Sound.active (hrec : ¬ g.LeftRecursive) {m : Moment} (h : Sound g limit n m) :
    (m.active.map (·.key)).Nodup ∧ m.active.length ≤ g.size * (n + 1) := by
  have hframes : ∀ {r start outer}, Around g r start outer → start ≤ n →
      (outer.map (·.key)).Nodup ∧ outer.length ≤ g.size * (n + 1) := by
    intro r start outer houter hstart
    cases houter with
    | nil => simp
    | cons hf houter =>
      exact ⟨houter.nodup hrec, houter.length_lt hrec hf.lt (Nat.le_trans hf.1 hstart)⟩
  cases h with
  | calling hs houter => exact hframes houter (by omega)
  | working hs hf houter =>
    have hstart := hf.1
    exact ⟨houter.nodup hrec, houter.length_lt hrec hf.lt (by omega)⟩
  | returning hs ht houter =>
    have hstart := ht.1
    exact hframes houter (by omega)
  | ended _ => simp [Moment.active]

end Moment

namespace Parser

variable {p : Parser}

theorem Ready.iteration_consumes (hp : p.Ready) {rule : RuleId} {body : Node} {i : Nat}
    {atLeastOne : Bool} {after : List Pending}
    (hcontext : (rule, .repetition body i atLeastOne, after) ∈ p.grammar.contexts) {room : Nat}
    {s s' : RunState} {w : List TreeNode}
    (h : runNode p (p.runRule room) rule body s = .ok (w, s')) : s.position < s'.position := by
  have hbody := (Grammar.covers_of_mem hcontext).subset (List.subset_cons_self _ _)
  have houtcome := runNode_outcome hp (hp.runRule_outcome room) body _ hbody s
  rw [h] at houtcome
  exact (hp.iteration_progress hcontext houtcome).1

theorem Ready.not_nestingLimit (hp : p.Ready) {r : RuleId} {w : List Token}
    (hlimit : p.grammar.size * (w.length + 1) ≤ p.config.nestingLimit) {e : Mismatch}
    (h : p.parse r w = .error e) (m : Nat) : e.expected ≠ .nestingLimit m := by
  intro hexpected
  have hsound := (Moment.sound_start r w).steps hp.grounded (hp.steps_run r w)
  unfold parse at h
  cases hrun : p.run r w with
  | ok result =>
    rw [hrun] at h
    cases h
  | error err =>
    rw [hrun] at h hsound
    cases h
    cases hsound with
    | ended herror =>
      obtain ⟨hm, hbound⟩ := herror err rfl m hexpected
      cases hm
      omega

end Parser

/-- A run of a parser ends after finitely many steps with what the parser says. At each of its
moments, with any limit and with none, the active invocations of one rule were entered at different
places, so there are no more of them than rules times places. Every iteration of a repetition
consumes a token, and a limit that leaves room for so many invocations is never reached. -/
theorem Draft.parse_nesting {d : Draft} {p : Parser} (hp : d.parser = .ok p) (r : RuleId)
    (w : List Token) :
    (∃ n, (p.step (some p.config.nestingLimit))^[n] (.start r w) = .ended (p.run r w)) ∧
    (∀ limit n, (((p.step limit)^[n] (.start r w)).active.map (·.key)).Nodup ∧
      ((p.step limit)^[n] (.start r w)).active.length ≤ p.grammar.size * (w.length + 1)) ∧
    (∀ rule body i atLeastOne after,
      (rule, .repetition body i atLeastOne, after) ∈ p.grammar.contexts →
      ∀ room s made s', p.runNode (p.runRule room) rule body s = .ok (made, s') →
        s.position < s'.position) ∧
    (p.grammar.size * (w.length + 1) ≤ p.config.nestingLimit →
      ∀ e, p.parse r w = .error e → ∀ m, e.expected ≠ .nestingLimit m) := by
  have hready := parser_ready hp
  refine ⟨(hready.steps_run r w).exists_iterate, ?_, ?_, ?_⟩
  · intro limit n
    exact ((Moment.sound_start r w).steps hready.grounded (Parser.steps_iterate n _)).active
      hready.grounded
  · intro rule body i atLeastOne after hcontext room s made s' h
    exact hready.iteration_consumes hcontext h
  · intro hlimit e he m
    exact hready.not_nestingLimit hlimit he m

/-- On the list of two items at most 8 invocations are active at any moment, so a limit of 128 is
not reached. -/
theorem itemList_parse_nesting :
    (∃ n, (itemListParser.step (some 128))^[n] (.start 0 itemListTokens) =
      .ended (itemListParser.run 0 itemListTokens)) ∧
    (∀ limit n,
      ((itemListParser.step limit)^[n] (.start 0 itemListTokens)).active.length ≤ 8) ∧
    ∀ e, itemListParser.parse 0 (itemListTokens.take 2) = .error e →
      ∀ m, e.expected ≠ .nestingLimit m := by
  obtain ⟨hend, hactive, -, -⟩ := Draft.parse_nesting itemList_accepted 0 itemListTokens
  obtain ⟨-, -, -, hlimit⟩ := Draft.parse_nesting itemList_accepted 0 (itemListTokens.take 2)
  exact ⟨hend, fun limit n => (hactive limit n).2, hlimit (by decide)⟩

end StrongLL
