import StrongLL.Proofs.DeeperLookahead
import StrongLL.Proofs.FirstTypes
import StrongLL.Proofs.Steps
import StrongLL.Proofs.WellFormed

/-!
# StrongLL.Proofs.ErrorCauses

What an error says is expected, and why it was not there:

* `Mismatch.IsRefusal`   — a task of the rule could not be begun before the rest of the input.
* `Moment.Explained`     — a run stands where it says in the input, or ends with such an error;
  `Moment.Explained.step` keeps it.
* `Parser.Ready.parse_error_refusal` — so every error at an occurrence is one.
* `Draft.parse_error_consistent` — an error that names a type of the token it shows is about a later
  token, within the lookahead of a repetition, unless another type has the name.
* `Draft.parse_error_atLeastOne` — a repetition that cannot be begun names the types that open its
  body, whatever the lookahead.
-/

namespace StrongLL

/-- With a lookahead of one, the type that a way starts with is all that counts. -/
theorem Grammar.Ways.admits_one {g : Grammar} {v : Vocabulary} {r : RuleId} {xs : List Pending}
    {x : TypeId} {q : Path} (h : g.Ways 1 r xs (x :: q)) {kind : TypeId} {kinds : List TypeId}
    (haccepts : v.accepts x kind = true) : g.Admits v 1 r xs (kind :: kinds) := by
  obtain ⟨outer, -, hopens⟩ := id h
  obtain rfl : q = [] := by simpa using hopens.length_le
  exact ⟨[x], h, .cons haccepts .nil⟩

/-! ## What a run knows -/

/-- A task of the rule cannot be begun before what is left of the input at the place. -/
def Mismatch.IsRefusal (p : Parser) (w : List Token) (e : Mismatch) (o : Occurrence) : Prop :=
  ∃ task s, task.Within p.grammar e.rule ∧ s.rest = w.drop e.position ∧ e.found = s.rest.head? ∧
    p.Refuses e.rule s task o e.expected

/-- The tokens to come are those behind the place that was reached, and an error at an occurrence
is a refusal. -/
def Moment.Explained (p : Parser) (w : List Token) : Moment → Prop
  | .calling _ _ s => s.rest = w.drop s.position
  | .working _ _ s => s.rest = w.drop s.position
  | .returning _ _ s => s.rest = w.drop s.position
  | .ended (.ok _) => True
  | .ended (.error e) => ∀ o, e.mismatch.occurrence = some o → e.mismatch.IsRefusal p w o

namespace Moment

variable {p : Parser} {limit : Option Nat} {w : List Token} {types : Nat}

theorem explained_fail {s : RunState} {r : RuleId} {expected : Expectation} :
    (ended (s.fail r none expected)).Explained p w := fun _ ho => by cases ho

theorem Explained.begins {f : Frame} {outer : List Frame} {s : RunState} {task : Task}
    {m : Moment} (htask : task.Within p.grammar f.rule) (hs : s.rest = w.drop s.position)
    (h : p.Begins f outer s task m) : m.Explained p w := by
  cases h with
  | push _ => exact hs
  | @take _ _ token rest hrest _ =>
    have htail := congrArg List.tail hs
    rw [hrest, List.tail_drop] at htail
    exact htail
  | call => exact hs
  | fail hrefuses =>
    intro o ho
    cases ho
    exact ⟨task, s, htask, hs, rfl, hrefuses⟩

theorem Explained.step {m : Moment} (hwithin : m.Within p.grammar) (h : m.Explained p w) :
    (p.step limit m).Explained p w := by
  have hgoes := p.goes limit m
  generalize p.step limit m = m' at hgoes ⊢
  cases hgoes with
  | @work f task tasks outer s m' htasks hbegins =>
    have hf := (List.forall_mem_cons.mp hwithin.active).1
    exact .begins (f := { f with tasks }) (hf task (by simp [htasks])) h hbegins
  | enter _ _ | finish _ | resume => exact h
  | unknown _ | tooDeep _ _ _ | leftover _ _ => exact explained_fail
  | complete _ => trivial
  | stay => exact h

theorem Explained.iterate (hg : p.grammar.Proper types) {m : Moment} (hwithin : m.Within p.grammar)
    (h : m.Explained p w) (n : Nat) : ((p.step limit)^[n] m).Explained p w :=
  (Function.Iterate.rec (fun m : Moment => m.Within p.grammar ∧ m.Explained p w) ⟨hwithin, h⟩
    (fun _ hm => ⟨hm.1.step hg, hm.2.step hm.1⟩) n).2

end Moment

namespace Parser

variable {p : Parser} {r : RuleId} {w : List Token} {e : Mismatch} {o : Occurrence}

/-- A rule that does not exist fails as a whole. -/
theorem occurrence_of_get?_eq_none (hr : p.grammar.get? r = none) (h : p.parse r w = .error e) :
    e.occurrence = none := by
  have hrule : p.runRule p.config.nestingLimit r (.start w) =
      RunState.fail (.start w) r none (.tokens []) := by
    unfold runRule
    rw [hr]
  unfold parse run at h
  rw [hrule] at h
  cases h
  rfl

/-- An error at an occurrence of a rule is about a task there that cannot be begun. -/
theorem Ready.parse_error_refusal (hp : p.Ready) (h : p.parse r w = .error e)
    (ho : e.occurrence = some o) : e.IsRefusal p w o := by
  cases hr : p.grammar.get? r with
  | none =>
    rw [occurrence_of_get?_eq_none hr h] at ho
    cases ho
  | some rule =>
    obtain ⟨n, hn⟩ := (hp.steps_run r w).exists_iterate
    have hwithin := Moment.within_start (Grammar.get?_eq_some_lt hr) w
    have hexplained : ((p.step (some p.config.nestingLimit))^[n] (.start r w)).Explained p w :=
      .iterate hp.proper hwithin rfl n
    rw [hn] at hexplained
    unfold parse at h
    cases hrun : p.run r w with
    | ok result =>
      rw [hrun] at h
      cases h
    | error err =>
      rw [hrun] at h hexplained
      cases h
      exact hexplained o ho

/-- An error that names types of tokens stands where a token is to be consumed or an iteration is to
be begun. Only in the second case can it name the type of the token that it shows. -/
theorem Refuses.named {s : RunState} {task : Task} {types : List TypeId}
    (h : p.Refuses r s task o (.tokens types)) {t : Token} (ht : s.rest.head? = some t) {x : TypeId}
    (hx : x ∈ types) (haccepts : p.vocabulary.accepts x t.kind = true) :
    ∃ body i, task = .node (.repetition body i true) ∧ o = ⟨.atLeastOne, i⟩ ∧
      types = p.firstTypes ⟨r, o⟩ ∧ p.predict ⟨r, o⟩ s ≠ some 0 := by
  cases h with
  | token hnone =>
    obtain rfl := List.mem_singleton.mp hx
    rw [hnone t ht] at haccepts
    cases haccepts
  | @iteration body i hout => exact ⟨body, i, rfl, rfl, rfl, hout⟩

end Parser

/-! ## What an error shows and what it names -/

namespace Draft

variable {d : Draft} {p : Parser} {r : RuleId} {w : List Token} {e : Mismatch}

/-- A type that is named for a repetition starts a way into it. -/
theorem exists_way_of_firstTypes (hp : d.parser = .ok p) {body : Node} {i : Nat}
    {after : List Pending} (hcontext : (r, .repetition body i true, after) ∈ p.grammar.contexts)
    {x : TypeId} (hx : x ∈ p.firstTypes ⟨r, ⟨.atLeastOne, i⟩⟩) :
    ∃ q, p.grammar.Ways p.config.lookahead r (.node body :: .loop body :: after) (x :: q) := by
  obtain ⟨paths, hpaths, heads⟩ := firstTypes_atLeastOne hp hcontext
  rw [heads, List.mem_eraseDups] at hx
  obtain ⟨path, hmem, hhead⟩ := List.mem_filterMap.mp hx
  obtain ⟨q, rfl⟩ := List.head?_eq_some_iff.mp hhead
  refine ⟨q, [], .entry, ?_⟩
  rw [List.append_nil]
  exact (Grammar.isFirst_of_plainFirst hpaths _).mp hmem

/-- The error would contradict itself if it listed the name of a type of the token that it shows. If
this type is expected, and not only another one of its name, more than one token is looked at, a
repetition has to be begun, an iteration can start with the type, and yet none fits the tokens that
are looked at. -/
theorem parse_error_consistent (hp : d.parser = .ok p) (h : p.parse r w = .error e)
    {o : Occurrence} (ho : e.occurrence = some o) {types : List TypeId}
    (htypes : e.expected = .tokens types) {t : Token} (ht : e.found = some t) {x : TypeId}
    (hname : p.vocabulary.name x ∈ types.map p.vocabulary.name)
    (haccepts : p.vocabulary.accepts x t.kind = true) :
    (x ∉ types ∧ ∃ y ∈ types, p.vocabulary.name y = p.vocabulary.name x) ∨
    1 < p.config.lookahead ∧ ∃ body i after, o = ⟨.atLeastOne, i⟩ ∧
      (e.rule, .repetition body i true, after) ∈ p.grammar.contexts ∧
      (∃ q, p.grammar.Ways p.config.lookahead e.rule (.node body :: .loop body :: after) (x :: q)) ∧
      ¬ p.grammar.Admits p.vocabulary p.config.lookahead e.rule
        (.node body :: .loop body :: after) ((w.drop e.position).map (·.kind)) := by
  by_cases hx : x ∈ types
  swap
  · exact .inl ⟨hx, List.mem_map.mp hname⟩
  refine .inr ?_
  have hready := parser_ready hp
  obtain ⟨task, s, htask, hs, hfound, hrefuses⟩ := hready.parse_error_refusal h ho
  rw [htypes] at hrefuses
  rw [ht] at hfound
  obtain ⟨body, i, rfl, rfl, rfl, hout⟩ := hrefuses.named hfound.symm hx haccepts
  obtain ⟨after, hcontext⟩ := Grammar.hasNode_iff.mp htask
  obtain ⟨q, hq⟩ := exists_way_of_firstTypes hp hcontext hx
  have hadmits : ¬ p.grammar.Admits p.vocabulary p.config.lookahead e.rule
      (.node body :: .loop body :: after) s.kinds := fun hadmits =>
    hout (hready.predict_in (Grammar.repetition_mem_forks hcontext) (i := 0) rfl hadmits)
  refine ⟨?_, body, i, after, rfl, hcontext, ⟨q, hq⟩, ?_⟩
  · -- with a lookahead of one, the type alone would have admitted the token
    refine Nat.lt_of_le_of_ne hready.lookahead_pos fun hone => ?_
    obtain ⟨rest, hrest⟩ := List.head?_eq_some_iff.mp hfound.symm
    rw [RunState.kinds, hrest, List.map_cons] at hadmits
    rw [← hone] at hq hadmits
    exact hadmits (hq.admits_one haccepts)
  · rw [← hs]
    exact hadmits

end Draft

/-- One or more words, each with a comma, and a stop. -/
def wordLine : Draft where
  vocabulary := .ofSpecs [{ name := "word", pattern := .literal "a" },
    { name := "comma", pattern := .literal "," }, { name := "stop", pattern := .literal "." }]
  config := { lookahead := 2 }
  rules := [⟨"line", some [.atLeastOne [.token 0, .token 1], .token 2]⟩]
  misuses := []

def wordLineParser : Parser where
  vocabulary := wordLine.vocabulary
  grammar := ⟨[⟨"line", .sequence [
    .repetition (.sequence [.terminal 0 1, .terminal 1 1]) 1 true, .terminal 2 1]⟩]⟩
  table := [(⟨0, ⟨.atLeastOne, 1⟩⟩, ⟨2, [⟨[[[0], [1]]], [0]⟩]⟩)]
  config := { lookahead := 2 }

theorem wordLine_accepted : wordLine.parser = .ok wordLineParser := by
  have hg : wordLine.grammar = .ok wordLineParser.grammar := rfl
  have htable : wordLineParser.grammar.table wordLine.vocabulary wordLine.config.lookahead =
      .ok wordLineParser.table := eq_ok_of_toOption (by decide +kernel)
  rw [Draft.parser_of_grammar hg, htable]
  rfl

def twoWords : List Token := [⟨0, "a", .start⟩, ⟨0, "a", ⟨1, 1, 2⟩⟩]

def wordExpected (found : Option Token) : Mismatch :=
  ⟨0, some ⟨.atLeastOne, 1⟩, .tokens [0], found, 0⟩

/-- The first of two words is shown, and a word is said to be expected. -/
theorem wordLine_parse_twoWords :
    wordLine.parser = .ok wordLineParser ∧
    wordLineParser.parse 0 twoWords = .error (wordExpected (some ⟨0, "a", .start⟩)) ∧
    wordLineParser.vocabulary.accepts 0 0 = true :=
  ⟨wordLine_accepted, rfl, by decide⟩

theorem wordLine_parse_error_consistent :
    wordLineParser.parse 0 twoWords = .error (wordExpected (some ⟨0, "a", .start⟩)) ∧
    ∃ body i after, (⟨.atLeastOne, 1⟩ : Occurrence) = ⟨.atLeastOne, i⟩ ∧
      (0, .repetition body i true, after) ∈ wordLineParser.grammar.contexts ∧
      (∃ q, wordLineParser.grammar.Ways 2 0 (.node body :: .loop body :: after) (0 :: q)) ∧
      ¬ wordLineParser.grammar.Admits wordLineParser.vocabulary 2 0
        (.node body :: .loop body :: after) [0, 0] := by
  have h : wordLineParser.parse 0 twoWords = .error (wordExpected (some ⟨0, "a", .start⟩)) := rfl
  have hword : (0 : TypeId) ∈ [0] := List.mem_singleton.mpr rfl
  obtain ⟨hnone, -⟩ | ⟨-, hcause⟩ := Draft.parse_error_consistent wordLine_accepted h rfl rfl rfl
    (List.mem_map_of_mem hword) (by decide)
  · exact absurd hword hnone
  · exact ⟨h, hcause⟩

/-! ## What a repetition names -/

/-- No two nodes of a rule have the same decision. -/
theorem Parser.WellFormed.node_unique {p : Parser} (hp : p.WellFormed) {r : RuleId} {n m : Node}
    {o : Occurrence} (hn : p.grammar.HasNode r n) (hm : p.grammar.HasNode r m)
    (hno : n.occurrence? = some o) (hmo : m.occurrence? = some o) : n = m := by
  have hn : (⟨r, o⟩, n) ∈ p.grammar.decisionPoints := Grammar.mem_decisionPoints.mpr ⟨hn, hno⟩
  have hm : (⟨r, o⟩, m) ∈ p.grammar.decisionPoints := Grammar.mem_decisionPoints.mpr ⟨hm, hmo⟩
  exact congrArg Prod.snd (List.inj_on_of_nodup_map hp.keys hn hm rfl)

namespace Parser

variable {p : Parser} {r : RuleId} {w : List Token} {e : Mismatch} {i : Nat}

theorem Refuses.atLeastOne {s : RunState} {task : Task} {expected : Expectation}
    (h : p.Refuses r s task ⟨.atLeastOne, i⟩ expected) :
    ∃ body, task = .node (.repetition body i true) ∧
      expected = .tokens (p.firstTypes ⟨r, ⟨.atLeastOne, i⟩⟩) := by
  generalize ho : (⟨.atLeastOne, i⟩ : Occurrence) = o at h
  cases h with
  | token _ => cases ho
  | alternative _ => cases ho
  | @iteration body j _ =>
    cases ho
    exact ⟨body, rfl, rfl⟩

theorem Ready.expected_atLeastOne (hp : p.Ready) (h : p.parse r w = .error e)
    (ho : e.occurrence = some ⟨.atLeastOne, i⟩) :
    ∃ body, p.grammar.HasNode e.rule (.repetition body i true) ∧
      e.expected = .tokens (p.firstTypes ⟨e.rule, ⟨.atLeastOne, i⟩⟩) := by
  obtain ⟨task, s, htask, -, -, hrefuses⟩ := hp.parse_error_refusal h ho
  obtain ⟨body, rfl, hexpected⟩ := hrefuses.atLeastOne
  exact ⟨body, htask, hexpected⟩

end Parser

namespace Draft

variable {d : Draft} {p p' : Parser} {c : Config} {r : RuleId} {w : List Token} {e : Mismatch}
  {i : Nat}

theorem grammar_eq_of_withConfig (hp : d.parser = .ok p)
    (hp' : { d with config := c }.parser = .ok p') : p'.grammar = p.grammar := by
  have hg' := (parser_eq_ok hp').1
  rw [grammar_withConfig (parser_eq_ok hp).1 (lookahead_pos hg')] at hg'
  exact (Except.ok.inj hg').symm

/-- The same types are named whatever is chosen for the parser. -/
theorem firstTypes_withConfig (hp : d.parser = .ok p)
    (hp' : { d with config := c }.parser = .ok p') {body : Node}
    (hbody : p.grammar.HasNode r (.repetition body i true)) :
    p'.firstTypes ⟨r, ⟨.atLeastOne, i⟩⟩ = p.firstTypes ⟨r, ⟨.atLeastOne, i⟩⟩ := by
  obtain ⟨after, hcontext⟩ := Grammar.hasNode_iff.mp hbody
  have hfirst := firstTypes_eq_first hp hcontext
  rw [← grammar_eq_of_withConfig hp hp'] at hcontext
  have hfirst' := firstTypes_eq_first hp' hcontext
  rw [grammar_eq_of_withConfig hp hp', hfirst] at hfirst'
  exact (List.map_injective_iff.mpr List.singleton_injective (Except.ok.inj hfirst')).symm

/-- Where a repetition that has to be begun cannot be, the error names the types that open its body,
each once, in the order in which the first set of the body has them, and no others. Parsers of the
same grammar with another lookahead name the same types there. -/
theorem parse_error_atLeastOne (hp : d.parser = .ok p) (h : p.parse r w = .error e)
    (ho : e.occurrence = some ⟨.atLeastOne, i⟩) :
    ∃ body types, p.grammar.HasNode e.rule (.repetition body i true) ∧
      (∀ other, p.grammar.HasNode e.rule (.repetition other i true) → other = body) ∧
      e.expected = .tokens types ∧ types.Nodup ∧
      (∀ t, t ∈ types ↔ p.grammar.Opens 1 [.node body] [t]) ∧
      ((p.grammar.firstOfNode 1 body).exec .empty).1 = .ok (types.map fun t => [t]) ∧
      ∀ c p', { d with config := c }.parser = .ok p' → ∀ r' w' e', p'.parse r' w' = .error e' →
        e'.rule = e.rule → e'.occurrence = e.occurrence → e'.expected = e.expected := by
  obtain ⟨body, hbody, hexpected⟩ := (parser_ready hp).expected_atLeastOne h ho
  obtain ⟨after, hcontext⟩ := Grammar.hasNode_iff.mp hbody
  have hfirst := firstTypes_eq_first hp hcontext
  refine ⟨body, _, hbody, ?_, hexpected, ?_, ?_, ?_, ?_⟩
  · intro other hother
    have heq := (wellFormed hp).node_unique hother hbody rfl rfl
    cases heq
    rfl
  · obtain ⟨s, -, heads⟩ := firstTypes_atLeastOne hp hcontext
    rw [heads]
    exact nodup_eraseDups _
  · intro t
    rw [← Grammar.isFirst_of_plainFirst hfirst [t]]
    simp
  · exact (Grammar.exec_first FirstCache.consistent_empty [.node body]).1.trans hfirst
  · intro c p' hp' r' w' e' h' hrule hoccurrence
    obtain ⟨-, -, hexpected'⟩ :=
      (parser_ready hp').expected_atLeastOne h' (hoccurrence.trans ho)
    rw [hexpected', hexpected, hrule, firstTypes_withConfig hp hp' hbody]

end Draft

/-- The same line, for a parser that looks one token ahead. -/
def wordLineNear : Parser :=
  { wordLineParser with
    table := [(⟨0, ⟨.atLeastOne, 1⟩⟩, ⟨1, [⟨[[[0]]], [0]⟩]⟩)]
    config := {} }

theorem wordLineNear_accepted : { wordLine with config := {} }.parser = .ok wordLineNear := by
  have hg : { wordLine with config := {} }.grammar = .ok wordLineNear.grammar := rfl
  have htable : wordLineNear.grammar.table wordLine.vocabulary 1 = .ok wordLineNear.table :=
    eq_ok_of_toOption (by decide +kernel)
  rw [Draft.parser_of_grammar hg, htable]
  rfl

/-- A line can begin with a word, and not with the stop behind its words. This is what both parsers
say, on whatever input they fail. -/
theorem wordLine_parse_error_atLeastOne :
    wordLineParser.parse 0 [⟨2, ".", .start⟩] =
      .error (wordExpected (some ⟨2, ".", .start⟩)) ∧
    (∃ body, wordLineParser.grammar.HasNode 0 (.repetition body 1 true) ∧
      ∀ t, t ∈ [0] ↔ wordLineParser.grammar.Opens 1 [.node body] [t]) ∧
    ∀ w e, wordLineNear.parse 0 w = .error e → e.rule = 0 →
      e.occurrence = some ⟨.atLeastOne, 1⟩ → e.expected = .tokens [0] := by
  have h : wordLineParser.parse 0 [⟨2, ".", .start⟩] =
      .error (wordExpected (some ⟨2, ".", .start⟩)) := rfl
  obtain ⟨body, types, hbody, -, hexpected, -, hopens, -, hsame⟩ :=
    Draft.parse_error_atLeastOne wordLine_accepted h rfl
  cases hexpected
  exact ⟨h, ⟨body, hbody, hopens⟩, hsame {} wordLineNear wordLineNear_accepted 0⟩

end StrongLL
