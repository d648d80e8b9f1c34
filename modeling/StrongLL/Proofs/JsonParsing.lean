import StrongLL.Proofs.DeeperLookahead
import StrongLL.Proofs.JsonLexing

/-!
# StrongLL.Proofs.JsonParsing

The reader accepts every JSON document that is nested no deeper than allowed:

* `Json.grammar`       — the grammar of the reader, whatever is chosen for its parser.
* `Json.parser_built`  — it has a parser for every lookahead.
* `Spells`             — parts of the grammar derive tokens, with trees of a certain nesting.
* `IsValue.spells`     — the rule of values derives the tokens of every value.
* `Reader.read_document` — the reader gives a document a tree with the tokens of the document.
-/

namespace StrongLL

namespace Json

open TreeNode

/-! ## The grammar -/

def separatedItem (item : RuleId) : Node := .sequence [.terminal comma 1, .ruleRef item 2]

def containerBody (left : TypeId) (item : RuleId) (right : TypeId) : Node :=
  .sequence [.terminal left 1,
    .optional (.sequence [.ruleRef item 1, .repetition (separatedItem item) 1 false]) 1,
    .terminal right 1]

def memberBody : Node :=
  .sequence [.terminal string 1, .terminal colon 1, .ruleRef value 1]

def valueAlternatives : List Node :=
  [.terminal string 1, .terminal number 1, .ruleRef object 1, .ruleRef array 1,
    .terminal trueWord 1, .terminal falseWord 1, .terminal nullWord 1]

def grammar : Grammar where
  rules := [⟨"object", containerBody leftCurly objectItem rightCurly⟩, ⟨"objectItem", memberBody⟩,
    ⟨"array", containerBody leftSquare value rightSquare⟩,
    ⟨"value", .alternation valueAlternatives 1 "a value"⟩]

def rules : List RuleDraft :=
  [⟨"object", some objectBody⟩, ⟨"objectItem", some objectItemBody⟩, ⟨"array", some arrayBody⟩,
    ⟨"value", some valueBody⟩]

theorem draft_eq (config : Config) : draft config = ⟨vocabulary, config, rules, []⟩ := by
  simp [draft, rules, ruleNames, Draft.declare, Draft.empty, Draft.define, object, objectItem,
    array, value, List.findIdx?_cons]

theorem draft_grammar : (draft {}).grammar = .ok grammar := by
  have hobject : Step.ruleNode ⟨vocabulary, 4, 0⟩ objectBody =
      (containerBody leftCurly objectItem rightCurly, []) := rfl
  have hobjectItem : Step.ruleNode ⟨vocabulary, 4, 1⟩ objectItemBody = (memberBody, []) := rfl
  have harray : Step.ruleNode ⟨vocabulary, 4, 2⟩ arrayBody =
      (containerBody leftSquare value rightSquare, []) := rfl
  have hvalue : Step.ruleNode ⟨vocabulary, 4, 3⟩ valueBody =
      (.alternation valueAlternatives 1 "a value", []) := rfl
  have hrules : (draft {}).finishedRules = grammar.rules.map fun r => (r, []) := by
    simp [draft_eq, Draft.finishedRules, Draft.finishRule, rules, grammar, hobject, hobjectItem,
      harray, hvalue]
  have hclean : (draft {}).defects.isEmpty = true := by decide +kernel
  rw [Draft.grammar, if_pos hclean, hrules, List.map_map]
  rfl

/-- One token ahead decides, and so do more. -/
theorem parser_built {config : Config} (h : 0 < config.lookahead) :
    ∃ table, (draft config).parser = .ok ⟨vocabulary, grammar, table, config⟩ := by
  have hbuilt : (draft {}).parser.toOption.isSome = true := by decide +kernel
  cases hp : (draft {}).parser with
  | error fault =>
    rw [hp] at hbuilt
    cases hbuilt
  | ok p =>
    obtain ⟨hg, hv, -⟩ := Draft.parser_eq_ok hp
    have hgrammar : p.grammar = grammar := Except.ok.inj (hg.symm.trans draft_grammar)
    have hconfigured := Draft.exists_parser_withConfig hp (c := config) h
    rw [hv, hgrammar] at hconfigured
    rw [draft_eq] at hconfigured ⊢
    exact hconfigured

/-! ## Derivations -/

/-- However the tokens are placed, they are a reading of the parts, and their trees are nested
`n` times. -/
def Spells (parts : List Pending) (tokens : List Piece) (n : Nat) : Prop :=
  ∀ w : List Token, w.map Token.piece = tokens →
    ∃ children, Derives grammar vocabulary parts children ∧ tokensOfAll children = w ∧
      nestingOfAll children = n

namespace Spells

variable {parts parts' : List Pending} {tokens tokens' : List Piece} {n m : Nat}

/-- A reading of one list of parts is one of another. -/
theorem of_derives (h : Spells parts tokens n)
    (hparts : ∀ {children}, Derives grammar vocabulary parts children →
      Derives grammar vocabulary parts' children) : Spells parts' tokens n := by
  intro w hw
  obtain ⟨children, hderives, hrest⟩ := h w hw
  exact ⟨children, hparts hderives, hrest⟩

theorem nil : Spells [] [] 0 := by
  intro w hw
  obtain rfl := List.map_eq_nil_iff.mp hw
  exact ⟨[], .nil, rfl, rfl⟩

theorem append (h : Spells parts tokens n) (h' : Spells parts' tokens' m) :
    Spells (parts ++ parts') (tokens ++ tokens') (max n m) := by
  intro w hw
  obtain ⟨front, back, rfl, hfront, hback⟩ := List.map_eq_append_iff.mp hw
  obtain ⟨a, ha, rfl, rfl⟩ := h front hfront
  obtain ⟨b, hb, rfl, rfl⟩ := h' back hback
  exact ⟨a ++ b, ha.append hb, tokensOfAll_append a b, nestingOfAll_append a b⟩

theorem terminal {kind : TypeId} (h : vocabulary.accepts kind kind = true) (image : List Char)
    (i : Nat) : Spells [.node (.terminal kind i)] [⟨kind, image⟩] 0 := by
  intro w hw
  obtain ⟨t, rfl, ht⟩ := List.map_eq_singleton_iff.mp hw
  have hkind : t.kind = kind := congrArg Piece.kind ht
  exact ⟨[.token t], .terminal (by rw [hkind, h]) .nil, rfl, rfl⟩

/-- An invocation nests once more than the body of its rule. -/
theorem call {r : RuleId} {rule : Rule} (hr : grammar.get? r = some rule)
    (h : Spells [.node rule.body] tokens n) (i : Nat) :
    Spells [.node (.ruleRef r i)] tokens (n + 1) := by
  intro w hw
  obtain ⟨children, hderives, rfl, rfl⟩ := h w hw
  exact ⟨[.tree r children], .ruleRef hr hderives .nil, by simp, by simp⟩

theorem sequence {bodies : List Node} (h : Spells (bodies.map .node) tokens n) :
    Spells [.node (.sequence bodies)] tokens n :=
  h.of_derives fun hderives => .sequence (by simpa using hderives)

end Spells

/-- An item and further ones behind commas spell the tokens, whichever invocation the first one
is. -/
def SpellsItems (item : RuleId) (tokens : List Piece) (n : Nat) : Prop :=
  ∀ i, Spells [.node (.ruleRef item i), .loop (separatedItem item)] tokens n

namespace SpellsItems

variable {item : RuleId} {tokens tokens' : List Piece} {n m : Nat}

theorem one (h : ∀ i, Spells [.node (.ruleRef item i)] tokens n) : SpellsItems item tokens n := by
  intro i
  have hstop : Spells [.loop (separatedItem item)] [] 0 := Spells.nil.of_derives .stop
  simpa using (h i).append hstop

theorem more (h : ∀ i, Spells [.node (.ruleRef item i)] tokens n)
    (h' : SpellsItems item tokens' m) :
    SpellsItems item (tokens ++ ⟨comma, [',']⟩ :: tokens') (max n m) := by
  intro i
  have hcomma : Spells [.node (.terminal comma 1)] [⟨comma, [',']⟩] 0 := .terminal rfl _ 1
  have hagain : Spells [.loop (separatedItem item)] (⟨comma, [',']⟩ :: tokens') m := by
    have hitems : Spells [.node (.terminal comma 1), .node (.ruleRef item 2),
        .loop (separatedItem item)] (⟨comma, [',']⟩ :: tokens') m := by
      simpa using hcomma.append (h' 2)
    exact hitems.of_derives fun hderives => .again (.sequence hderives)
  exact (h i).append hagain

end SpellsItems

section

variable {left right : TypeId} {item : RuleId} {tokens : List Piece} {n : Nat}

/-- A container spells what its optional part does between its two tokens. -/
theorem containerBody_spells (hleft : vocabulary.accepts left left = true)
    (hright : vocabulary.accepts right right = true) (image image' : List Char)
    (h : Spells [.node (.optional (.sequence [.ruleRef item 1,
      .repetition (separatedItem item) 1 false]) 1)] tokens n) :
    Spells [.node (containerBody left item right)]
      (⟨left, image⟩ :: tokens ++ [⟨right, image'⟩]) n := by
  have hparts := ((Spells.terminal hleft image 1).append h).append (.terminal hright image' 1)
  exact Spells.sequence (by simpa using hparts)

theorem containerBody_empty (hleft : vocabulary.accepts left left = true)
    (hright : vocabulary.accepts right right = true) (image image' : List Char) :
    Spells [.node (containerBody left item right)] [⟨left, image⟩, ⟨right, image'⟩] 0 :=
  containerBody_spells hleft hright image image' (Spells.nil.of_derives .skip)

theorem containerBody_items (hleft : vocabulary.accepts left left = true)
    (hright : vocabulary.accepts right right = true) (image image' : List Char)
    (h : SpellsItems item tokens n) :
    Spells [.node (containerBody left item right)]
      (⟨left, image⟩ :: tokens ++ [⟨right, image'⟩]) n := by
  refine containerBody_spells hleft hright image image' ?_
  refine (h 1).of_derives fun {children} hderives => ?_
  have hsplit : Derives grammar vocabulary
      ([.node (.ruleRef item 1)] ++ [.loop (separatedItem item)]) children := hderives
  obtain ⟨first, others, rfl, hfirst, hothers⟩ := hsplit.exists_of_append
  exact .enter (.sequence (hfirst.append (.many hothers)))

end

/-- A value spells what one of its alternatives does, and is nested once more. -/
theorem value_spells {alternative : Node} (hmem : alternative ∈ valueAlternatives)
    {tokens : List Piece} {n : Nat} (h : Spells [.node alternative] tokens n) (i : Nat) :
    Spells [.node (.ruleRef value i)] tokens (n + 1) :=
  .call rfl (h.of_derives fun hderives => .alternative hmem hderives) i

theorem IsScalar.spells {x : Piece} (h : IsScalar x) (i : Nat) :
    Spells [.node (.ruleRef value i)] [x] 1 := by
  cases h <;> exact value_spells (by simp [valueAlternatives]) (.terminal rfl _ 1) i

/-- A container adds its own rule and that of the value around it. -/
theorem container_spells {r : RuleId} {rule : Rule} (hr : grammar.get? r = some rule)
    (hmem : .ruleRef r 1 ∈ valueAlternatives) {tokens : List Piece} {n : Nat}
    (h : Spells [.node rule.body] tokens n) (i : Nat) :
    Spells [.node (.ruleRef value i)] tokens (n + 2) :=
  value_spells hmem (.call hr h 1) i

/-- The rule of a member adds one to the nesting of its value. -/
theorem member_spells {tokens : List Piece} {n : Nat} (key : List Char)
    (h : ∀ i, Spells [.node (.ruleRef value i)] tokens n) (i : Nat) :
    Spells [.node (.ruleRef objectItem i)] (⟨string, key⟩ :: ⟨colon, [':']⟩ :: tokens) (n + 1) := by
  have hkey : Spells [.node (.terminal string 1)] [⟨string, key⟩] 0 := .terminal rfl key 1
  have hcolon : Spells [.node (.terminal colon 1)] [⟨colon, [':']⟩] 0 := .terminal rfl _ 1
  have hparts := (hkey.append hcolon).append (h 1)
  exact .call rfl (Spells.sequence (by simpa using hparts)) i

mutual

theorem IsValue.spells {text : List Char} {tokens : List Piece} {n : Nat} :
    IsValue text tokens n → ∀ i, Spells [.node (.ruleRef value i)] tokens n
  | .scalar h => h.spells
  | .emptyArray _ _ =>
    container_spells (r := array) rfl (by simp [valueAlternatives])
      (containerBody_empty rfl rfl _ _)
  | .array _ h _ =>
    container_spells (r := array) rfl (by simp [valueAlternatives])
      (containerBody_items rfl rfl _ _ h.spells)
  | .emptyObject _ _ =>
    container_spells (r := object) rfl (by simp [valueAlternatives])
      (containerBody_empty rfl rfl _ _)
  | .object _ h _ =>
    container_spells (r := object) rfl (by simp [valueAlternatives])
      (containerBody_items rfl rfl _ _ h.spells)

theorem IsElements.spells {text : List Char} {tokens : List Piece} {n : Nat} :
    IsElements text tokens n → SpellsItems value tokens n
  | .one h => .one h.spells
  | .more h _ hothers => .more h.spells hothers.spells

theorem IsMember.spells {text : List Char} {tokens : List Piece} {n : Nat} :
    IsMember text tokens n → ∀ i, Spells [.node (.ruleRef objectItem i)] tokens (n + 1)
  | .mk _ _ h => member_spells _ h.spells

theorem IsMembers.spells {text : List Char} {tokens : List Piece} {n : Nat} :
    IsMembers text tokens n → SpellsItems objectItem tokens (n + 1)
  | .one h => .one h.spells
  | .more (n := n) (m := m) h _ hothers => by
    rw [← Nat.add_max_add_right]
    exact .more h.spells hothers.spells

end

/-! ## Documents -/

namespace Reader

/-- With any lookahead the reader is built. It gives every document that is nested no deeper than
allowed a tree of a value, with the tokens of the document in their order. -/
theorem read_document {config : Config} (hconfig : 0 < config.lookahead) :
    ∃ r, build config = .ok r ∧
      ∀ (text : String) (tokens : List Piece) (n : Nat), IsDocument text.toList tokens n →
        n ≤ config.nestingLimit →
        ∃ t, r.read text = .ok t ∧ t.rule = value ∧ t.tokens.map Token.piece = tokens ∧
          t.node.nesting = n := by
  obtain ⟨table, hparser⟩ := parser_built hconfig
  have hready := Draft.parser_ready hparser
  refine ⟨⟨Json.lexer, ⟨vocabulary, grammar, table, config⟩⟩, ?_, ?_⟩
  · rw [build, lexer_built, hparser]
    rfl
  · intro text tokens n hdocument hn
    obtain ⟨streams, hstreams, hpieces⟩ := hdocument.tokenize
    obtain ⟨_, _, _, -, hvalue, -, -⟩ := hdocument
    obtain ⟨w, hderives, htokens, hnesting⟩ := hvalue.spells 1 streams.main hpieces
    obtain ⟨children, rfl, htree⟩ := hderives.cases_ruleRef
    have htokens : (ParseTree.mk value children).tokens = streams.main := by
      simpa [ParseTree.tokens, ParseTree.node] using htokens
    have hnesting : (ParseTree.mk value children).node.nesting = n := by
      simpa [ParseTree.node] using hnesting
    have hparse := hready.parse_tree htree (hnesting.trans_le hn)
    rw [htokens] at hparse
    refine ⟨⟨value, children⟩, ?_, rfl, by rw [htokens, hpieces], hnesting⟩
    rw [read, Parser.parseText, hstreams]
    exact congrArg (Except.mapError TextError.mismatch) hparse

end Reader

/-- A member with an array, which holds a number and a string that is a quotation mark. -/
def sample : String := "\x7b \"a\": [-1.5E3 ,\"\\\"\"]\x7d\n"

def sampleTokens : List Piece :=
  [⟨leftCurly, ['\x7b']⟩, ⟨string, ['"', 'a', '"']⟩, ⟨colon, [':']⟩, ⟨leftSquare, ['[']⟩,
    ⟨number, ['-', '1', '.', '5', 'E', '3']⟩, ⟨comma, [',']⟩, ⟨string, ['"', '\\', '"', '"']⟩,
    ⟨rightSquare, [']']⟩, ⟨rightCurly, ['\x7d']⟩]

theorem sample_isDocument : IsDocument sample.toList sampleTokens 6 := by
  have hnumber : IsNumber ['-', '1', '.', '5', 'E', '3'] :=
    @IsNumber.negative ['1'] ['.', '5'] ['E', '3'] (.positive (by decide) (by simp))
      (.some (by decide)) (.unsigned (by decide) (by decide))
  have hquote : IsString ['"', '\\', '"', '"'] :=
    ⟨[['\\', '"']], by simpa using IsCharacter.escaped (by decide), rfl⟩
  have hkey : IsString ['"', 'a', '"'] :=
    ⟨[['a']], by simpa using IsCharacter.unescaped (.inr (.inr (by decide))), rfl⟩
  have hcomma : IsStructural ',' [' ', ','] := ⟨[' '], [], by decide, by decide, rfl⟩
  have hcolon : IsStructural ':' [':', ' '] := ⟨[], [' '], by decide, by decide, rfl⟩
  have hleftCurly : IsStructural '\x7b' ['\x7b', ' '] := ⟨[], [' '], by decide, by decide, rfl⟩
  have hsingle : ∀ c, IsStructural c [c] := fun c => ⟨[], [], by decide, by decide, rfl⟩
  have harray := IsValue.array (hsingle _)
    (.more (.scalar (.number hnumber)) hcomma (.one (.scalar (.string hquote)))) (hsingle _)
  have hobject := IsValue.object hleftCurly (.one (.mk hkey hcolon harray)) (hsingle _)
  exact ⟨[], _, ['\n'], by decide, hobject, by decide, rfl⟩

def sampleConfig : Config := { lookahead := 2, nestingLimit := 6 }

theorem read_sample : 0 < sampleConfig.lookahead ∧
    ∃ r t, Reader.build sampleConfig = .ok r ∧ r.read sample = .ok t ∧
      t.tokens.map Token.piece = sampleTokens ∧ t.node.nesting = 6 := by
  have hconfig : 0 < sampleConfig.lookahead := by decide
  obtain ⟨r, hbuilt, hread⟩ := Reader.read_document hconfig
  obtain ⟨t, ht, -, htokens, hnesting⟩ := hread sample sampleTokens 6 sample_isDocument (by decide)
  exact ⟨hconfig, r, t, hbuilt, ht, htokens, hnesting⟩

end Json

end StrongLL
