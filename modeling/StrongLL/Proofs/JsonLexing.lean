import StrongLL.Proofs.AutomatonRuns
import StrongLL.Proofs.JsonDocuments

/-!
# StrongLL.Proofs.JsonLexing

The lexer cuts a JSON document into its tokens:

* `Json.lexer`            — the lexer that is built, with its automata written out.
* `IsNumber.reads`, `IsString.reads` — the automata read the texts of numbers and strings.
* `IsScalar.takes`        — a scalar is taken as a whole if white space, punctuation or nothing
  comes behind it.
* `Layout`                — tokens with white space between them.
* `Layout.exists_tiling`  — they are the pieces of the text that are not white space.
* `IsDocument.tokenize`   — the main stream of a document has its tokens.
-/

namespace StrongLL

/-- A token without its place. -/
def Token.piece (t : Token) : Piece := ⟨t.kind, t.image.toList⟩

/-- The main stream has the pieces of the main channel. -/
theorem TokenStreams.main_pieces (v : Vocabulary) (place : Place) (pieces : List Piece) :
    (ofLexemes (lexemes v place pieces)).main.map Token.piece =
      pieces.filter (v.channel ·.kind = .main) := by
  show (((lexemes v place pieces).filter (·.channel = .main)).map (·.token)).map Token.piece = _
  induction pieces generalizing place with
  | nil => rfl
  | cons x rest ih =>
    have hpiece : Token.piece ⟨x.kind, String.ofList x.image, place⟩ = x := by simp [Token.piece]
    by_cases hx : v.channel x.kind = .main
    · simp [lexemes, hx, hpiece, ih]
    · simp [lexemes, hx, ih]

namespace Json

/-! ## The lexer -/

def whiteSpaceAutomaton : Automaton where
  states := #[.accept, .split 2 0, .char ⟨[(9, 10), (13, 13), (32, 32)]⟩ 1,
    .assertion .textStart 2]
  start := 3
  anchored := true

/-- From the end backwards: the exponent up to state 6, the fraction up to state 10, the digits
before it, and the sign. -/
def numberAutomaton : Automaton where
  states := #[.accept, .split 2 0, .char Text.decimalDigit 1, .char ⟨[(43, 43), (45, 45)]⟩ 2,
    .split 3 2, .char ⟨[(69, 69), (101, 101)]⟩ 4, .split 5 0, .split 8 6,
    .char Text.decimalDigit 7, .char (.single '.') 8, .split 9 6, .split 12 10,
    .char Text.decimalDigit 11, .char (.range '1' '9') 11, .char (.single '0') 10, .split 14 13,
    .char (.single '-') 15, .split 16 15, .assertion .textStart 17]
  start := 18
  anchored := true

/-- The states behind the digits before the fraction: zero, or digits that may go on. -/
def intEnds : List Nat := [10, 11]

/-- The states behind the fraction, which may be left out. -/
def fractionEnds : List Nat := intEnds ++ [7]

/-- The states in which a number may end. -/
def numberEnds : List Nat := fractionEnds ++ [1]

def hexDigit : CharSet := ⟨[(48, 57), (65, 70), (97, 102)]⟩

/-- All characters but the quotation mark and the backslash. -/
def bare : CharSet := ⟨[(0, 33), (35, 91), (93, 55295), (57344, 1114111)]⟩

/-- State 2 comes before every character of the string and before its end. The four states behind
it are those of a code unit. -/
def stringAutomaton : Automaton where
  states := #[.accept, .char (.single '"') 0, .split 12 1, .char hexDigit 2, .char hexDigit 3,
    .char hexDigit 4, .char hexDigit 5, .char (.single 'u') 6,
    .char ⟨[(34, 34), (47, 47), (92, 92), (98, 98), (102, 102), (110, 110), (114, 114), (116, 116),
      (118, 118)]⟩ 2,
    .split 8 7, .char (.single '\\') 9,
    .char bare 2, .split 11 10,
    .char (.single '"') 2, .assertion .textStart 13]
  start := 14
  anchored := true

def literalEntry (kind : TypeId) (text : List Char) : LexerEntry Automaton :=
  ⟨kind, .literal text, .main, none⟩

def whiteSpaceEntry : LexerEntry Automaton :=
  ⟨whiteSpace, .regex whiteSpaceAutomaton, .skipped, none⟩

def numberEntry : LexerEntry Automaton := ⟨number, .regex numberAutomaton, .main, none⟩

def stringEntry : LexerEntry Automaton := ⟨string, .regex stringAutomaton, .main, none⟩

def lexer : Lexer where
  vocabulary := vocabulary
  entries := [whiteSpaceEntry, numberEntry, stringEntry, literalEntry comma [','],
    literalEntry colon [':'], literalEntry leftCurly ['\x7b'], literalEntry rightCurly ['\x7d'],
    literalEntry leftSquare ['['], literalEntry rightSquare [']'],
    literalEntry trueWord ['t', 'r', 'u', 'e'], literalEntry falseWord ['f', 'a', 'l', 's', 'e'],
    literalEntry nullWord ['n', 'u', 'l', 'l']]

theorem lexer_built : Lexer.build vocabulary order = .ok lexer := by decide +kernel

theorem longerAlt?_eq_none (kind : TypeId) : vocabulary.longerAlt? kind = none := by
  have hnone : ∀ t ∈ vocabulary.types, t.longerAlt = none := by decide
  unfold Vocabulary.longerAlt?
  cases ht : vocabulary.get? kind with
  | none => rfl
  | some t => exact hnone t (List.mem_of_getElem? ht)

/-- The lexer takes what the entry left for the first character matches. -/
theorem takes_of_isCandidate {cs : List Char} {e : LexerEntry Automaton}
    (he : lexer.isCandidate cs e = true) {c : Char} (hc : c ∈ cs) {image rest : List Char}
    (hhead : image.head? = some c)
    (hm : e.recognizer.matchLength? (image ++ rest) = some image.length) :
    vocabulary.Takes Automaton order (image ++ rest) e.kind image :=
  (Lexer.isOf_of_build lexer_built).takes_of_isCandidate he (longerAlt?_eq_none _) hc hhead hm

theorem takes_literal {c : Char} {kind : TypeId} {tail : List Char}
    (he : lexer.isCandidate [c] (literalEntry kind (c :: tail)) = true) (rest : List Char) :
    vocabulary.Takes Automaton order (c :: tail ++ rest) kind (c :: tail) :=
  takes_of_isCandidate he (List.mem_singleton_self c) rfl
    (Recognizer.matchLength?_literal.mpr ⟨List.prefix_append _ _, rfl, Nat.succ_pos _⟩)

/-! ## Numbers -/

section

variable {text rest : List Char} {q q' : Nat}

/-- One digit leads to a state that any number of digits lead back to. -/
theorem IsDigits.reads (h : IsDigits text) (hq : numberAutomaton.leads q digits q' = true)
    (hq' : numberAutomaton.leads q' digits q' = true) : numberAutomaton.Reads q text q' := by
  obtain ⟨hne, hdigits⟩ := h
  cases text with
  | nil => exact absurd rfl hne
  | cons c rest =>
    exact .of_leads hq (hdigits c (by simp)) (.loop hq' fun d hd => hdigits d (by simp [hd]))

theorem IsInt.reads (h : IsInt text) (hq : q ∈ [15, 17]) :
    ∃ q' ∈ intEnds, numberAutomaton.Reads q text q' := by
  cases h with
  | zero =>
    have hzero : ∀ q ∈ [15, 17], numberAutomaton.leads q ['0'] 10 = true := by decide
    exact ⟨10, by decide, .single (hzero q hq) (by simp)⟩
  | positive hc hrest =>
    have hfirst : ∀ q ∈ [15, 17], numberAutomaton.leads q nonzeroDigits 11 = true := by decide
    have hmore : numberAutomaton.leads 11 digits 11 = true := by decide
    exact ⟨11, by decide, .of_leads (hfirst q hq) hc (.loop hmore hrest)⟩

theorem IsFraction.reads (h : IsFraction text) (hq : q ∈ intEnds) :
    ∃ q' ∈ fractionEnds, numberAutomaton.Reads q text q' := by
  cases h with
  | none => exact ⟨q, List.mem_append_left [7] hq, .nil⟩
  | some hdigits =>
    have hpoint : ∀ q ∈ intEnds, numberAutomaton.leads q ['.'] 8 = true := by decide
    have hmore : numberAutomaton.Reads 8 _ 7 := hdigits.reads (by decide) (by decide)
    exact ⟨7, by decide, .of_leads (hpoint q hq) (by simp) hmore⟩

theorem IsExponent.reads (h : IsExponent text) (hq : q ∈ fractionEnds) :
    ∃ q' ∈ numberEnds, numberAutomaton.Reads q text q' := by
  have hletter : ∀ q ∈ fractionEnds, numberAutomaton.leads q ['e', 'E'] 4 = true := by decide
  cases h with
  | none => exact ⟨q, List.mem_append_left [1] hq, .nil⟩
  | unsigned he hdigits =>
    have hmore : numberAutomaton.Reads 4 _ 1 := hdigits.reads (by decide) (by decide)
    exact ⟨1, by decide, .of_leads (hletter q hq) he hmore⟩
  | signed he hsign hdigits =>
    have hsigns : numberAutomaton.leads 4 ['-', '+'] 2 = true := by decide
    have hmore : numberAutomaton.Reads 2 _ 1 := hdigits.reads (by decide) (by decide)
    exact ⟨1, by decide, .of_leads (hletter q hq) he (.of_leads hsigns hsign hmore)⟩

/-- The parts of a number are read one after another, without or behind a sign. -/
theorem IsNumber.reads (h : IsNumber text) :
    ∃ q ∈ numberEnds, numberAutomaton.Reads 17 text q := by
  have hparts : ∀ q ∈ [15, 17], ∀ {int fraction exponent : List Char}, IsInt int →
      IsFraction fraction → IsExponent exponent →
      ∃ q' ∈ numberEnds, numberAutomaton.Reads q (int ++ fraction ++ exponent) q' := by
    intro q hq int fraction exponent hint hfraction hexponent
    obtain ⟨q₁, hq₁, hint⟩ := hint.reads hq
    obtain ⟨q₂, hq₂, hfraction⟩ := hfraction.reads hq₁
    obtain ⟨q₃, hq₃, hexponent⟩ := hexponent.reads hq₂
    exact ⟨q₃, hq₃, (hint.append hfraction).append hexponent⟩
  cases h with
  | positive hint hfraction hexponent => exact hparts 17 (by simp) hint hfraction hexponent
  | negative hint hfraction hexponent =>
    have hsign : numberAutomaton.leads 17 ['-'] 15 = true := by decide
    obtain ⟨q, hq, hreads⟩ := hparts 15 (by simp) hint hfraction hexponent
    exact ⟨q, hq, .of_leads hsign (by simp) hreads⟩

theorem IsInt.exists_head (h : IsInt text) : ∃ c ∈ digits, text.head? = some c := by
  cases h with
  | zero => exact ⟨'0', by decide, rfl⟩
  | positive hc _ => exact ⟨_, List.mem_cons_of_mem _ hc, rfl⟩

theorem IsNumber.exists_head (h : IsNumber text) : ∃ c ∈ '-' :: digits, text.head? = some c := by
  cases h with
  | positive hint _ _ =>
    obtain ⟨c, hc, hhead⟩ := hint.exists_head
    exact ⟨c, List.mem_cons_of_mem _ hc, by simp [hhead]⟩
  | negative _ _ _ => exact ⟨'-', by simp, rfl⟩

/-! ## Strings -/

/-- Of the three sets waited for in a string, an unescaped character belongs to the first only. -/
theorem IsUnescaped.contains {c : Char} (h : IsUnescaped c) : bare.contains c = true ∧
    (CharSet.single '\\').contains c = false ∧ (CharSet.single '"').contains c = false := by
  have hvalid : c.toNat < 0xD800 ∨ 0xDFFF < c.toNat ∧ c.toNat < 0x110000 := c.valid
  unfold IsUnescaped at h
  refine ⟨?_, ?_, ?_⟩
  · have hranges : c.toNat ≤ 33 ∨ (35 ≤ c.toNat ∧ c.toNat ≤ 91) ∨
        (93 ≤ c.toNat ∧ c.toNat ≤ 55295) ∨ (57344 ≤ c.toNat ∧ c.toNat ≤ 1114111) := by omega
    simpa [bare, CharSet.contains] using hranges
  · have hne : ¬ (92 ≤ c.toNat ∧ c.toNat ≤ 92) := by omega
    simpa [CharSet.contains, CharSet.single, CharSet.range] using hne
  · have hne : ¬ (34 ≤ c.toNat ∧ c.toNat ≤ 34) := by omega
    simpa [CharSet.contains, CharSet.single, CharSet.range] using hne

/-- All characters of a string lead back to the state before them. -/
theorem IsCharacter.reads (h : IsCharacter text) : stringAutomaton.Reads 2 text 2 := by
  have hbackslash : stringAutomaton.leads 2 ['\\'] 9 = true := by decide
  cases h with
  | unescaped hc =>
    have hwaits : stringAutomaton.waits false 2 =
        ([(bare, 2), (.single '\\', 9), (.single '"', 0)], false) := by decide
    obtain ⟨hbare, hbackslash, hquote⟩ := hc.contains
    refine .cons ?_ .nil
    simp [Automaton.next, hwaits, Automaton.target?, hbare, hbackslash, hquote]
  | escaped hc =>
    have hescape : stringAutomaton.leads 9 escapes 2 = true := by decide
    exact .of_leads hbackslash (by simp) (.single hescape hc)
  | codeUnit hw hx hy hz =>
    have hunit : stringAutomaton.leads 9 ['u'] 6 = true := by decide
    have hfirst : stringAutomaton.leads 6 hexDigits 5 = true := by decide
    have hsecond : stringAutomaton.leads 5 hexDigits 4 = true := by decide
    have hthird : stringAutomaton.leads 4 hexDigits 3 = true := by decide
    have hfourth : stringAutomaton.leads 3 hexDigits 2 = true := by decide
    exact .of_leads hbackslash (by simp) (.of_leads hunit (by simp) (.of_leads hfirst hw
      (.of_leads hsecond hx (.of_leads hthird hy (.single hfourth hz)))))

theorem IsString.reads (h : IsString text) : stringAutomaton.Reads 13 text 0 := by
  obtain ⟨characters, hcharacters, rfl⟩ := h
  have hbody : stringAutomaton.Reads 2 characters.flatten 2 := by
    induction characters with
    | nil => exact .nil
    | cons x others ih =>
      rw [List.flatten_cons]
      exact (hcharacters x (by simp)).reads.append (ih fun y hy => hcharacters y (by simp [hy]))
  have hopen : stringAutomaton.leads 13 ['"'] 2 = true := by decide
  have hclose : stringAutomaton.leads 2 ['"'] 0 = true := by decide
  exact .of_leads hopen (by simp) (hbody.append (.single hclose (by simp)))

end

/-! ## Tokens -/

def structuralCharacters : List Char := punctuation.map (·.2)

/-- The characters that a scalar begins with. -/
def scalarStarts : List Char := '"' :: 't' :: 'f' :: 'n' :: '-' :: digits

/-- No character comes, or one that belongs to no scalar. -/
def Delimited (text : List Char) : Prop :=
  ∀ c, text.head? = some c → c ∈ whiteCharacters ++ structuralCharacters

section

variable {x : Piece} {text rest : List Char}

theorem IsScalar.exists_head (h : IsScalar x) : ∃ c ∈ scalarStarts, x.image.head? = some c := by
  cases h with
  | trueWord => exact ⟨'t', by decide, rfl⟩
  | falseWord => exact ⟨'f', by decide, rfl⟩
  | nullWord => exact ⟨'n', by decide, rfl⟩
  | string h =>
    obtain ⟨characters, -, rfl⟩ := h
    exact ⟨'"', by decide, rfl⟩
  | number h =>
    obtain ⟨c, hc, hhead⟩ := h.exists_head
    exact ⟨c, List.mem_append_right ['"', 't', 'f', 'n'] hc, hhead⟩

/-- A number ends where its automaton stops, which it does at every delimiter. -/
theorem IsNumber.takes (h : IsNumber text) (hrest : Delimited rest) :
    vocabulary.Takes Automaton order (text ++ rest) number text := by
  have hcandidate : lexer.isCandidate ('-' :: digits) numberEntry = true := by decide
  have hstops : ∀ q ∈ numberEnds,
      numberAutomaton.stopsBefore q (whiteCharacters ++ structuralCharacters) = true := by decide
  obtain ⟨c, hc, hhead⟩ := h.exists_head
  obtain ⟨q, hq, hreads⟩ := h.reads
  have hne : text ≠ [] := by
    rintro rfl
    cases hhead
  exact takes_of_isCandidate hcandidate hc hhead (hreads.matchLength? (by decide) (by decide) hne
    (Automaton.stops_of_stopsBefore (hstops q hq) hrest))

/-- A string ends with its quotation mark, whatever comes behind it. -/
theorem IsString.takes (h : IsString text) (rest : List Char) :
    vocabulary.Takes Automaton order (text ++ rest) string text := by
  have hcandidate : lexer.isCandidate ['"'] stringEntry = true := by decide
  have hwaits : stringAutomaton.waits false 0 = ([], true) := by decide
  have hstops : stringAutomaton.Stops 0 rest := by
    constructor
    · rw [hwaits]
    · intro c _
      rw [Automaton.next, hwaits]
      rfl
  have hreads := h.reads
  obtain ⟨characters, -, rfl⟩ := h
  exact takes_of_isCandidate hcandidate (List.mem_singleton_self _) rfl
    (hreads.matchLength? (by decide) (by decide) (by simp) hstops)

theorem IsScalar.takes (h : IsScalar x) (hrest : Delimited rest) :
    vocabulary.Takes Automaton order (x.image ++ rest) x.kind x.image := by
  cases h with
  | trueWord => exact takes_literal (by decide) rest
  | falseWord => exact takes_literal (by decide) rest
  | nullWord => exact takes_literal (by decide) rest
  | string h => exact h.takes rest
  | number h => exact h.takes hrest

theorem punctuation_takes {kind : TypeId} {c : Char} (h : (kind, c) ∈ punctuation) :
    vocabulary.Takes Automaton order (c :: rest) kind [c] := by
  have hcandidate : ∀ x ∈ punctuation,
      lexer.isCandidate [x.2] (literalEntry x.1 [x.2]) = true := by decide
  exact takes_literal (hcandidate _ h) rest

/-- White space ends where a token begins. -/
theorem IsWhite.takes (h : IsWhite text) (hne : text ≠ [])
    (hrest : ∀ c, rest.head? = some c → c ∈ structuralCharacters ++ scalarStarts) :
    vocabulary.Takes Automaton order (text ++ rest) whiteSpace text := by
  have hcandidate : lexer.isCandidate whiteCharacters whiteSpaceEntry = true := by decide
  have hfirst : whiteSpaceAutomaton.leads 2 whiteCharacters 1 = true := by decide
  have hmore : whiteSpaceAutomaton.leads 1 whiteCharacters 1 = true := by decide
  have hstops : whiteSpaceAutomaton.stopsBefore 1
      (structuralCharacters ++ scalarStarts) = true := by decide
  cases text with
  | nil => exact absurd rfl hne
  | cons c text =>
    have hc := h c (by simp)
    have hreads : whiteSpaceAutomaton.Reads 2 (c :: text) 1 :=
      .of_leads hfirst hc (.loop hmore fun d hd => h d (by simp [hd]))
    exact takes_of_isCandidate hcandidate hc rfl (hreads.matchLength? (by decide) (by decide) hne
      (Automaton.stops_of_stopsBefore hstops hrest))

end

/-! ## Documents -/

/-- Tokens in their order, with white space between them. Only a structural character may stand
next to a scalar. -/
inductive Layout : List Char → List Piece → Prop where
  | nil : Layout [] []
  | white {c : Char} {text : List Char} {tokens : List Piece} :
      c ∈ whiteCharacters → Layout text tokens → Layout (c :: text) tokens
  | structural {kind : TypeId} {c : Char} {text : List Char} {tokens : List Piece} :
      (kind, c) ∈ punctuation → Layout text tokens → Layout (c :: text) (⟨kind, [c]⟩ :: tokens)
  | scalar {x : Piece} {text : List Char} {tokens : List Piece} :
      IsScalar x → Delimited text → Layout text tokens → Layout (x.image ++ text) (x :: tokens)

/-- The piece goes to the main channel. -/
def isMain (x : Piece) : Bool := vocabulary.channel x.kind = .main

section

variable {text text' : List Char} {tokens tokens' : List Piece} {kind : TypeId} {c : Char}

theorem Layout.of_white (h : IsWhite text) (h' : Layout text' tokens) :
    Layout (text ++ text') tokens := by
  induction text with
  | nil => exact h'
  | cons c rest ih => exact .white (h c (by simp)) (ih fun d hd => h d (by simp [hd]))

theorem Layout.append (h : Layout text tokens) (h' : Layout text' tokens')
    (hdelimited : Delimited text') : Layout (text ++ text') (tokens ++ tokens') := by
  induction h with
  | nil => exact h'
  | white hc _ ih => exact .white hc ih
  | structural hx _ ih => exact .structural hx ih
  | @scalar x text tokens hx htext _ ih =>
    have hrest : Delimited (text ++ text') := by
      cases text with
      | nil => exact hdelimited
      | cons c rest => exact htext
    rw [List.append_assoc]
    exact .scalar hx hrest ih

theorem Layout.of_scalar {x : Piece} (h : IsScalar x) : Layout x.image [x] := by
  have hnil : Delimited [] := by
    intro c hc
    cases hc
  simpa using Layout.scalar h hnil .nil

theorem IsStructural.layout (h : IsStructural c text) (hx : (kind, c) ∈ punctuation)
    (h' : Layout text' tokens) : Layout (text ++ text') (⟨kind, [c]⟩ :: tokens) := by
  obtain ⟨before, after, hbefore, hafter, rfl⟩ := h
  rw [List.append_assoc]
  exact .of_white hbefore (.structural hx (.of_white hafter h'))

theorem IsStructural.delimited (h : IsStructural c text) (hx : (kind, c) ∈ punctuation) :
    Delimited (text ++ text') := by
  obtain ⟨before, after, hbefore, -, rfl⟩ := h
  intro d hd
  cases before with
  | nil =>
    obtain rfl : c = d := by simpa using hd
    exact List.mem_append_right _ (List.mem_map.mpr ⟨_, hx, rfl⟩)
  | cons e before =>
    obtain rfl : e = d := by simpa using hd
    exact List.mem_append_left _ (hbefore e (by simp))

theorem Layout.separated {separator : List Char} (h : Layout text tokens)
    (hseparator : IsStructural c separator) (hx : (kind, c) ∈ punctuation)
    (h' : Layout text' tokens') :
    Layout (text ++ separator ++ text') (tokens ++ ⟨kind, [c]⟩ :: tokens') := by
  rw [List.append_assoc]
  exact h.append (hseparator.layout hx h') (hseparator.delimited hx)

theorem Layout.enclosed {left right : List Char} {c' : Char} {kind' : TypeId}
    (h : Layout text tokens) (hleft : IsStructural c left) (hright : IsStructural c' right)
    (hx : (kind, c) ∈ punctuation) (hx' : (kind', c') ∈ punctuation) :
    Layout (left ++ text ++ right) (⟨kind, [c]⟩ :: tokens ++ [⟨kind', [c']⟩]) := by
  simpa using hleft.layout hx (h.separated hright hx' .nil)

/-- White space in front of what is cut already becomes a piece of its own. -/
theorem IsWhite.exists_tiling (h : IsWhite text) {pieces : List Piece}
    (htiling : Tiling Automaton vocabulary order text' pieces [])
    (hrest : ∀ c, text'.head? = some c → c ∈ structuralCharacters ++ scalarStarts) :
    ∃ pieces', Tiling Automaton vocabulary order (text ++ text') pieces' [] ∧
      pieces'.filter isMain = pieces.filter isMain := by
  by_cases hne : text = []
  · subst hne
    exact ⟨pieces, htiling, rfl⟩
  · exact ⟨_, .piece (h.takes hne hrest) rfl htiling, rfl⟩

/-- Behind the white space at its start, a text is cut into tokens and further white space. -/
theorem Layout.exists_tiling (h : Layout text tokens) :
    ∃ white rest pieces, text = white ++ rest ∧ IsWhite white ∧
      (∀ c, rest.head? = some c → c ∈ structuralCharacters ++ scalarStarts) ∧
      Tiling Automaton vocabulary order rest pieces [] ∧ pieces.filter isMain = tokens := by
  have hempty : IsWhite [] := by simp [IsWhite]
  induction h with
  | nil =>
    have hstop : Tiling Automaton vocabulary order [] [] [] :=
      .stop fun id image htakes => htakes.matches.ne_nil
        (List.prefix_nil.mp htakes.matches.isPrefix)
    exact ⟨[], [], [], rfl, hempty, by simp, hstop, rfl⟩
  | @white c text tokens hc _ ih =>
    obtain ⟨white, rest, pieces, rfl, hwhite, hrest, htiling, hpieces⟩ := ih
    refine ⟨c :: white, rest, pieces, rfl, ?_, hrest, htiling, hpieces⟩
    intro d hd
    obtain rfl | hd := List.mem_cons.mp hd
    · exact hc
    · exact hwhite d hd
  | @structural kind c text tokens hx _ ih =>
    obtain ⟨white, rest, pieces, rfl, hwhite, hrest, htiling, hpieces⟩ := ih
    obtain ⟨pieces', htiling', hpieces'⟩ := hwhite.exists_tiling htiling hrest
    have hmain : ∀ x ∈ punctuation, vocabulary.channel x.1 = .main := by decide
    refine ⟨[], _, _, rfl, hempty, ?_, .piece (punctuation_takes hx) rfl htiling', ?_⟩
    · rintro d ⟨⟩
      exact List.mem_append_left _ (List.mem_map.mpr ⟨_, hx, rfl⟩)
    · rw [List.filter_cons_of_pos (by simpa [isMain] using hmain _ hx), hpieces', hpieces]
  | @scalar x text tokens hx htext _ ih =>
    obtain ⟨white, rest, pieces, rfl, hwhite, hrest, htiling, hpieces⟩ := ih
    obtain ⟨pieces', htiling', hpieces'⟩ := hwhite.exists_tiling htiling hrest
    obtain ⟨c, hc, hhead⟩ := hx.exists_head
    refine ⟨[], _, _, rfl, hempty, ?_, .piece (hx.takes htext) rfl htiling', ?_⟩
    · intro d hd
      obtain rfl : c = d := by simpa [hhead] using hd
      exact List.mem_append_right _ hc
    · have hmain : isMain x = true := by cases hx <;> rfl
      rw [List.filter_cons_of_pos hmain, hpieces', hpieces]

end

mutual

theorem IsValue.layout {text : List Char} {tokens : List Piece} {n : Nat} :
    IsValue text tokens n → Layout text tokens
  | .scalar h => .of_scalar h
  | .emptyArray hleft hright => by
    simpa using Layout.nil.enclosed hleft hright (by decide : (leftSquare, _) ∈ _)
      (by decide : (rightSquare, _) ∈ _)
  | .array hleft h hright => h.layout.enclosed hleft hright (by decide) (by decide)
  | .emptyObject hleft hright => by
    simpa using Layout.nil.enclosed hleft hright (by decide : (leftCurly, _) ∈ _)
      (by decide : (rightCurly, _) ∈ _)
  | .object hleft h hright => h.layout.enclosed hleft hright (by decide) (by decide)

theorem IsElements.layout {text : List Char} {tokens : List Piece} {n : Nat} :
    IsElements text tokens n → Layout text tokens
  | .one h => h.layout
  | .more h hcomma hothers => h.layout.separated hcomma (by decide) hothers.layout

theorem IsMember.layout {text : List Char} {tokens : List Piece} {n : Nat} :
    IsMember text tokens n → Layout text tokens
  | .mk hkey hcolon h => (Layout.of_scalar (.string hkey)).separated hcolon (by decide) h.layout

theorem IsMembers.layout {text : List Char} {tokens : List Piece} {n : Nat} :
    IsMembers text tokens n → Layout text tokens
  | .one h => h.layout
  | .more h hcomma hothers => h.layout.separated hcomma (by decide) hothers.layout

end

theorem IsDocument.layout {text : List Char} {tokens : List Piece} {n : Nat}
    (h : IsDocument text tokens n) : Layout text tokens := by
  obtain ⟨before, value, after, hbefore, hvalue, hafter, rfl⟩ := h
  have hdelimited : Delimited after := fun c hc =>
    List.mem_append_left _ (hafter c (List.mem_of_mem_head? hc))
  have hend : Layout after [] := by simpa using Layout.of_white hafter .nil
  rw [List.append_assoc]
  exact .of_white hbefore (by simpa using hvalue.layout.append hend hdelimited)

/-- The main stream of a document has its tokens. -/
theorem IsDocument.tokenize {text : String} {tokens : List Piece} {n : Nat}
    (h : IsDocument text.toList tokens n) :
    ∃ streams, lexer.tokenize text = .ok streams ∧ streams.main.map Token.piece = tokens := by
  obtain ⟨white, rest, pieces, htext, hwhite, hrest, htiling, rfl⟩ := h.layout.exists_tiling
  obtain ⟨pieces', htiling', hpieces'⟩ := hwhite.exists_tiling htiling hrest
  rw [← htext] at htiling'
  refine ⟨_, (Lexer.isOf_of_build lexer_built).tokenize_eq_ok htiling', ?_⟩
  rw [TokenStreams.main_pieces]
  exact hpieces'

end Json

end StrongLL
