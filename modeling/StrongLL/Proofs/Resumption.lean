import StrongLL.Proofs.Places

/-!
# StrongLL.Proofs.Resumption

The scan of the rest of a text, from a token on:

* `Place.since`                — a place, counted from an earlier one on.
* `Lexer.scanFrom_split`       — a scan goes on from each of its lexemes as if it began there.
* `Lexer.scanFrom_since`       — where it begins is told by the places of its lexemes alone.
* `Lexer.excerpt_append`       — an excerpt of the rest shows nothing of the text in front of it.
* `TokenStreams.Resumes`       — the streams of the rest are those of the whole text from there on.
* `Lexer.tokenize_resumed`     — so it is, and an error comes from the rest just if it comes from
  the whole text.
-/

namespace StrongLL

/-! ## Places counted from another one -/

namespace Place

/-- Lines and columns count from the origin, which is on line 1 at column 1. -/
def since (p origin : Place) : Place where
  offset := p.offset - origin.offset
  line := p.line - (origin.line - 1)
  column := if p.line = origin.line then p.column - (origin.column - 1) else p.column

/-- What holds of the places from the origin on. -/
structure Reaches (origin p : Place) : Prop where
  offset : origin.offset ≤ p.offset
  line : 1 ≤ origin.line ∧ origin.line ≤ p.line
  column : 1 ≤ origin.column ∧ (p.line = origin.line → origin.column ≤ p.column)

variable {origin p : Place}

theorem IsEndOf.reaches {before : List Char} (h : p.IsEndOf before) : p.Reaches p := by
  obtain ⟨-, hline, line, -, hcolumn⟩ := h
  exact ⟨Nat.le_refl _, ⟨by omega, Nat.le_refl _⟩, by omega, fun _ => Nat.le_refl _⟩

theorem Reaches.since_self (h : p.Reaches p) : p.since p = start := by
  obtain ⟨-, ⟨hline, -⟩, hcolumn, -⟩ := h
  have hline' : p.line - (p.line - 1) = 1 := by omega
  have hcolumn' : p.column - (p.column - 1) = 1 := by omega
  simp [since, start, hline', hcolumn']

theorem Reaches.step (h : origin.Reaches p) (c : Char) : origin.Reaches (p.step c) := by
  obtain ⟨hoffset, ⟨hpos, hline⟩, hpos', hcolumn⟩ := h
  have hoffset' : origin.offset ≤ (p.step c).offset := by
    rw [offset_step]
    exact Nat.le_add_right_of_le hoffset
  by_cases hc : c = '\n'
  · rw [step_newline hc] at hoffset' ⊢
    have hlater : p.line + 1 ≠ origin.line := by omega
    exact ⟨hoffset', ⟨hpos, Nat.le_succ_of_le hline⟩, hpos', fun heq => absurd heq hlater⟩
  · rw [step_of_ne hc] at hoffset' ⊢
    exact ⟨hoffset', ⟨hpos, hline⟩, hpos', fun heq => Nat.le_succ_of_le (hcolumn heq)⟩

/-- Counting from the origin on makes no difference to a step. -/
theorem Reaches.since_step (h : origin.Reaches p) (c : Char) :
    (p.since origin).step c = (p.step c).since origin := by
  obtain ⟨hoffset, ⟨hpos, hline⟩, hpos', hcolumn⟩ := h
  have hnext : p.offset - origin.offset + c.utf8Size = p.offset + c.utf8Size - origin.offset :=
    (Nat.sub_add_comm hoffset).symm
  by_cases hc : c = '\n'
  · have hlater : p.line + 1 ≠ origin.line := by omega
    have hline' : p.line - (origin.line - 1) + 1 = p.line + 1 - (origin.line - 1) := by omega
    simp only [step_newline hc, since, if_neg hlater, hnext, hline']
  · by_cases hsame : p.line = origin.line
    · have hcolumn' : p.column - (origin.column - 1) + 1 = p.column + 1 - (origin.column - 1) := by
        have := hcolumn hsame
        omega
      simp only [step_of_ne hc, since, if_pos hsame, hnext, hcolumn']
    · simp only [step_of_ne hc, since, if_neg hsame, hnext]

end Place

def Token.since (t : Token) (origin : Place) : Token := { t with place := t.place.since origin }

def Lexeme.since (x : Lexeme) (origin : Place) : Lexeme := { x with token := x.token.since origin }

/-- The tokens from the origin on, with their places counted from there. -/
def tokensSince (origin : Place) (tokens : List Token) : List Token :=
  (tokens.filter (origin.offset ≤ ·.place.offset)).map (·.since origin)

namespace TokenStreams

/-- The tokens of a named channel; a channel that has no stream has none. -/
def tokensOf (streams : TokenStreams) (name : String) : List Token :=
  (streams.named.lookup name).getD []

/-- The second streams have the tokens of the first ones from the origin on. -/
structure Resumes (streams : TokenStreams) (origin : Place) (later : TokenStreams) : Prop where
  main : later.main = tokensSince origin streams.main
  named : ∀ name tokens, (name, tokens) ∈ later.named ↔
    tokens ≠ [] ∧ tokens = tokensSince origin (streams.tokensOf name)

end TokenStreams

/-- The second error is the first one in the text from the origin on. What the excerpt shows of the
text before the origin is cut off. -/
structure ScanError.Resumes (e : ScanError) (origin : Place) (before after : String)
    (later : ScanError) : Prop where
  place : later.place = e.place.since origin
  excerpt : ∃ cut, e.excerpt = cut ++ later.excerpt ∧ cut.toList <:+ before.toList ∧
    (cut = "" ∨ later.excerpt.toList <+: after.toList)

/-! ## Excerpts -/

namespace Lexer

/-- An excerpt shows the same of a text with more in front of it, unless it shows all of it that is
in front of its place. Then there may be more to see. -/
theorem excerpt_append (passed earlier rest : List Char) :
    ∃ cut, excerpt (passed ++ earlier) rest = String.ofList cut ++ excerpt passed rest ∧
      cut <:+ earlier.reverse ∧
      (cut = [] ∨ (excerpt passed rest).toList <+: passed.reverse ++ rest) := by
  by_cases hline : (passed.takeWhile (· ≠ '\n')).length = passed.length
  · have hpassed : passed.takeWhile (· ≠ '\n') = passed :=
      (List.takeWhile_prefix _).eq_of_length hline
    refine ⟨((earlier.takeWhile (· ≠ '\n')).take (excerptBefore - passed.length)).reverse, ?_, ?_,
      ?_⟩
    · unfold excerpt
      rw [List.takeWhile_append, if_pos hline, hpassed, List.take_append]
      simp
    · rw [List.reverse_suffix]
      exact (List.take_prefix _ _).trans (List.takeWhile_prefix _)
    · by_cases hroom : passed.length < excerptBefore
      · refine .inr ?_
        unfold excerpt
        rw [hpassed, List.take_of_length_le (Nat.le_of_lt hroom), String.toList_ofList,
          List.prefix_append_right_inj]
        exact (List.take_prefix _ _).trans (List.takeWhile_prefix _)
      · refine .inl ?_
        rw [Nat.sub_eq_zero_of_le (Nat.le_of_not_lt hroom)]
        rfl
  · refine ⟨[], ?_, List.nil_suffix, .inl rfl⟩
    unfold excerpt
    rw [List.takeWhile_append, if_neg hline]
    simp

/-! ## The scan -/

variable {ρ : Type} [Regex.Engine ρ] {l : Lexer ρ}
  {place origin : Place} {skip : Nat} {before text : List Char}

/-- No lexeme is in front of the place where the scan begins. -/
theorem scanFrom_ge : ∀ x ∈ (l.scanFrom skip before place text).1,
    place.offset ≤ x.token.place.offset := by
  induction text generalizing skip before place with
  | nil => simp
  | cons c rest ih =>
    have hstep : place.offset ≤ (place.step c).offset := by
      rw [Place.offset_step]
      exact Nat.le_add_right _ _
    have hlater : ∀ n, ∀ x ∈ (l.scanFrom n (c :: before) (place.step c) rest).1,
        place.offset ≤ x.token.place.offset := fun n x hx => Nat.le_trans hstep (ih x hx)
    cases skip with
    | succ n => exact hlater n
    | zero =>
      cases hwin : l.winner? (c :: rest) with
      | none => simp [scanFrom_of_winner?_eq_none hwin]
      | some found =>
        rw [scanFrom_cons hwin]
        exact List.forall_mem_cons.mpr ⟨Nat.le_refl _, hlater _⟩

/-- At each of its lexemes, a scan begins anew with the rest of the text. -/
theorem scanFrom_split {x : Lexeme} (hx : x ∈ (l.scanFrom skip before place text).1) :
    ∃ passed rest front, text = passed ++ rest ∧ x.token.place = place.after passed ∧
      (∀ y ∈ front, y.token.place.offset < x.token.place.offset) ∧
      l.scanFrom skip before place text =
        let later := l.scanFrom 0 (passed.reverse ++ before) (place.after passed) rest
        (front ++ later.1, later.2) := by
  induction text generalizing skip before place with
  | nil => simp at hx
  | cons c rest ih =>
    cases skip with
    | succ n =>
      obtain ⟨passed, rest, front, rfl, hplace, hfront, heq⟩ := ih hx
      refine ⟨c :: passed, rest, front, rfl, hplace, hfront, ?_⟩
      rw [scanFrom, heq]
      simp
    | zero =>
      cases hwin : l.winner? (c :: rest) with
      | none => simp [scanFrom_of_winner?_eq_none hwin] at hx
      | some found =>
        obtain ⟨e, n⟩ := found
        rw [scanFrom_cons hwin] at hx ⊢
        obtain rfl | hx := List.mem_cons.mp hx
        · exact ⟨[], c :: rest, [], rfl, rfl, by simp, (scanFrom_cons hwin).symm⟩
        · obtain ⟨passed, rest', front, rfl, hplace, hfront, heq⟩ := ih hx
          have hfirst : place.offset < x.token.place.offset := by
            rw [hplace, Place.offset_after, Place.offset_step]
            have := c.utf8Size_pos
            omega
          refine ⟨c :: passed, rest',
            ⟨⟨e.kind, String.ofList ((c :: (passed ++ rest')).take n), place⟩, e.channel⟩ :: front,
            rfl, hplace, List.forall_mem_cons.mpr ⟨hfirst, hfront⟩, ?_⟩
          rw [heq]
          simp

/-- The places of lexemes are told by the place where the scan begins. -/
theorem scanFrom_since (horigin : origin.Reaches place) (before' : List Char) :
    (l.scanFrom skip before' (place.since origin) text).1 =
      (l.scanFrom skip before place text).1.map (·.since origin) := by
  induction text generalizing skip before before' place with
  | nil => simp
  | cons c rest ih =>
    have hnext := horigin.step c
    have hstep := horigin.since_step c
    cases skip with
    | succ n =>
      rw [scanFrom, scanFrom, hstep]
      exact ih hnext _
    | zero =>
      cases hwin : l.winner? (c :: rest) with
      | none => simp [scanFrom_of_winner?_eq_none hwin]
      | some found =>
        rw [scanFrom_cons hwin, scanFrom_cons hwin, hstep, List.map_cons]
        exact congrArg _ (ih hnext _)

/-- So is the place of an error, but the excerpt is of the text that is there. -/
theorem scanFrom_error_since (horigin : origin.Reaches place) (passed earlier : List Char) :
    match (l.scanFrom skip (passed ++ earlier) place text).2 with
    | none => (l.scanFrom skip passed (place.since origin) text).2 = none
    | some e => ∃ later, (l.scanFrom skip passed (place.since origin) text).2 = some later ∧
        e.Resumes origin (String.ofList earlier.reverse) (String.ofList (passed.reverse ++ text))
          later := by
  induction text generalizing skip passed place with
  | nil => simp
  | cons c rest ih =>
    have hnext := horigin.step c
    have hstep := horigin.since_step c
    have hsame : passed.reverse ++ c :: rest = (c :: passed).reverse ++ rest := by simp
    cases skip with
    | succ n =>
      rw [scanFrom, scanFrom, hstep, hsame]
      exact ih hnext (c :: passed)
    | zero =>
      cases hwin : l.winner? (c :: rest) with
      | none =>
        rw [scanFrom_of_winner?_eq_none hwin, scanFrom_of_winner?_eq_none hwin]
        obtain ⟨cut, hexcerpt, hcut, hall⟩ := excerpt_append passed earlier (c :: rest)
        refine ⟨_, rfl, rfl, String.ofList cut, hexcerpt, by simpa using hcut, ?_⟩
        simpa using hall
      | some found =>
        rw [scanFrom_cons hwin, scanFrom_cons hwin, hstep, hsame]
        exact ih hnext (c :: passed)

/-- The rest of a text is scanned like the whole text from there on. -/
theorem scan_rest (horigin : origin.Reaches origin) (passed rest : List Char) :
    (l.scan (String.ofList rest)).1 =
        (l.scanFrom 0 passed.reverse origin rest).1.map (·.since origin) ∧
      match (l.scanFrom 0 passed.reverse origin rest).2 with
      | none => (l.scan (String.ofList rest)).2 = none
      | some e => ∃ later, (l.scan (String.ofList rest)).2 = some later ∧
          e.Resumes origin (String.ofList passed) (String.ofList rest) later := by
  unfold scan
  rw [String.toList_ofList, ← horigin.since_self]
  refine ⟨scanFrom_since horigin [], ?_⟩
  simpa using scanFrom_error_since horigin [] passed.reverse

end Lexer

/-! ## The streams -/

/-- The tokens of the lexemes of one channel. -/
def tokensOn (channel : Channel) (lexemes : List Lexeme) : List Token :=
  (lexemes.filter (·.channel = channel)).map (·.token)

/-- The lexemes in front of the origin have no tokens since then. -/
theorem tokensSince_tokensOn {origin : Place} {front back : List Lexeme} (channel : Channel)
    (hfront : ∀ x ∈ front, x.token.place.offset < origin.offset)
    (hback : ∀ x ∈ back, origin.offset ≤ x.token.place.offset) :
    tokensSince origin (tokensOn channel (front ++ back)) =
      tokensOn channel (back.map (·.since origin)) := by
  have hnone : (tokensOn channel front).filter (origin.offset ≤ ·.place.offset) = [] := by
    simp only [tokensOn, List.filter_eq_nil_iff, List.mem_map, List.mem_filter]
    rintro t ⟨x, ⟨hx, -⟩, rfl⟩
    simpa using hfront x hx
  have hall : (tokensOn channel back).filter (origin.offset ≤ ·.place.offset) =
      tokensOn channel back := by
    simp only [tokensOn, List.filter_eq_self, List.mem_map, List.mem_filter]
    rintro t ⟨x, ⟨hx, -⟩, rfl⟩
    simpa using hback x hx
  have hsplit : tokensOn channel (front ++ back) =
      tokensOn channel front ++ tokensOn channel back := by
    simp [tokensOn]
  rw [tokensSince, hsplit, List.filter_append, hnone, hall]
  simp [tokensOn, List.filter_map, Function.comp_def, Lexeme.since]

namespace TokenStreams

theorem tokensOf_ofLexemes (lexemes : List Lexeme) (name : String) :
    (ofLexemes lexemes).tokensOf name = tokensOn (.named name) lexemes := by
  have hnamed := (routes_ofLexemes lexemes).named name
  unfold tokensOf
  cases hlookup : (ofLexemes lexemes).named.lookup name with
  | some tokens =>
    obtain ⟨_, _, hsplit, -⟩ := List.lookup_eq_some_iff.mp hlookup
    exact ((hnamed tokens).mp (by simp [hsplit])).2
  | none =>
    by_contra hne
    have hmem := (hnamed (tokensOn (.named name) lexemes)).mpr ⟨fun h => hne h.symm, rfl⟩
    simpa using List.lookup_eq_none_iff.mp hlookup _ hmem

theorem resumes_ofLexemes {origin : Place} {front back : List Lexeme}
    (hfront : ∀ x ∈ front, x.token.place.offset < origin.offset)
    (hback : ∀ x ∈ back, origin.offset ≤ x.token.place.offset) :
    (ofLexemes (front ++ back)).Resumes origin (ofLexemes (back.map (·.since origin))) where
  main := (tokensSince_tokensOn .main hfront hback).symm
  named name tokens := by
    rw [tokensOf_ofLexemes, tokensSince_tokensOn _ hfront hback]
    exact (routes_ofLexemes _).named name tokens

end TokenStreams

/-- A text can be cut at each of its tokens, those that are skipped included. The rest has the same
tokens and fails at the same place, all counted from there on. -/
theorem Lexer.tokenize_resumed {ρ : Type} [Regex.Engine ρ] (l : Lexer ρ) {text : String}
    {x : Lexeme} (hx : x ∈ (l.scan text).1) :
    ∃ before after, text = before ++ after ∧ before.utf8ByteSize = x.token.place.offset ∧
      match l.tokenize text with
      | .ok streams => ∃ later, l.tokenize after = .ok later ∧
          streams.Resumes x.token.place later
      | .error e => ∃ later, l.tokenize after = .error later ∧
          later.StandsIn after ∧ e.Resumes x.token.place before after later := by
  obtain ⟨passed, rest, front, htext, hplace, hfront, hscan⟩ := scanFrom_split hx
  refine ⟨String.ofList passed, String.ofList rest, ?_, ?_, ?_⟩
  · rw [← String.ofList_append, ← htext, String.ofList_toList]
  · rw [hplace, Place.offset_after, String.utf8ByteSize_ofList]
    simp [Place.start]
  · have horigin := (Place.isEndOf_start.after passed).reaches
    rw [List.append_nil, ← hplace] at hscan
    rw [← hplace] at horigin
    obtain ⟨hlexemes, herror⟩ := scan_rest (l := l) horigin passed rest
    have hback : ∀ y ∈ (l.scanFrom 0 passed.reverse x.token.place rest).1,
        x.token.place.offset ≤ y.token.place.offset := scanFrom_ge
    cases hlater : l.scanFrom 0 passed.reverse x.token.place rest with
    | mk back error =>
      rw [hlater] at hscan hlexemes herror hback
      cases error with
      | none =>
        rw [tokenize_of_scan hscan]
        exact ⟨_, tokenize_of_scan (Prod.ext hlexemes herror),
          TokenStreams.resumes_ofLexemes hfront hback⟩
      | some e =>
        obtain ⟨later, herror, hresumes⟩ := herror
        rw [tokenize_of_scan_error hscan]
        exact ⟨later, tokenize_of_scan_error (Prod.ext hlexemes herror),
          (l.scan_places _).2 later herror, hresumes⟩

/-- The text is cut at its note, and another one at a blank before a lone hyphen. -/
theorem noteLexer_tokenize_resumed :
    (∃ before after, "a éa-a" = before ++ after ∧ before.utf8ByteSize = 2 ∧
      ∃ later, noteLexer.tokenize after = .ok later ∧ noteStreams.Resumes ⟨2, 1, 3⟩ later) ∧
    ∃ before after, "a -" = before ++ after ∧ before.utf8ByteSize = 1 ∧
      ∃ later, noteLexer.tokenize after = .error later ∧ later.place = ⟨1, 1, 2⟩ := by
  have hnote : ⟨⟨3, "é", ⟨2, 1, 3⟩⟩, .named "notes"⟩ ∈ (noteLexer.scan "a éa-a").1 := by decide
  have hblank : ⟨⟨2, " ", ⟨1, 1, 2⟩⟩, .skipped⟩ ∈ (noteLexer.scan "a -").1 := by decide
  have hwhole : noteLexer.tokenize "a éa-a" = .ok noteStreams := by decide +kernel
  have hcut : noteLexer.tokenize "a -" = .error ⟨⟨2, 1, 3⟩, "a -"⟩ := by decide +kernel
  constructor
  · obtain ⟨before, after, htext, hsize, hresumed⟩ := Lexer.tokenize_resumed noteLexer hnote
    rw [hwhole] at hresumed
    exact ⟨before, after, htext, hsize, hresumed⟩
  · obtain ⟨before, after, htext, hsize, hresumed⟩ := Lexer.tokenize_resumed noteLexer hblank
    rw [hcut] at hresumed
    obtain ⟨later, hlater, -, hresumes⟩ := hresumed
    exact ⟨before, after, htext, hsize, later, hlater, hresumes.place⟩

/-- The error of the rest is not that of the whole text with another place, for an excerpt does not
reach back over the start of its text. -/
theorem excerpt_of_rest_differs :
    ¬ ∀ (l : Lexer) (before after : String) (x : Lexeme) (e : ScanError),
      x ∈ (l.scan (before ++ after)).1 → before.utf8ByteSize = x.token.place.offset →
      l.tokenize (before ++ after) = .error e →
      l.tokenize after = .error { e with place := e.place.since x.token.place } := by
  intro h
  have hblank : ⟨⟨2, " ", ⟨1, 1, 2⟩⟩, .skipped⟩ ∈ (noteLexer.scan ("a" ++ " -")).1 := by decide
  have hrest : noteLexer.tokenize " -" = .error ⟨⟨1, 1, 2⟩, " -"⟩ := rfl
  have hkept := h noteLexer "a" " -" _ ⟨⟨2, 1, 3⟩, "a -"⟩ hblank rfl rfl
  rw [hrest] at hkept
  have hexcerpt : " -" = "a -" := congrArg ScanError.excerpt (Except.error.inj hkept)
  exact absurd hexcerpt (by decide)

end StrongLL
