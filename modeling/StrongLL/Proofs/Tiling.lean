import Mathlib.Data.List.Induction
import StrongLL.Proofs.LexerEntries

/-!
# StrongLL.Proofs.Tiling

The scan cuts a text into pieces without a gap:

* `Tiling`                — pieces from the start of a text, each what the types take there, up to a
  place where nothing is taken.
* `Tiling.unique`         — a text has one tiling.
* `boundaries`            — where the pieces begin and the last one ends, in bytes.
* `Lexer.IsOf.scanFrom_eq` — the lexemes of a scan are the pieces, and it fails where they end.
* `TokenStreams.Routes`   — how lexemes are divided among the channels.
* `Lexer.tokenize_tiling` — the streams of a text, or the error, told by its tiling.
-/

namespace StrongLL

/-- A piece of a text and the type it is taken for. -/
structure Piece where
  kind : TypeId
  image : List Char
deriving DecidableEq

/-- From the start of the text on, the types take one piece after another, and nothing where `left`
begins. -/
inductive Tiling (ρ : Type) [Regex.Engine ρ] (v : Vocabulary) (order : List TypeId) :
    List Char → List Piece → List Char → Prop where
  | stop {text : List Char} :
      (∀ id image, ¬ v.Takes ρ order text id image) → Tiling ρ v order text [] text
  | piece {id : TypeId} {text image rest left : List Char} {pieces : List Piece} :
      v.Takes ρ order text id image → text = image ++ rest → Tiling ρ v order rest pieces left →
      Tiling ρ v order text (⟨id, image⟩ :: pieces) left

def images (pieces : List Piece) : List Char := pieces.flatMap (·.image)

/-- The place of every piece and the one after the last, as offsets in bytes. -/
def boundaries (offset : Nat) : List Piece → List Nat
  | [] => [offset]
  | x :: rest => offset :: boundaries (offset + String.utf8Len x.image) rest

namespace Vocabulary

/-- The channel of a declared type. -/
def channel (v : Vocabulary) (id : TypeId) : Channel :=
  match v.get? id with
  | some t => t.channel
  | none => .skipped

end Vocabulary

/-- The lexemes of pieces that begin at a place. -/
def lexemes (v : Vocabulary) (place : Place) : List Piece → List Lexeme
  | [] => []
  | x :: rest =>
    ⟨⟨x.kind, String.ofList x.image, place⟩, v.channel x.kind⟩
      :: lexemes v (place.after x.image) rest

namespace Tiling

variable {ρ : Type} [Regex.Engine ρ] {v : Vocabulary} {order : List TypeId}
  {text left left' : List Char} {pieces pieces' : List Piece}

theorem unique (h : Tiling ρ v order text pieces left) (h' : Tiling ρ v order text pieces' left') :
    pieces' = pieces ∧ left' = left := by
  induction h generalizing pieces' with
  | stop hnone =>
    cases h' with
    | stop _ => exact ⟨rfl, rfl⟩
    | piece htakes _ _ => exact absurd htakes (hnone _ _)
  | @piece id text image rest left pieces htakes hsplit _ ih =>
    cases h' with
    | stop hnone => exact absurd htakes (hnone _ _)
    | @piece id' _ image' rest' _ pieces' htakes' hsplit' h' =>
      obtain ⟨rfl, rfl⟩ := htakes.unique htakes'
      obtain rfl : rest = rest' := List.append_cancel_left (hsplit.symm.trans hsplit')
      obtain ⟨rfl, rfl⟩ := ih h'
      exact ⟨rfl, rfl⟩

theorem images_append (h : Tiling ρ v order text pieces left) : images pieces ++ left = text := by
  induction h with
  | stop _ => rfl
  | piece _ hsplit _ ih =>
    rw [hsplit, ← ih]
    simp [images]

/-- No piece is empty, and each is matched by its type. -/
theorem matches_of_mem (h : Tiling ρ v order text pieces left) :
    ∀ x ∈ pieces, ∃ text, v.Matches ρ x.kind text x.image := by
  induction h with
  | stop _ => simp
  | @piece id text image rest left pieces htakes _ _ ih =>
    intro x hx
    obtain rfl | hx := List.mem_cons.mp hx
    · exact ⟨text, htakes.matches⟩
    · exact ih x hx

/-- Nothing more is taken where the tiling ends. -/
theorem not_takes_left (h : Tiling ρ v order text pieces left) (id : TypeId) (image : List Char) :
    ¬ v.Takes ρ order left id image := by
  induction h with
  | stop hnone => exact hnone id image
  | piece _ _ _ ih => exact ih

/-- What is left of a text gets shorter with every piece. -/
theorem exists_of_length (ρ : Type) [Regex.Engine ρ] (v : Vocabulary) (order : List TypeId) :
    ∀ (n : Nat) (text : List Char), text.length ≤ n →
      ∃ pieces left, Tiling ρ v order text pieces left := by
  intro n
  induction n with
  | zero =>
    intro text htext
    obtain rfl := List.eq_nil_of_length_eq_zero (Nat.le_zero.mp htext)
    refine ⟨[], [], .stop fun id image htakes => ?_⟩
    exact htakes.matches.ne_nil (List.prefix_nil.mp htakes.matches.isPrefix)
  | succ n ih =>
    intro text htext
    by_cases htakes : ∃ id image, v.Takes ρ order text id image
    · obtain ⟨id, image, htakes⟩ := htakes
      obtain ⟨rest, rfl⟩ := htakes.matches.isPrefix
      have hpos := List.length_pos_iff.mpr htakes.matches.ne_nil
      rw [List.length_append] at htext
      obtain ⟨pieces, left, htiling⟩ := ih rest (by omega)
      exact ⟨_, left, .piece htakes rfl htiling⟩
    · exact ⟨[], text, .stop fun id image hi => htakes ⟨id, image, hi⟩⟩

end Tiling

/-! ## Boundaries -/

theorem Place.offset_step (p : Place) (c : Char) : (p.step c).offset = p.offset + c.utf8Size := by
  unfold Place.step
  split <;> rfl

theorem Place.offset_after (p : Place) (text : List Char) :
    (p.after text).offset = p.offset + String.utf8Len text := by
  induction text generalizing p with
  | nil => rfl
  | cons c rest ih =>
    rw [Place.after_cons, ih, Place.offset_step, String.utf8Len_cons]
    omega

section

variable {pieces : List Piece}

theorem mem_boundaries_ge {offset : Nat} : ∀ o ∈ boundaries offset pieces, offset ≤ o := by
  induction pieces generalizing offset with
  | nil => simp [boundaries]
  | cons x rest ih =>
    intro o ho
    obtain rfl | ho := List.mem_cons.mp ho
    · exact Nat.le_refl _
    · exact Nat.le_trans (Nat.le_add_right _ _) (ih o ho)

theorem boundaries_pairwise (h : ∀ x ∈ pieces, x.image ≠ []) (offset : Nat) :
    (boundaries offset pieces).Pairwise (· < ·) := by
  induction pieces generalizing offset with
  | nil => simp [boundaries]
  | cons x rest ih =>
    refine List.pairwise_cons.mpr ⟨fun o ho => ?_, ih (fun y hy => h y (by simp [hy])) _⟩
    have hpos : String.utf8Len x.image ≠ 0 := by simpa using h x (by simp)
    have := mem_boundaries_ge o ho
    omega

theorem getLast?_boundaries (pieces : List Piece) (offset : Nat) :
    (boundaries offset pieces).getLast? = some (offset + String.utf8Len (images pieces)) := by
  induction pieces generalizing offset with
  | nil => rfl
  | cons x rest ih =>
    have hne : boundaries (offset + String.utf8Len x.image) rest ≠ [] := by
      cases rest <;> simp [boundaries]
    rw [boundaries, List.getLast?_cons_of_ne_nil hne, ih]
    simp [images, Nat.add_assoc]

/-- Every token stands at the boundary of its piece. -/
theorem boundaries_eq (v : Vocabulary) (pieces : List Piece) (place : Place) :
    boundaries place.offset pieces =
      (lexemes v place pieces).map (·.token.place.offset) ++
        [place.offset + String.utf8Len (images pieces)] := by
  induction pieces generalizing place with
  | nil => rfl
  | cons x rest ih =>
    rw [boundaries, ← Place.offset_after, ih]
    simp [lexemes, images, Place.offset_after, Nat.add_assoc]

end

/-! ## The scan -/

namespace Lexer

variable {ρ : Type} [Regex.Engine ρ] {v : Vocabulary} {order : List TypeId} {l : Lexer ρ}

/-- The lexemes of a scan are the pieces of the tiling. It fails unless nothing is left. -/
theorem IsOf.scanFrom_eq (h : l.IsOf v order) {text left : List Char} {pieces : List Piece}
    (htiling : Tiling ρ v order text pieces left) (before : List Char) (place : Place) :
    l.scanFrom 0 before place text = (lexemes v place pieces,
      if left = [] then none
      else some
        ⟨place.after (images pieces), excerpt ((images pieces).reverse ++ before) left⟩) := by
  induction htiling generalizing before place with
  | @stop text hnone =>
    cases text with
    | nil =>
      rw [scanFrom_nil]
      rfl
    | cons c rest =>
      have hwin : l.winner? (c :: rest) = none := by
        cases hwin : l.winner? (c :: rest) with
        | none => rfl
        | some found => exact absurd (h.takes_of_winner? hwin) (hnone _ _)
      rw [scanFrom_of_winner?_eq_none hwin]
      rfl
  | @piece id text image rest left pieces htakes hsplit _ ih =>
    obtain ⟨e, n, hwin, rfl, himage⟩ := h.takes_iff.mp htakes
    have hn := (bounds_of_winner? hwin).1
    have hne : text ≠ [] := by
      rintro rfl
      exact htakes.matches.ne_nil (by simpa using himage)
    have hrest : text.drop n = rest := by
      have hboth : image ++ text.drop n = image ++ rest := by
        rw [← hsplit]
        conv => lhs; rw [himage, List.take_append_drop]
      exact List.append_cancel_left hboth
    have hchannel : e.channel = v.channel e.kind := by
      obtain ⟨t, ht, -, hchannel⟩ := h.entries e (mem_of_winner? hwin)
      rw [Vocabulary.channel, ht, hchannel]
    rw [scanFrom_of_winner?_eq_some hwin hn hne, ← himage, hrest, ih]
    simp [lexemes, images, hchannel, Place.after_append]

end Lexer

/-! ## The channels -/

namespace TokenStreams

/-- The main stream has the lexemes of the main channel, and there is one stream for every other
channel with lexemes. Both keep their order, and the streams stand in the order in which their
channels first appear. -/
structure Routes (streams : TokenStreams) (lexemes : List Lexeme) : Prop where
  main : streams.main = (lexemes.filter (·.channel = .main)).map (·.token)
  named : ∀ name tokens, (name, tokens) ∈ streams.named ↔
    tokens ≠ [] ∧ tokens = (lexemes.filter (·.channel = .named name)).map (·.token)
  order : (streams.named.map (·.1)).Pairwise fun name other =>
    lexemes.findIdx (·.channel = .named name) < lexemes.findIdx (·.channel = .named other)

theorem channelName?_eq_some {l : Lexeme} {name : String} :
    ofLexemes.channelName? l = some name ↔ l.channel = .named name := by
  unfold ofLexemes.channelName?
  cases l.channel <;> simp

/-- The names of the channels of lexemes, each once. -/
def names (lexemes : List Lexeme) : List String :=
  (lexemes.filterMap ofLexemes.channelName?).eraseDups

theorem mem_names {lexemes : List Lexeme} {name : String} :
    name ∈ names lexemes ↔ ∃ l ∈ lexemes, l.channel = .named name := by
  rw [names, List.mem_eraseDups, List.mem_filterMap]
  simp only [channelName?_eq_some]

/-- One lexeme more brings no name or a new one. -/
theorem names_concat (lexemes : List Lexeme) (l : Lexeme) :
    names (lexemes ++ [l]) = names lexemes ∨
      ∃ name, names (lexemes ++ [l]) = names lexemes ++ [name] ∧
        ∀ x ∈ lexemes, x.channel ≠ .named name := by
  have hconcat : names (lexemes ++ [l]) = names lexemes ++
      (([l].filterMap ofLexemes.channelName?).removeAll
        (lexemes.filterMap ofLexemes.channelName?)).eraseDups := by
    rw [names, List.filterMap_append, List.eraseDups_append]
    rfl
  rw [hconcat]
  cases hl : ofLexemes.channelName? l with
  | none => simp [hl, List.removeAll]
  | some name =>
    have hold := @mem_names lexemes name
    rw [names, List.mem_eraseDups] at hold
    generalize lexemes.filterMap ofLexemes.channelName? = before at hold
    by_cases hname : name ∈ before
    · exact .inl (by simp [hl, List.removeAll, hname])
    · refine .inr ⟨name, by simp [hl, List.removeAll, hname, List.eraseDups_cons], ?_⟩
      exact fun x hx hchannel => hname (hold.mpr ⟨x, hx, hchannel⟩)

/-- Names are kept where they first appear. -/
theorem names_pairwise (lexemes : List Lexeme) :
    (names lexemes).Pairwise fun name other =>
      lexemes.findIdx (·.channel = .named name) < lexemes.findIdx (·.channel = .named other) := by
  induction lexemes using List.reverseRecOn with
  | nil => simp [names]
  | append_singleton lexemes l ih =>
    have hold : ∀ name ∈ names lexemes,
        lexemes.findIdx (·.channel = .named name) < lexemes.length ∧
          (lexemes ++ [l]).findIdx (·.channel = .named name) =
            lexemes.findIdx (·.channel = .named name) := by
      intro name hname
      obtain ⟨x, hx, hchannel⟩ := mem_names.mp hname
      have hlt : lexemes.findIdx (·.channel = .named name) < lexemes.length :=
        List.findIdx_lt_length_of_exists ⟨x, hx, by simpa using hchannel⟩
      exact ⟨hlt, by rw [List.findIdx_append, if_pos hlt]⟩
    have hkept : (names lexemes).Pairwise fun name other =>
        (lexemes ++ [l]).findIdx (·.channel = .named name) <
          (lexemes ++ [l]).findIdx (·.channel = .named other) := by
      refine ih.imp_of_mem fun hname hother hlt => ?_
      rw [(hold _ hname).2, (hold _ hother).2]
      exact hlt
    obtain hsame | ⟨name, hnew, hnone⟩ := names_concat lexemes l
    · rw [hsame]
      exact hkept
    · rw [hnew]
      refine List.pairwise_append.mpr ⟨hkept, by simp, fun other hother x hx => ?_⟩
      obtain rfl := List.mem_singleton.mp hx
      -- what is new stands behind all lexemes so far
      have hend : lexemes.findIdx (·.channel = .named x) = lexemes.length := by
        refine List.findIdx_eq_length.mpr fun y hy => ?_
        simpa using hnone y hy
      rw [(hold other hother).2, List.findIdx_append, if_neg (by omega)]
      exact Nat.lt_of_lt_of_le (hold other hother).1 (Nat.le_add_left _ _)

theorem routes_ofLexemes (lexemes : List Lexeme) : (ofLexemes lexemes).Routes lexemes where
  main := rfl
  named name tokens := by
    have hnames := @mem_names lexemes name
    have hne : (lexemes.filter (·.channel = .named name)).map (·.token) ≠ [] ↔
        ∃ l ∈ lexemes, l.channel = .named name := by
      simp [List.filter_eq_nil_iff]
    unfold ofLexemes
    rw [List.mem_map]
    constructor
    · intro h
      obtain ⟨other, hother, heq⟩ := h
      obtain ⟨rfl, rfl⟩ : other = name ∧ _ = tokens := by simpa using heq
      exact ⟨hne.mpr (hnames.mp hother), rfl⟩
    · intro h
      obtain ⟨htokens, rfl⟩ := h
      exact ⟨name, hnames.mpr (hne.mp htokens), rfl⟩
  order := by
    have hkeys : (ofLexemes lexemes).named.map (·.1) = names lexemes := by
      simp [ofLexemes, names, Function.comp_def]
    rw [hkeys]
    exact names_pairwise lexemes

/-- Tokens of a stream are those of lexemes that are not skipped. -/
theorem Routes.exists_lexeme {streams : TokenStreams} {lexemes : List Lexeme}
    (h : streams.Routes lexemes) {t : Token}
    (ht : t ∈ streams.main ++ streams.named.flatMap (·.2)) :
    ∃ x ∈ lexemes, x.token = t ∧ x.channel ≠ .skipped := by
  obtain ht | ht := List.mem_append.mp ht
  · rw [h.main] at ht
    obtain ⟨x, hx, rfl⟩ := List.mem_map.mp ht
    obtain ⟨hx, hmain⟩ := List.mem_filter.mp hx
    exact ⟨x, hx, rfl, by simp [of_decide_eq_true hmain]⟩
  · obtain ⟨⟨name, tokens⟩, hstream, ht⟩ := List.mem_flatMap.mp ht
    obtain ⟨-, rfl⟩ := (h.named name tokens).mp hstream
    obtain ⟨x, hx, rfl⟩ := List.mem_map.mp ht
    obtain ⟨hx, hname⟩ := List.mem_filter.mp hx
    exact ⟨x, hx, rfl, by simp [of_decide_eq_true hname]⟩

end TokenStreams

section

variable {ρ : Type} [Regex.Engine ρ] {v : Vocabulary} {order : List TypeId} {l : Lexer ρ}
  {pieces : List Piece}

theorem mem_lexemes {place : Place} {x : Lexeme} (h : x ∈ lexemes v place pieces) :
    ∃ piece ∈ pieces, x.token.kind = piece.kind ∧ x.channel = v.channel piece.kind := by
  induction pieces generalizing place with
  | nil => cases h
  | cons piece rest ih =>
    obtain rfl | h := List.mem_cons.mp h
    · exact ⟨piece, by simp, rfl, rfl⟩
    · obtain ⟨other, hother, heq⟩ := ih h
      exact ⟨other, by simp [hother], heq⟩

/-- Tokens of a stream are of declared types that have a pattern and are not skipped. -/
theorem TokenStreams.Routes.type_of_mem {streams : TokenStreams} {place : Place}
    (h : streams.Routes (lexemes v place pieces))
    (hpieces : ∀ x ∈ pieces, ∃ text, v.Matches ρ x.kind text x.image) :
    ∀ t ∈ streams.main ++ streams.named.flatMap (·.2),
      ∃ type, v.get? t.kind = some type ∧ type.channel ≠ .skipped ∧ type.pattern ≠ .category := by
  intro t ht
  obtain ⟨x, hx, rfl, hchannel⟩ := h.exists_lexeme ht
  obtain ⟨piece, hpiece, hkind, hpieceChannel⟩ := mem_lexemes hx
  obtain ⟨text, type, htype, hm⟩ := hpieces piece hpiece
  rw [hkind]
  refine ⟨type, htype, ?_, ?_⟩
  · rw [hpieceChannel, Vocabulary.channel, htype] at hchannel
    exact hchannel
  · intro hpattern
    rw [hpattern] at hm
    exact hm

namespace Lexer

theorem IsOf.tokenize_eq_ok (h : l.IsOf v order) {text : String}
    (htiling : Tiling ρ v order text.toList pieces []) :
    l.tokenize text = .ok (.ofLexemes (lexemes v .start pieces)) := by
  rw [tokenize, scan, h.scanFrom_eq htiling, if_pos rfl]

theorem IsOf.tokenize_eq_error (h : l.IsOf v order) {text : String} {left : List Char}
    (htiling : Tiling ρ v order text.toList pieces left) (hleft : left ≠ []) :
    l.tokenize text =
      .error ⟨Place.start.after (images pieces), excerpt (images pieces).reverse left⟩ := by
  rw [tokenize, scan, h.scanFrom_eq htiling, if_neg hleft, List.append_nil]

end Lexer

end

/-- A lexer cuts every text in one way into pieces without a gap, each of which is what the types
take at its boundary. If nothing is left, the tokens of the pieces are divided among the channels of
their types; else the scan fails at the last boundary, where no type matches. -/
theorem Lexer.tokenize_tiling {ρ : Type} [Regex.Engine ρ] {v : Vocabulary} {order : List TypeId}
    {l : Lexer ρ} (h : Lexer.build v order ρ = .ok l) (text : String) :
    ∃ pieces left,
      (∀ pieces' left', Tiling ρ v order text.toList pieces' left' ↔
        pieces' = pieces ∧ left' = left) ∧
      (boundaries 0 pieces).Pairwise (· < ·) ∧
      boundaries 0 pieces = (lexemes v .start pieces).map (·.token.place.offset) ++
        [String.utf8Len (images pieces)] ∧
      text = String.ofList (images pieces ++ left) ∧
      (left = [] → ∃ streams, l.tokenize text = .ok streams ∧
        streams.Routes (lexemes v .start pieces) ∧
        (∀ t ∈ streams.main ++ streams.named.flatMap (·.2), ∃ type, v.get? t.kind = some type ∧
          type.channel ≠ .skipped ∧ type.pattern ≠ .category) ∧
        (boundaries 0 pieces).getLast? = some text.utf8ByteSize) ∧
      (left ≠ [] → (∀ id image, ¬ v.Takes ρ order left id image) ∧ ∃ e, l.tokenize text = .error e ∧
        e.place = Place.start.after (images pieces) ∧
        e.excerpt = excerpt (images pieces).reverse left ∧
        (boundaries 0 pieces).getLast? = some e.place.offset ∧
        e.place.offset < text.utf8ByteSize) := by
  have hl := isOf_of_build h
  obtain ⟨pieces, left, htiling⟩ := Tiling.exists_of_length ρ v order _ text.toList (Nat.le_refl _)
  have himages := htiling.images_append
  have hmatches := htiling.matches_of_mem
  have hsize : text.utf8ByteSize = String.utf8Len (images pieces) + String.utf8Len left := by
    rw [← String.utf8Len_toList, ← himages, String.utf8Len_append]
  have hlast := getLast?_boundaries pieces 0
  rw [Nat.zero_add] at hlast
  refine ⟨pieces, left, fun pieces' left' => ⟨htiling.unique, ?_⟩, ?_, ?_, ?_, ?_, ?_⟩
  · rintro ⟨rfl, rfl⟩
    exact htiling
  · refine boundaries_pairwise (fun x hx => ?_) 0
    obtain ⟨text, hm⟩ := hmatches x hx
    exact hm.ne_nil
  · simpa [Place.start] using boundaries_eq v pieces .start
  · rw [himages, String.ofList_toList]
  · rintro rfl
    have hroutes := TokenStreams.routes_ofLexemes (lexemes v .start pieces)
    refine ⟨_, hl.tokenize_eq_ok htiling, hroutes, hroutes.type_of_mem hmatches, ?_⟩
    rw [hlast, hsize, String.utf8Len_nil, Nat.add_zero]
  · intro hleft
    refine ⟨htiling.not_takes_left, _, hl.tokenize_eq_error htiling hleft, rfl, rfl, ?_, ?_⟩
    · rw [hlast, Place.offset_after]
      simp [Place.start]
    · have hpos : String.utf8Len left ≠ 0 := by simpa using hleft
      rw [Place.offset_after, hsize]
      simp only [Place.start]
      omega

/-- Words and a longer kind of them, blanks that are skipped, and notes on their own channel. -/
def noteVocabulary : Vocabulary :=
  .ofSpecs [{ name := "word", pattern := .regex "a+", longerAlt := some 1 },
    { name := "compound", pattern := .literal "a-a" },
    { name := "blank", pattern := .literal " ", channel := .skipped },
    { name := "note", pattern := .literal "é", channel := .named "notes" }]

def wordAutomaton : Automaton where
  states := #[.accept, .split 2 0, .char (.single 'a') 1, .assertion .textStart 2]
  start := 3
  anchored := true

def noteLexer : Lexer where
  vocabulary := noteVocabulary
  entries := [⟨0, .regex wordAutomaton, .main, some 1⟩, ⟨1, .literal ['a', '-', 'a'], .main, none⟩,
    ⟨2, .literal [' '], .skipped, none⟩, ⟨3, .literal ['é'], .named "notes", none⟩]

def noteStreams : TokenStreams where
  main := [⟨0, "a", ⟨0, 1, 1⟩⟩, ⟨1, "a-a", ⟨4, 1, 4⟩⟩]
  named := [("notes", [⟨3, "é", ⟨2, 1, 3⟩⟩])]

theorem noteLexer_built : Lexer.build noteVocabulary [0, 1, 2, 3] = .ok noteLexer := by
  decide +kernel

/-- A text that is cut to its end, and one that is not, for no type matches a lone hyphen. -/
theorem noteLexer_tokenize_tiling :
    (∃ pieces, Tiling Automaton noteVocabulary [0, 1, 2, 3] "a éa-a".toList pieces [] ∧
      noteStreams.Routes (lexemes noteVocabulary .start pieces) ∧
      (boundaries 0 pieces).getLast? = some 7) ∧
    ∃ pieces left, Tiling Automaton noteVocabulary [0, 1, 2, 3] "é-".toList pieces left ∧
      (∀ id image, ¬ noteVocabulary.Takes Automaton [0, 1, 2, 3] left id image) ∧
      (boundaries 0 pieces).getLast? = some 2 := by
  have hwhole : noteLexer.tokenize "a éa-a" = .ok noteStreams := by decide +kernel
  have hcut : noteLexer.tokenize "é-" = .error ⟨⟨2, 1, 2⟩, "é-"⟩ := by decide +kernel
  constructor
  · obtain ⟨pieces, left, htiling, -, -, -, hok, herror⟩ :=
      Lexer.tokenize_tiling noteLexer_built "a éa-a"
    by_cases hleft : left = []
    · obtain ⟨streams, hstreams, hroutes, -, hlast⟩ := hok hleft
      cases hwhole.symm.trans hstreams
      exact ⟨pieces, (htiling pieces []).mpr ⟨rfl, hleft.symm⟩, hroutes, hlast⟩
    · obtain ⟨-, e, he, -⟩ := herror hleft
      cases hwhole.symm.trans he
  · obtain ⟨pieces, left, htiling, -, -, -, hok, herror⟩ :=
      Lexer.tokenize_tiling noteLexer_built "é-"
    by_cases hleft : left = []
    · obtain ⟨streams, hstreams, -⟩ := hok hleft
      cases hcut.symm.trans hstreams
    · obtain ⟨hnone, e, he, -, -, hlast, -⟩ := herror hleft
      cases hcut.symm.trans he
      exact ⟨pieces, left, (htiling pieces left).mpr ⟨rfl, rfl⟩, hnone, hlast⟩

end StrongLL
