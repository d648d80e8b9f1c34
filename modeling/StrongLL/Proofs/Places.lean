import Mathlib.Data.List.TakeWhile
import StrongLL.Proofs.Tiling

/-!
# StrongLL.Proofs.Places

The places that a scan reports are those of its text:

* `LastLine`              — what stands in a text after its last line feed.
* `Place.IsEndOf`         — the place behind a text; `Place.IsEndOf.step` moves it by a character.
* `Token.StandsIn`        — a token is a piece of a text, at the place where it stands.
* `ScanError.StandsIn`    — an error is at a place in a text, and shows the line around it.
* `Lexer.scanFrom_places` — so it is for all that a scan finds from such a place on.
* `Lexer.tokenize_places` — and for all tokens of the streams, or for the error.
-/

namespace StrongLL

/-- `line` stands in a text after its last line feed, or since its start. -/
def LastLine (text line : List Char) : Prop :=
  '\n' ∉ line ∧ (text = line ∨ ∃ earlier, text = earlier ++ '\n' :: line)

/-- The longest text with a property. -/
def Longest (P : List Char → Prop) (x : List Char) : Prop :=
  P x ∧ ∀ y, P y → y.length ≤ x.length

/-- The place behind a text. -/
structure Place.IsEndOf (p : Place) (before : List Char) : Prop where
  offset : p.offset = String.utf8Len before
  line : p.line = 1 + before.count '\n'
  column : ∃ line, LastLine before line ∧ p.column = 1 + line.length

/-- The image of a token is the piece of the text at its offset, and its place is the one behind the
text in front of it. -/
structure Token.StandsIn (t : Token) (text : String) : Prop where
  nonempty : t.image ≠ ""
  within : t.place.offset + t.size ≤ text.utf8ByteSize
  slice : t.image = String.Pos.Raw.extract text ⟨t.place.offset⟩ ⟨t.place.offset + t.size⟩
  place : ∃ before after, text = before ++ t.image ++ after ∧ t.place.IsEndOf before.toList

/-- An error is in front of some character. Its excerpt is of one line, with at most 8 characters
from before its place and 16 from there on. -/
structure ScanError.StandsIn (e : ScanError) (text : String) : Prop where
  within : e.place.offset < text.utf8ByteSize
  place : ∃ before after ending beginning,
    text = String.ofList (before ++ after) ∧ e.place.IsEndOf before ∧
      Longest (fun x => x <:+ before ∧ '\n' ∉ x ∧ x.length ≤ 8) ending ∧
      Longest (fun x => x <+: after ∧ '\n' ∉ x ∧ x.length ≤ 16) beginning ∧
      e.excerpt = String.ofList (ending ++ beginning)

/-! ## Places -/

namespace Place

variable {p : Place} {before : List Char}

theorem isEndOf_start : start.IsEndOf [] := ⟨rfl, rfl, [], ⟨by simp, .inl rfl⟩, rfl⟩

theorem step_newline {c : Char} (hc : c = '\n') :
    p.step c = ⟨p.offset + c.utf8Size, p.line + 1, 1⟩ := if_pos hc

theorem step_of_ne {c : Char} (hc : c ≠ '\n') :
    p.step c = ⟨p.offset + c.utf8Size, p.line, p.column + 1⟩ := if_neg hc

theorem IsEndOf.step (h : p.IsEndOf before) (c : Char) : (p.step c).IsEndOf (before ++ [c]) := by
  obtain ⟨hoffset, hline, line, ⟨hfree, hlast⟩, hcolumn⟩ := h
  by_cases hc : c = '\n'
  · rw [step_newline hc]
    subst hc
    refine ⟨?_, ?_, [], ⟨by simp, .inr ⟨before, rfl⟩⟩, rfl⟩
    · simp [hoffset]
    · simp [hline, Nat.add_assoc]
  · have hfree' : '\n' ∉ line ++ [c] := by
      simpa [hfree] using fun h => hc h.symm
    rw [step_of_ne hc]
    refine ⟨?_, ?_, line ++ [c], ⟨hfree', ?_⟩, ?_⟩
    · simp [hoffset]
    · simp [hc, hline]
    · obtain rfl | ⟨earlier, rfl⟩ := hlast
      · exact .inl rfl
      · exact .inr ⟨earlier, by simp⟩
    · simp [hcolumn, Nat.add_assoc]

theorem IsEndOf.after (h : p.IsEndOf before) (text : List Char) :
    (p.after text).IsEndOf (before ++ text) := by
  induction text generalizing p before with
  | nil => simpa using h
  | cons c rest ih => simpa using ih (h.step c)

end Place

/-! ## Excerpts -/

/-- What is taken from the start of a line is the longest beginning that fits. -/
theorem longest_beginning (text : List Char) (n : Nat) :
    Longest (fun x => x <+: text ∧ '\n' ∉ x ∧ x.length ≤ n)
      ((text.takeWhile (· ≠ '\n')).take n) := by
  refine ⟨⟨?_, ?_, List.length_take_le n _⟩, ?_⟩
  · exact (List.take_prefix n _).trans (List.takeWhile_prefix _)
  · intro hmem
    have := List.mem_takeWhile_imp (List.mem_of_mem_take hmem)
    simp at this
  · intro y hy
    obtain ⟨⟨rest, rfl⟩, hfree, hn⟩ := hy
    have hall : ∀ c ∈ y, decide (c ≠ '\n') = true := fun c hc =>
      decide_eq_true fun heq => hfree (heq ▸ hc)
    rw [List.takeWhile_append_of_pos hall, List.length_take, List.length_append]
    omega

/-- The same for endings, which are told backwards. -/
theorem longest_ending (before : List Char) (n : Nat) :
    Longest (fun x => x <:+ before.reverse ∧ '\n' ∉ x ∧ x.length ≤ n)
      ((before.takeWhile (· ≠ '\n')).take n).reverse := by
  obtain ⟨⟨hbeginning, hfree, -⟩, hlongest⟩ := longest_beginning before n
  refine ⟨⟨List.reverse_suffix.mpr hbeginning, by simpa using hfree, by simp⟩, ?_⟩
  intro y hy
  obtain ⟨hsuffix, hfree, hn⟩ := hy
  rw [← List.reverse_prefix, List.reverse_reverse] at hsuffix
  simpa using hlongest y.reverse ⟨hsuffix, by simpa using hfree, by simpa using hn⟩

/-! ## The scan -/

variable {text : String} {place : Place}

theorem Token.standsIn_of_split {before image after : List Char} {kind : TypeId}
    (htext : text.toList = before ++ image ++ after) (himage : image ≠ [])
    (hplace : place.IsEndOf before) :
    (⟨kind, String.ofList image, place⟩ : Token).StandsIn text := by
  have htext' : text = String.ofList (before ++ image ++ after) := by
    rw [← htext, String.ofList_toList]
  have hsize : (⟨kind, String.ofList image, place⟩ : Token).size = String.utf8Len image := by
    rw [Token.size, String.utf8ByteSize_ofList]
  refine ⟨by simpa using himage, ?_, ?_, String.ofList before, String.ofList after, ?_, ?_⟩
  · rw [hsize, ← String.utf8Len_toList, htext]
    simp [hplace.offset]
  · dsimp only
    rw [hsize, hplace.offset, htext', String.extract_of_valid]
  · simp [htext', String.append_assoc]
  · simpa using hplace

theorem ScanError.standsIn_of_split {before after : List Char}
    (htext : text.toList = before.reverse ++ after) (hafter : after ≠ [])
    (hplace : place.IsEndOf before.reverse) :
    (⟨place, Lexer.excerpt before after⟩ : ScanError).StandsIn text := by
  refine ⟨?_, before.reverse, after, _, _, ?_, hplace, longest_ending before 8,
    longest_beginning after 16, rfl⟩
  · have hpos : String.utf8Len after ≠ 0 := by simpa using hafter
    rw [← String.utf8Len_toList, htext, hplace.offset, String.utf8Len_append]
    omega
  · rw [← htext, String.ofList_toList]

namespace Lexer

variable {ρ : Type} [Regex.Engine ρ]

/-- One token, and what the scan finds from its second character on. -/
theorem scanFrom_cons {l : Lexer ρ} {e : LexerEntry ρ} {n : Nat} {before rest : List Char}
    {c : Char} (h : l.winner? (c :: rest) = some (e, n)) :
    l.scanFrom 0 before place (c :: rest) =
      let later := l.scanFrom (n - 1) (c :: before) (place.step c) rest
      (⟨⟨e.kind, String.ofList ((c :: rest).take n), place⟩, e.channel⟩ :: later.1, later.2) := by
  rw [scanFrom, h]

/-- Character by character, the place stays the one behind the text that was passed. -/
theorem scanFrom_places (l : Lexer ρ) {skip : Nat} {before rest : List Char}
    (htext : text.toList = before.reverse ++ rest) (hplace : place.IsEndOf before.reverse) :
    (∀ x ∈ (l.scanFrom skip before place rest).1, x.token.StandsIn text) ∧
      ∀ e ∈ (l.scanFrom skip before place rest).2, e.StandsIn text := by
  induction rest generalizing skip before place with
  | nil => simp
  | cons c rest ih =>
    have htext' : text.toList = (c :: before).reverse ++ rest := by simp [htext]
    have hplace' : (place.step c).IsEndOf (c :: before).reverse := by
      simpa using hplace.step c
    cases skip with
    | succ n => exact ih htext' hplace'
    | zero =>
      cases hwin : l.winner? (c :: rest) with
      | none =>
        rw [scanFrom_of_winner?_eq_none hwin]
        refine ⟨by simp, fun e he => ?_⟩
        obtain rfl := Option.some.inj he
        exact ScanError.standsIn_of_split htext (by simp) hplace
      | some found =>
        obtain ⟨e, n⟩ := found
        obtain ⟨hpos, hle⟩ := bounds_of_winner? hwin
        obtain ⟨htokens, herror⟩ := @ih _ (n - 1) _ htext' hplace'
        rw [scanFrom_cons hwin]
        refine ⟨List.forall_mem_cons.mpr ⟨?_, htokens⟩, herror⟩
        have hsplit : text.toList =
            before.reverse ++ (c :: rest).take n ++ (c :: rest).drop n := by
          rw [List.append_assoc, List.take_append_drop, htext]
        refine Token.standsIn_of_split hsplit ?_ hplace
        rw [← List.length_pos_iff, List.length_take]
        omega

theorem scan_places (l : Lexer ρ) (text : String) :
    (∀ x ∈ (l.scan text).1, x.token.StandsIn text) ∧ ∀ e ∈ (l.scan text).2, e.StandsIn text :=
  l.scanFrom_places rfl Place.isEndOf_start

theorem tokenize_of_scan {l : Lexer ρ} {found : List Lexeme} (h : l.scan text = (found, none)) :
    l.tokenize text = .ok (.ofLexemes found) := by
  rw [tokenize, h]

theorem tokenize_of_scan_error {l : Lexer ρ} {found : List Lexeme} {e : ScanError}
    (h : l.scan text = (found, some e)) : l.tokenize text = .error e := by
  rw [tokenize, h]

/-- A lexer finds every token at the place where its image stands in the text, and reports an error
at the place of a character, with the line around it. -/
theorem tokenize_places (l : Lexer ρ) (text : String) :
    match l.tokenize text with
    | .ok streams => ∀ t ∈ streams.main ++ streams.named.flatMap (·.2), t.StandsIn text
    | .error e => e.StandsIn text := by
  obtain ⟨htokens, herror⟩ := l.scan_places text
  cases hscan : l.scan text with
  | mk lexemes error =>
    rw [hscan] at htokens herror
    cases error with
    | some e =>
      rw [tokenize_of_scan_error hscan]
      exact herror e rfl
    | none =>
      rw [tokenize_of_scan hscan]
      intro t ht
      obtain ⟨x, hx, rfl, -⟩ := (TokenStreams.routes_ofLexemes lexemes).exists_lexeme ht
      exact htokens x hx

end Lexer

end StrongLL
