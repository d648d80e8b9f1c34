import StrongLL.Lexer.Basic

/-!
# StrongLL.Lexer.Scan

Cutting a text into tokens:

* `Lexer.winner?`  — the entry that takes the start of a text, and how much: the earliest entry
  with a match, or its longer alternative if that matches more.
* `Lexeme`         — a token with the channel it goes to.
* `TokenStreams`   — the tokens of the main channel and those of each named one.
* `Lexer.scan`     — all lexemes up to the end of the text or the first place without a winner.
* `Lexer.tokenize` — the token streams of a text, or the error at that place.
-/

namespace StrongLL

structure ScanError where
  place : Place
  /-- The text around the place, on its line. -/
  excerpt : String
deriving DecidableEq, Repr

namespace ScanError

def message (e : ScanError) : String :=
  s!"unexpected character at {e.place.line}:{e.place.column}: `{e.excerpt}`"

end ScanError

structure Lexeme where
  token : Token
  channel : Channel
deriving DecidableEq, Repr

structure TokenStreams where
  main : List Token
  /-- The named channels in order of their first tokens. -/
  named : List (String × List Token)
deriving DecidableEq, Repr

namespace TokenStreams

def ofLexemes (lexemes : List Lexeme) : TokenStreams where
  main := (lexemes.filter (·.channel = .main)).map (·.token)
  named :=
    (lexemes.filterMap channelName?).eraseDups.map fun name =>
      (name, (lexemes.filter (·.channel = .named name)).map (·.token))
where
  channelName? (l : Lexeme) : Option String :=
    match l.channel with
    | .named name => some name
    | .main | .skipped => none

end TokenStreams

namespace Lexer

variable {ρ : Type} [Regex.Engine ρ]

def winner? (l : Lexer ρ) (text : List Char) : Option (LexerEntry ρ × Nat) :=
  match l.entries.findSome? fun e => (e.recognizer.matchLength? text).map (e, ·) with
  | none => none
  | some (e, n) =>
    match e.longerAlt.bind (l.entries[·]?) with
    | none => some (e, n)
    | some alt =>
      match alt.recognizer.matchLength? text with
      | none => some (e, n)
      | some k => if n < k then some (alt, k) else some (e, n)

/-- How many characters of the line an excerpt shows before its place, and how many after it. -/
def excerptBefore : Nat := 8

def excerptAfter : Nat := 16

/-- The text around a place; `before` is the text in front of it, backwards. -/
def excerpt (before after : List Char) : String :=
  String.ofList
    (((before.takeWhile (· ≠ '\n')).take excerptBefore).reverse
      ++ (after.takeWhile (· ≠ '\n')).take excerptAfter)

/-- Scan from a place on. The first `skip` characters belong to the token before
the place. -/
def scanFrom (l : Lexer ρ) (skip : Nat) (before : List Char) (place : Place) :
    List Char → List Lexeme × Option ScanError
  | [] => ([], none)
  | c :: rest =>
    match skip with
    | n + 1 => scanFrom l n (c :: before) (place.step c) rest
    | 0 =>
      match l.winner? (c :: rest) with
      | none => ([], some ⟨place, excerpt before (c :: rest)⟩)
      | some (e, n) =>
        let image := String.ofList ((c :: rest).take n)
        let (lexemes, error) := scanFrom l (n - 1) (c :: before) (place.step c) rest
        (⟨⟨e.kind, image, place⟩, e.channel⟩ :: lexemes, error)

@[simp] theorem scanFrom_nil (l : Lexer ρ) (skip : Nat) (before : List Char) (place : Place) :
    l.scanFrom skip before place [] = ([], none) := by
  rw [scanFrom]

/-- The rest of a token is passed without a look at it. -/
theorem scanFrom_skip (l : Lexer ρ) (skip : Nat) (before : List Char) (place : Place)
    (text : List Char) :
    l.scanFrom skip before place text =
      l.scanFrom 0 ((text.take skip).reverse ++ before) (place.after (text.take skip))
        (text.drop skip) := by
  induction text generalizing skip before place with
  | nil => simp
  | cons c rest ih =>
    cases skip with
    | zero => rfl
    | succ n =>
      rw [scanFrom, ih]
      simp

theorem scanFrom_of_winner?_eq_none {l : Lexer ρ} {before : List Char} {place : Place}
    {c : Char} {rest : List Char} (h : l.winner? (c :: rest) = none) :
    l.scanFrom 0 before place (c :: rest) = ([], some ⟨place, excerpt before (c :: rest)⟩) := by
  rw [scanFrom, h]

/-- One token and the scan of the text after it. -/
theorem scanFrom_of_winner?_eq_some {l : Lexer ρ} {before : List Char} {place : Place}
    {text : List Char} {e : LexerEntry ρ} {n : Nat} (h : l.winner? text = some (e, n)) (hn : 0 < n)
    (ht : text ≠ []) :
    l.scanFrom 0 before place text =
      let (lexemes, error) := l.scanFrom 0 ((text.take n).reverse ++ before)
        (place.after (text.take n)) (text.drop n)
      (⟨⟨e.kind, String.ofList (text.take n), place⟩, e.channel⟩ :: lexemes, error) := by
  obtain ⟨n, rfl⟩ := Nat.exists_eq_add_one_of_ne_zero (Nat.ne_of_gt hn)
  cases text with
  | nil => exact absurd rfl ht
  | cons c rest =>
    rw [scanFrom, h]
    simp only [Nat.add_sub_cancel]
    rw [scanFrom_skip]
    simp

def scan (l : Lexer ρ) (text : String) : List Lexeme × Option ScanError :=
  l.scanFrom 0 [] .start text.toList

def tokenize (l : Lexer ρ) (text : String) : Except ScanError TokenStreams :=
  match l.scan text with
  | (_, some error) => .error error
  | (lexemes, none) => .ok (.ofLexemes lexemes)

/-- Reported for every token, those that are skipped and those before an error too. -/
def tokenEvent (v : Vocabulary) (t : Token) : Event :=
  ⟨.trace, s!"{v.name t.kind} `{t.image}` at {t.place.line}:{t.place.column}"⟩

def scanEvents (l : Lexer ρ) (text : String) : List Event :=
  (l.scan text).1.map fun lexeme => tokenEvent l.vocabulary lexeme.token

end Lexer

end StrongLL
