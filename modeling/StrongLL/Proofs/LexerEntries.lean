import Mathlib.Data.String.Basic
import StrongLL.Lexer.Bounds

/-!
# StrongLL.Proofs.LexerEntries

What the entries of a lexer stand for:

* `Pattern.Matches`    — what a pattern matches at the start of a text.
* `Vocabulary.Takes`   — what is taken there by a list of types.
* `Lexer.IsOf`         — the entries are the listed types with a pattern, in the order of the list.
* `Lexer.isOf_of_build` — so they are whenever a lexer is built.
* `Lexer.IsOf.takes_iff` — the winner among the entries is what the types take.
-/

namespace StrongLL

namespace Pattern

/-- The `image` is what a pattern matches at the start of a text. A match of no characters counts as
none. -/
def Matches (ρ : Type) [Regex.Engine ρ] (text image : List Char) : Pattern → Prop
  | category => False
  | literal l => image ≠ [] ∧ image = l.toList ∧ image <+: text
  | regex source => image ≠ [] ∧ ∃ program n, Lexer.program? ρ source = some program ∧
      Regex.Engine.matchEnd? program text = some n ∧ image = text.take n

end Pattern

namespace Vocabulary

variable {v : Vocabulary} {order : List TypeId} {text : List Char}

def Matches (ρ : Type) [Regex.Engine ρ] (v : Vocabulary) (id : TypeId) (text image : List Char) :
    Prop :=
  ∃ t, v.get? id = some t ∧ t.pattern.Matches ρ text image

/-- The declared longer alternative of a type. -/
def longerAlt? (v : Vocabulary) (id : TypeId) : Option TypeId := (v.get? id).bind (·.longerAlt)

/-- The type is declared with a pattern. -/
def isMatchable (v : Vocabulary) (id : TypeId) : Bool := (v.get? id).any (·.pattern.isMatchable)

/-- The type is the first of the list that matches anything. -/
def FirstMatch (ρ : Type) [Regex.Engine ρ] (v : Vocabulary) (order : List TypeId)
    (text : List Char) (id : TypeId) (image : List Char) : Prop :=
  v.Matches ρ id text image ∧ ∃ before after, order = before ++ id :: after ∧
    ∀ other ∈ before, ∀ image, ¬ v.Matches ρ other text image

/-- What the start of a text is taken for: the match of the first type that has one, unless the
longer alternative of this type matches more bytes. -/
inductive Takes (ρ : Type) [Regex.Engine ρ] (v : Vocabulary) (order : List TypeId)
    (text : List Char) : TypeId → List Char → Prop where
  | first {id : TypeId} {image : List Char} :
      v.FirstMatch ρ order text id image →
      (∀ alt longer, v.longerAlt? id = some alt → v.Matches ρ alt text longer →
        String.utf8Len longer ≤ String.utf8Len image) → Takes ρ v order text id image
  | longer {id alt : TypeId} {image longer : List Char} :
      v.FirstMatch ρ order text id image → v.longerAlt? id = some alt →
      v.Matches ρ alt text longer → String.utf8Len image < String.utf8Len longer →
      Takes ρ v order text alt longer

end Vocabulary

variable {ρ : Type} [Regex.Engine ρ]

/-! ## Patterns -/

namespace Pattern

variable {pattern : Pattern} {text image image' : List Char}

theorem Matches.ne_nil (h : pattern.Matches ρ text image) : image ≠ [] := by
  cases pattern with
  | category => exact h.elim
  | literal l => exact h.1
  | regex source => exact h.1

theorem Matches.isPrefix (h : pattern.Matches ρ text image) : image <+: text := by
  cases pattern with
  | category => exact h.elim
  | literal l => exact h.2.2
  | regex source =>
    obtain ⟨-, program, n, -, -, rfl⟩ := h
    exact List.take_prefix n text

theorem Matches.isMatchable (h : pattern.Matches ρ text image) : pattern.isMatchable = true := by
  cases pattern with
  | category => exact h.elim
  | literal l => rfl
  | regex source => rfl

theorem Matches.unique (h : pattern.Matches ρ text image) (h' : pattern.Matches ρ text image') :
    image = image' := by
  cases pattern with
  | category => exact h.elim
  | literal l => exact h.2.1.trans h'.2.1.symm
  | regex source =>
    obtain ⟨-, program, n, hprogram, hn, rfl⟩ := h
    obtain ⟨-, program', n', hprogram', hn', rfl⟩ := h'
    obtain rfl : program = program' := Option.some.inj (hprogram.symm.trans hprogram')
    obtain rfl : n = n' := Option.some.inj (hn.symm.trans hn')
    rfl

end Pattern

/-! ## Recognizers -/

theorem Recognizer.matchLength?_literal {l text : List Char} {n : Nat} :
    (literal l : Recognizer ρ).matchLength? text = some n ↔ l <+: text ∧ n = l.length ∧ 0 < n := by
  unfold matchLength?
  rw [Option.filter_eq_some_iff]
  by_cases hl : l.isPrefixOf text = true
  · have := List.isPrefixOf_iff_prefix.mp hl
    simp [hl, this, eq_comm]
  · have hl' : ¬ l <+: text := fun h => hl (List.isPrefixOf_iff_prefix.mpr h)
    simp [hl, hl']

/-- A recognizer matches what its pattern does. -/
theorem Lexer.matches_iff_of_recognizer? {id : TypeId} {pattern : Pattern}
    {found : Option (Recognizer ρ)} (h : Lexer.recognizer? ρ id pattern = .ok found)
    {text image : List Char} :
    pattern.Matches ρ text image ↔
      ∃ r n, found = some r ∧ r.matchLength? text = some n ∧ image = text.take n := by
  unfold Lexer.recognizer? at h
  cases pattern with
  | category =>
    cases h
    simp [Pattern.Matches]
  | literal l =>
    dsimp only at h
    split at h
    · cases h
    · cases h
      constructor
      · intro hm
        obtain ⟨hne, rfl, hpre⟩ := hm
        refine ⟨_, l.toList.length, rfl, Recognizer.matchLength?_literal.mpr ⟨hpre, rfl, ?_⟩,
          List.prefix_iff_eq_take.mp hpre⟩
        exact List.length_pos_iff.mpr hne
      · intro hm
        obtain ⟨_, n, hr, hn, rfl⟩ := hm
        cases hr
        obtain ⟨hpre, rfl, hpos⟩ := Recognizer.matchLength?_literal.mp hn
        rw [← List.prefix_iff_eq_take.mp hpre]
        exact ⟨List.length_pos_iff.mp hpos, rfl, hpre⟩
  | regex source =>
    dsimp only at h
    cases hcompile : Lexer.program? ρ source with
    | none =>
      rw [hcompile] at h
      cases h
    | some program =>
      rw [hcompile] at h
      dsimp only at h
      split at h
      · cases h
      · cases h
        constructor
        · intro hm
          obtain ⟨hne, program', n, hprogram, hn, rfl⟩ := hm
          obtain rfl : program = program' := Option.some.inj (hcompile.symm.trans hprogram)
          have hpos : 0 < n := Nat.pos_of_ne_zero fun hzero => hne (by simp [hzero])
          refine ⟨_, n, rfl, ?_, rfl⟩
          exact Option.filter_eq_some_iff.mpr ⟨hn, decide_eq_true hpos⟩
        · intro hm
          obtain ⟨_, n, hr, hn, rfl⟩ := hm
          cases hr
          obtain ⟨hpos, hle⟩ := Recognizer.bounds_of_matchLength? hn
          refine ⟨?_, program, n, hcompile, (Option.filter_eq_some_iff.mp hn).1, rfl⟩
          rw [← List.length_pos_iff, List.length_take]
          omega

namespace Vocabulary

variable {v : Vocabulary} {order : List TypeId} {text image image' : List Char} {id id' : TypeId}

theorem Matches.ne_nil (h : v.Matches ρ id text image) : image ≠ [] :=
  let ⟨_, _, hm⟩ := h
  hm.ne_nil

theorem Matches.isPrefix (h : v.Matches ρ id text image) : image <+: text :=
  let ⟨_, _, hm⟩ := h
  hm.isPrefix

theorem Matches.isMatchable (h : v.Matches ρ id text image) : v.isMatchable id = true := by
  obtain ⟨t, ht, hm⟩ := h
  rw [Vocabulary.isMatchable, ht, Option.any_some]
  exact hm.isMatchable

/-- A type matches one thing at the most. -/
theorem Matches.unique (h : v.Matches ρ id text image) (h' : v.Matches ρ id text image') :
    image = image' := by
  obtain ⟨t, ht, hm⟩ := h
  obtain ⟨t', ht', hm'⟩ := h'
  obtain rfl : t = t' := Option.some.inj (ht.symm.trans ht')
  exact hm.unique hm'

/-- What stands before the first type that matches does not reach another one. -/
theorem FirstMatch.not_before {before after before' after' : List TypeId}
    (heq : before ++ id :: after = before' ++ id' :: after')
    (hm : v.Matches ρ id text image)
    (hbefore' : ∀ other ∈ before', ∀ image, ¬ v.Matches ρ other text image)
    {middle : List TypeId} (hmiddle : before' = before ++ middle) : id = id' := by
  subst hmiddle
  rw [List.append_assoc] at heq
  cases middle with
  | nil => exact (List.cons.inj (List.append_cancel_left heq)).1
  | cons x middle =>
    obtain rfl : id = x := (List.cons.inj (List.append_cancel_left heq)).1
    exact absurd hm (hbefore' id (by simp) image)

theorem FirstMatch.unique (h : v.FirstMatch ρ order text id image)
    (h' : v.FirstMatch ρ order text id' image') : id = id' ∧ image = image' := by
  obtain ⟨hm, before, after, rfl, hbefore⟩ := h
  obtain ⟨hm', before', after', heq, hbefore'⟩ := h'
  have hid : id = id' := by
    obtain ⟨middle, hmiddle, -⟩ | ⟨middle, hmiddle, -⟩ := List.append_eq_append_iff.mp heq
    · exact FirstMatch.not_before heq hm hbefore' hmiddle
    · exact (FirstMatch.not_before heq.symm hm' hbefore hmiddle).symm
  subst hid
  exact ⟨rfl, hm.unique hm'⟩

theorem Takes.unique (h : v.Takes ρ order text id image) (h' : v.Takes ρ order text id' image') :
    id = id' ∧ image = image' := by
  cases h with
  | first hfirst hnone =>
    cases h' with
    | first hfirst' _ => exact hfirst.unique hfirst'
    | longer hfirst' halt hm hlt =>
      obtain ⟨rfl, rfl⟩ := hfirst.unique hfirst'
      have := hnone _ _ halt hm
      omega
  | longer hfirst halt hm hlt =>
    cases h' with
    | first hfirst' hnone =>
      obtain ⟨rfl, rfl⟩ := hfirst.unique hfirst'
      have := hnone _ _ halt hm
      omega
    | longer hfirst' halt' hm' _ =>
      obtain ⟨rfl, rfl⟩ := hfirst.unique hfirst'
      obtain rfl := Option.some.inj (halt.symm.trans halt')
      exact ⟨rfl, hm.unique hm'⟩

/-- What is taken is matched by the type it is taken for. -/
theorem Takes.matches (h : v.Takes ρ order text id image) : v.Matches ρ id text image := by
  cases h with
  | first hfirst _ => exact hfirst.1
  | longer _ _ hm _ => exact hm

theorem Takes.exists_match (h : v.Takes ρ order text id image) :
    ∃ id ∈ order, ∃ image, v.Matches ρ id text image := by
  obtain ⟨id, image, hm, before, after, rfl, -⟩ :
      ∃ id image, v.FirstMatch ρ order text id image := by
    cases h with
    | first hfirst _ => exact ⟨_, _, hfirst⟩
    | longer hfirst _ _ _ => exact ⟨_, _, hfirst⟩
  exact ⟨id, by simp, image, hm⟩

end Vocabulary

/-- Of two beginnings of a text, the one with more characters has more bytes. -/
theorem utf8Len_take_lt_iff {text : List Char} {n k : Nat} (hk : k ≤ text.length) :
    String.utf8Len (text.take n) < String.utf8Len (text.take k) ↔ n < k := by
  constructor
  · intro h
    by_contra hle
    have hpre : text.take k <+: text.take n := List.take_prefix_take_left (by omega)
    have := String.utf8Len_le_of_prefix hpre
    omega
  · intro h
    have hsplit : text.take k = text.take n ++ (text.drop n).take (k - n) := by
      rw [← List.take_add]
      congr 1
      omega
    have hne : (text.drop n).take (k - n) ≠ [] := by
      rw [← List.length_pos_iff, List.length_take, List.length_drop]
      omega
    have hpos : String.utf8Len ((text.drop n).take (k - n)) ≠ 0 := by simpa using hne
    rw [hsplit, String.utf8Len_append]
    omega

/-! ## Entries -/

namespace Lexer

variable {v : Vocabulary} {order : List TypeId} {l : Lexer ρ}

/-- The entry has the pattern and the channel of its type. -/
def IsEntry (v : Vocabulary) (e : LexerEntry ρ) : Prop :=
  ∃ t, v.get? e.kind = some t ∧ recognizer? ρ e.kind t.pattern = .ok (some e.recognizer) ∧
    e.channel = t.channel

theorem IsEntry.matches_iff {e : LexerEntry ρ} (h : IsEntry v e) {text image : List Char} :
    v.Matches ρ e.kind text image ↔
      ∃ n, e.recognizer.matchLength? text = some n ∧ image = text.take n := by
  obtain ⟨t, ht, hr, -⟩ := h
  have hiff := @matches_iff_of_recognizer? ρ _ _ _ _ hr text image
  constructor
  · intro hm
    obtain ⟨t', ht', hm⟩ := hm
    obtain rfl : t = t' := Option.some.inj (ht.symm.trans ht')
    obtain ⟨r, n, hr, hn, rfl⟩ := hiff.mp hm
    cases hr
    exact ⟨n, hn, rfl⟩
  · intro hm
    obtain ⟨n, hn, rfl⟩ := hm
    exact ⟨t, ht, hiff.mpr ⟨_, n, rfl, hn, rfl⟩⟩

/-- A recognizer is made of a pattern only if the pattern is not that of a category. -/
theorem isMatchable_of_recognizer? {id : TypeId} {pattern : Pattern} {found : Option (Recognizer ρ)}
    (h : recognizer? ρ id pattern = .ok found) : found.isSome = pattern.isMatchable := by
  unfold recognizer? at h
  cases pattern with
  | category =>
    cases h
    rfl
  | literal l =>
    dsimp only at h
    split at h
    · cases h
    · cases h
      rfl
  | regex source =>
    dsimp only at h
    split at h
    · cases h
    · split at h
      · cases h
      · cases h
        rfl

/-- What ends well began well and went on well. -/
theorem exists_of_bind {ε α β : Type} {x : Except ε α} {f : α → Except ε β} {b : β}
    (h : x >>= f = .ok b) : ∃ a, x = .ok a ∧ f a = .ok b := by
  cases x with
  | error e => cases h
  | ok a => exact ⟨a, rfl, h⟩

/-- The entries are those of the types with a pattern, in the order of the list. -/
theorem compile_spec {es : List (LexerEntry ρ)} (h : compile ρ v order = .ok es) :
    es.map (·.kind) = order.filter v.isMatchable ∧ ∀ e ∈ es, IsEntry v e := by
  induction order generalizing es with
  | nil =>
    cases h
    simp
  | cons id rest ih =>
    rw [compile] at h
    cases ht : v.get? id with
    | none =>
      rw [ht] at h
      have hid : v.isMatchable id = false := by simp [Vocabulary.isMatchable, ht]
      obtain ⟨hkinds, hes⟩ := ih h
      exact ⟨by rw [hkinds, List.filter_cons_of_neg (by simp [hid])], hes⟩
    | some t =>
      rw [ht] at h
      obtain ⟨found, hr, h⟩ := exists_of_bind h
      have hid : v.isMatchable id = found.isSome := by
        simp [Vocabulary.isMatchable, ht, isMatchable_of_recognizer? hr]
      cases found with
      | none =>
        obtain ⟨hkinds, hes⟩ := ih h
        exact ⟨by rw [hkinds, List.filter_cons_of_neg (by simp [hid])], hes⟩
      | some r =>
        obtain ⟨others, hrest, h⟩ := exists_of_bind h
        cases h
        obtain ⟨hkinds, hes⟩ := ih hrest
        refine ⟨by rw [List.map_cons, hkinds, List.filter_cons_of_pos (by simp [hid])], ?_⟩
        intro e he
        obtain rfl | he := List.mem_cons.mp he
        · exact ⟨t, ht, hr, rfl⟩
        · exact hes e he

/-- An entry with its longer alternative. -/
structure Resolved (v : Vocabulary) (order kinds : List TypeId) (e e' : LexerEntry ρ) : Prop where
  rest : e' = { e with longerAlt := e'.longerAlt }
  longerAlt : longerAlt? v order kinds e.kind = .ok e'.longerAlt

omit [Regex.Engine ρ] in
theorem resolve_spec {kinds : List TypeId} {es es' : List (LexerEntry ρ)}
    (h : resolve v order kinds es = .ok es') :
    es'.map (·.kind) = es.map (·.kind) ∧ ∀ e' ∈ es', ∃ e ∈ es, Resolved v order kinds e e' := by
  induction es generalizing es' with
  | nil =>
    cases h
    simp
  | cons e rest ih =>
    rw [resolve] at h
    obtain ⟨alt, halt, h⟩ := exists_of_bind h
    obtain ⟨others, hrest, h⟩ := exists_of_bind h
    cases h
    obtain ⟨hkinds, hothers⟩ := ih hrest
    refine ⟨by rw [List.map_cons, List.map_cons, hkinds], ?_⟩
    intro e' he'
    obtain rfl | he' := List.mem_cons.mp he'
    · exact ⟨e, by simp, rfl, halt⟩
    · obtain ⟨x, hx, hr⟩ := hothers e' he'
      exact ⟨x, by simp [hx], hr⟩

/-- The position is that of the first entry of the declared alternative. -/
theorem longerAlt?_eq_ok {kinds : List TypeId} {id : TypeId} {found : Option Nat}
    (h : longerAlt? v order kinds id = .ok found) :
    (v.longerAlt? id = none ∧ found = none) ∨
      ∃ alt i, v.longerAlt? id = some alt ∧ found = some i ∧ kinds[i]? = some alt := by
  unfold longerAlt? at h
  show ((v.get? id).bind (·.longerAlt) = none ∧ _) ∨
    ∃ alt i, (v.get? id).bind (·.longerAlt) = some alt ∧ _
  cases hdeclared : (v.get? id).bind (·.longerAlt) with
  | none =>
    rw [hdeclared] at h
    cases h
    exact .inl ⟨rfl, rfl⟩
  | some alt =>
    rw [hdeclared] at h
    dsimp only at h
    split at h
    · cases h
    · cases hi : kinds.idxOf? alt with
      | none =>
        rw [hi] at h
        cases h
      | some i =>
        rw [hi] at h
        cases h
        obtain ⟨hlt, halt, -⟩ := List.idxOf?_eq_some_iff.mp hi
        exact .inr ⟨alt, i, rfl, rfl, by rw [List.getElem?_eq_getElem hlt, halt]⟩

/-- The entries of the lexer are those of the listed types with a pattern, and the position of a
longer alternative leads to the entry of the declared one. -/
structure IsOf (l : Lexer ρ) (v : Vocabulary) (order : List TypeId) : Prop where
  entries : ∀ e ∈ l.entries, IsEntry v e
  kinds : l.entries.map (·.kind) = order.filter v.isMatchable
  longerAlt : ∀ e ∈ l.entries, (e.longerAlt.bind (l.entries[·]?)).map (·.kind) = v.longerAlt? e.kind

theorem isOf_of_resolved {es es' : List (LexerEntry ρ)} (hcompile : compile ρ v order = .ok es)
    (hresolve : resolve v order (es.map (·.kind)) es = .ok es') : IsOf ⟨v, es'⟩ v order := by
  obtain ⟨hkinds, hentries⟩ := compile_spec hcompile
  obtain ⟨hsame, hresolved⟩ := resolve_spec hresolve
  constructor
  · intro e' he'
    obtain ⟨e, he, hr⟩ := hresolved e' he'
    obtain ⟨t, ht, hrecognizer, hchannel⟩ := hentries e he
    rw [hr.rest]
    exact ⟨t, ht, hrecognizer, hchannel⟩
  · exact hsame.trans hkinds
  · intro e' he'
    obtain ⟨e, he, hr⟩ := hresolved e' he'
    have hkind : e'.kind = e.kind := by rw [hr.rest]
    rw [hkind]
    obtain ⟨hnone, hfound⟩ | ⟨alt, i, halt, hfound, hi⟩ := longerAlt?_eq_ok hr.longerAlt
    · rw [hnone, hfound]
      rfl
    · rw [halt, hfound, Option.bind_some, ← List.getElem?_map, hsame, hi]

/-- A lexer is built by compiling the patterns and then resolving the longer alternatives. -/
theorem exists_of_build (h : build v order ρ = .ok l) : l.vocabulary = v ∧ ∃ es,
    compile ρ v order = .ok es ∧ resolve v order (es.map (·.kind)) es = .ok l.entries := by
  unfold build at h
  obtain ⟨_, -, h⟩ := exists_of_bind h
  obtain ⟨es, hcompile, h⟩ := exists_of_bind h
  obtain ⟨es', hresolve, h⟩ := exists_of_bind h
  cases h
  exact ⟨rfl, es, hcompile, hresolve⟩

theorem isOf_of_build (h : build v order ρ = .ok l) : l.IsOf v order := by
  obtain ⟨rfl, es, hcompile, hresolve⟩ := exists_of_build h
  exact isOf_of_resolved hcompile hresolve

/-! ## The winner -/

variable {text : List Char}

/-- The first entry with a match is that of the first type with one. -/
theorem IsOf.firstMatch (h : l.IsOf v order) {before after : List (LexerEntry ρ)} {e : LexerEntry ρ}
    (hl : l.entries = before ++ e :: after) {n : Nat}
    (hn : e.recognizer.matchLength? text = some n)
    (hbefore : ∀ b ∈ before, b.recognizer.matchLength? text = none) :
    v.FirstMatch ρ order text e.kind (text.take n) := by
  refine ⟨(h.entries e (by simp [hl])).matches_iff.mpr ⟨n, hn, rfl⟩, ?_⟩
  have hkinds := h.kinds
  rw [hl, List.map_append, List.map_cons, eq_comm, List.filter_eq_append_iff] at hkinds
  obtain ⟨front, back, rfl, hfront, hback⟩ := hkinds
  obtain ⟨skipped, rest, rfl, hskipped, -, -⟩ := List.filter_eq_cons_iff.mp hback
  refine ⟨front ++ skipped, rest, by simp, ?_⟩
  intro other hother image hm
  have hmatchable := hm.isMatchable
  obtain hother | hother := List.mem_append.mp hother
  · have hkind : other ∈ before.map (·.kind) := by
      rw [← hfront]
      exact List.mem_filter.mpr ⟨hother, hmatchable⟩
    obtain ⟨b, hb, rfl⟩ := List.mem_map.mp hkind
    obtain ⟨m, hm, -⟩ := (h.entries b (by simp [hl, hb])).matches_iff.mp hm
    rw [hbefore b hb] at hm
    cases hm
  · exact hskipped other hother hmatchable

/-- The winner is the first entry with a match, or its longer alternative with a longer one. -/
theorem exists_of_winner? {e : LexerEntry ρ} {n : Nat} (h : l.winner? text = some (e, n)) :
    ∃ before first after k, l.entries = before ++ first :: after ∧
      first.recognizer.matchLength? text = some k ∧
      (∀ b ∈ before, b.recognizer.matchLength? text = none) ∧
      ((e = first ∧ n = k ∧ ∀ alt m, first.longerAlt.bind (l.entries[·]?) = some alt →
          alt.recognizer.matchLength? text = some m → m ≤ k) ∨
        (first.longerAlt.bind (l.entries[·]?) = some e ∧
          e.recognizer.matchLength? text = some n ∧ k < n)) := by
  rw [winner?] at h
  split at h
  · cases h
  · rename_i first k hfound
    obtain ⟨before, x, after, hl, hx, hbefore⟩ := List.findSome?_eq_some_iff.mp hfound
    obtain ⟨k', hk, heq⟩ := Option.map_eq_some_iff.mp hx
    obtain ⟨rfl, rfl⟩ : x = first ∧ k' = k := by simpa using heq
    refine ⟨before, x, after, k', hl, hk, fun b hb => Option.map_eq_none_iff.mp (hbefore b hb), ?_⟩
    split at h
    · rename_i hnone
      cases h
      exact .inl ⟨rfl, rfl, fun alt m halt => by cases hnone.symm.trans halt⟩
    · rename_i alt halt
      split at h
      · rename_i hnone
        cases h
        refine .inl ⟨rfl, rfl, fun alt' m halt' hm => ?_⟩
        cases halt.symm.trans halt'
        cases hnone.symm.trans hm
      · rename_i m hm
        split at h
        · rename_i hlt
          cases h
          exact .inr ⟨halt, hm, hlt⟩
        · rename_i hle
          cases h
          refine .inl ⟨rfl, rfl, fun alt' m' halt' hm' => ?_⟩
          cases halt.symm.trans halt'
          cases hm.symm.trans hm'
          omega

theorem mem_of_winner? {e : LexerEntry ρ} {n : Nat} (h : l.winner? text = some (e, n)) :
    e ∈ l.entries := by
  obtain ⟨before, first, after, k, hl, -, -, ⟨rfl, -⟩ | ⟨halt, -⟩⟩ := exists_of_winner? h
  · simp [hl]
  · obtain ⟨i, -, hi⟩ := Option.bind_eq_some_iff.mp halt
    exact List.mem_of_getElem? hi

/-- The entry that wins is what is taken. -/
theorem IsOf.takes_of_winner? (h : l.IsOf v order) {e : LexerEntry ρ} {n : Nat}
    (hwin : l.winner? text = some (e, n)) : v.Takes ρ order text e.kind (text.take n) := by
  obtain ⟨before, first, after, k, hl, hk, hbefore, hcases⟩ := exists_of_winner? hwin
  have hfirst := h.firstMatch hl hk hbefore
  have hdeclared := h.longerAlt first (by simp [hl])
  obtain ⟨rfl, rfl, hnone⟩ | ⟨halt, hn, hlt⟩ := hcases
  · refine .first hfirst fun alt longer hlongerAlt hm => ?_
    obtain ⟨entry, hentry, rfl⟩ := Option.map_eq_some_iff.mp (hdeclared.trans hlongerAlt)
    obtain ⟨i, -, hi⟩ := Option.bind_eq_some_iff.mp hentry
    obtain ⟨m, hlonger, rfl⟩ := (h.entries entry (List.mem_of_getElem? hi)).matches_iff.mp hm
    refine Nat.le_of_not_lt fun hlt => ?_
    have hlt := (utf8Len_take_lt_iff (Recognizer.bounds_of_matchLength? hlonger).2).mp hlt
    have := hnone entry m hentry hlonger
    omega
  · have hentry := h.entries e (mem_of_winner? hwin)
    rw [halt] at hdeclared
    refine .longer hfirst hdeclared.symm (hentry.matches_iff.mpr ⟨n, hn, rfl⟩) ?_
    exact (utf8Len_take_lt_iff (Recognizer.bounds_of_matchLength? hn).2).mpr hlt

/-- Where no entry wins, no listed type matches. -/
theorem IsOf.not_takes_of_winner? (h : l.IsOf v order) (hwin : l.winner? text = none)
    {id : TypeId} {image : List Char} : ¬ v.Takes ρ order text id image := by
  intro htakes
  obtain ⟨other, hother, image, hm⟩ := htakes.exists_match
  have hkind : other ∈ l.entries.map (·.kind) := by
    rw [h.kinds]
    exact List.mem_filter.mpr ⟨hother, hm.isMatchable⟩
  obtain ⟨e, he, rfl⟩ := List.mem_map.mp hkind
  obtain ⟨n, hn, -⟩ := (h.entries e he).matches_iff.mp hm
  rw [winner?] at hwin
  split at hwin
  · rename_i hnone
    have := List.findSome?_eq_none_iff.mp hnone e he
    simp [hn] at this
  · -- an entry that matches wins, or its longer alternative does
    split at hwin
    · cases hwin
    · split at hwin
      · cases hwin
      · split at hwin <;> cases hwin

theorem IsOf.takes_iff (h : l.IsOf v order) {id : TypeId} {image : List Char} :
    v.Takes ρ order text id image ↔
      ∃ e n, l.winner? text = some (e, n) ∧ e.kind = id ∧ image = text.take n := by
  constructor
  · intro htakes
    cases hwin : l.winner? text with
    | none => exact absurd htakes (h.not_takes_of_winner? hwin)
    | some found =>
      obtain ⟨e, n⟩ := found
      obtain ⟨rfl, rfl⟩ := htakes.unique (h.takes_of_winner? hwin)
      exact ⟨e, n, rfl, rfl, rfl⟩
  · intro hwin
    obtain ⟨e, n, hwin, rfl, rfl⟩ := hwin
    exact h.takes_of_winner? hwin

end Lexer

end StrongLL
