import StrongLL.Lexer.Scan

/-!
# StrongLL.Lexer.Bounds

A winner takes at least one character and no more than the text has.
-/

namespace StrongLL

variable {ρ : Type} [Regex.Engine ρ]

theorem Recognizer.bounds_of_matchLength? {r : Recognizer ρ} {text : List Char} {n : Nat}
    (h : r.matchLength? text = some n) : 0 < n ∧ n ≤ text.length := by
  obtain ⟨h, hn⟩ := Option.filter_eq_some_iff.mp h
  refine ⟨by simpa using hn, ?_⟩
  cases r with
  | literal l =>
    dsimp only at h
    split at h
    · rename_i hl
      cases h
      exact (List.isPrefixOf_iff_prefix.mp hl).length_le
    · cases h
  | regex program => exact Regex.Engine.le_length h

theorem Lexer.bounds_of_winner? {l : Lexer ρ} {text : List Char} {e : LexerEntry ρ} {n : Nat}
    (h : l.winner? text = some (e, n)) : 0 < n ∧ n ≤ text.length := by
  rw [Lexer.winner?] at h
  split at h
  · cases h
  · rename_i e' n' he
    obtain ⟨x, _, hx⟩ := List.exists_of_findSome?_eq_some he
    obtain ⟨k, hk, heq⟩ := Option.map_eq_some_iff.mp hx
    cases heq
    have hfirst := Recognizer.bounds_of_matchLength? hk
    split at h
    · cases h
      exact hfirst
    · split at h
      · cases h
        exact hfirst
      · rename_i alt _ k halt
        split at h
        · cases h
          exact Recognizer.bounds_of_matchLength? halt
        · cases h
          exact hfirst

end StrongLL
