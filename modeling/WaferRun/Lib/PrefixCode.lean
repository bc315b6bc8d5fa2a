import Mathlib.Data.List.Basic

/-!
# Codes that are read from the front

Each symbol is written as a word, and no word begins another. The words then say what the symbols
are, and where they end, if a mark follows that no word begins with (`append_mark_inj`).
-/

open List

/-- The first word of a text is the word of one symbol, and no word begins with `mark`. -/
structure PrefixCode {α β : Type*} (code : α → List β) (mark : β) : Prop where
  first : ∀ {a b s t}, code a ++ s = code b ++ t → a = b
  begins : ∀ a, ∃ b w, code a = b :: w ∧ b ≠ mark

namespace PrefixCode

variable {α β : Type*} {code : α → List β} {mark : β} {s t : List α} {u v : List β}

/-- **The text before the mark.** -/
theorem append_mark_inj (hcode : PrefixCode code mark)
    (h : s.flatMap code ++ mark :: u = t.flatMap code ++ mark :: v) : s = t ∧ u = v := by
  have hmark : ∀ a w w', code a ++ w ≠ mark :: w' := by
    intro a w w' heq
    obtain ⟨b, x, hword, hne⟩ := hcode.begins a
    rw [hword, cons_append] at heq
    exact hne (cons.inj heq).1
  induction s generalizing t with
  | nil =>
    rcases t with _ | ⟨b, t⟩
    · exact ⟨rfl, (cons.inj h).2⟩
    · rw [flatMap_cons, append_assoc] at h
      exact absurd h.symm (hmark _ _ _)
  | cons a s ih =>
    rcases t with _ | ⟨b, t⟩
    · rw [flatMap_cons, append_assoc] at h
      exact absurd h (hmark _ _ _)
    · rw [flatMap_cons, flatMap_cons, append_assoc, append_assoc] at h
      obtain rfl := hcode.first h
      obtain ⟨rfl, huv⟩ := ih (append_cancel_left h)
      exact ⟨rfl, huv⟩

theorem flatMap_injective (hcode : PrefixCode code mark) :
    Function.Injective fun s : List α ↦ s.flatMap code := by
  intro s t h
  exact (hcode.append_mark_inj (congrArg (· ++ [mark]) h)).1

end PrefixCode
