import Mathlib.Data.Finset.Card

/-!
# Nested levels with a depth that can start again

A stack of levels, the innermost first. A level is either one deeper than the level around it, or it
starts again at depth zero and takes a token for as long as it lasts. If no depth exceeds `m` and no
token is taken twice, the height of the stack is bounded, although the depth is reset over and over
(`Nested.length_le`).
-/

open List

namespace Nesting

variable {α τ : Type*} {depth : α → ℕ} {token : α → Option τ}

/-- How the levels of a stack lie in one another. -/
inductive Nested (depth : α → ℕ) (token : α → Option τ) : List α → Prop
  | base {a : α} (htoken : token a = none) : Nested depth token [a]
  | deeper {a b : α} {l : List α} (htoken : token a = none) (hdepth : depth a = depth b + 1)
      (h : Nested depth token (b :: l)) : Nested depth token (a :: b :: l)
  | restart {a b : α} {l : List α} {t : τ} (htoken : token a = some t) (hdepth : depth a = 0)
      (h : Nested depth token (b :: l)) : Nested depth token (a :: b :: l)

theorem Nested.length_le_tokens {m : ℕ} {a : α} {l : List α} (h : Nested depth token (a :: l))
    (hdepth : ∀ b ∈ a :: l, depth b ≤ m) :
    (a :: l).length ≤ 1 + depth a + (m + 1) * ((a :: l).filterMap token).length := by
  induction l generalizing a with
  | nil =>
    rw [length_singleton]
    omega
  | cons b l ih =>
    have hrest : ∀ c ∈ b :: l, depth c ≤ m := fun c hc ↦ hdepth c (mem_cons_of_mem a hc)
    have hb : depth b ≤ m := hrest b mem_cons_self
    rcases h with - | ⟨htoken, hda, h⟩ | ⟨htoken, hda, h⟩
    · have hlen := ih h hrest
      rw [filterMap_cons_none htoken, length_cons]
      omega
    · have hlen := ih h hrest
      have hcons : (a :: b :: l).length = (b :: l).length + 1 := rfl
      rw [filterMap_cons_some htoken, hcons, length_cons, length_cons, Nat.mul_succ]
      rw [length_cons] at hlen
      omega

/-- **The height of a stack is bounded.** -/
theorem Nested.length_le {m : ℕ} {tokens : Finset τ} {l : List α} (h : Nested depth token l)
    (hdepth : ∀ a ∈ l, depth a ≤ m) (hnodup : (l.filterMap token).Nodup)
    (htokens : ∀ t ∈ l.filterMap token, t ∈ tokens) :
    l.length ≤ 1 + m + (m + 1) * tokens.card := by
  classical
  rcases l with - | ⟨a, l⟩
  · exact Nat.zero_le _
  have hcard : ((a :: l).filterMap token).length ≤ tokens.card := by
    rw [← toFinset_card_of_nodup hnodup]
    exact Finset.card_le_card fun t ht ↦ htokens t (mem_toFinset.mp ht)
  have hlen := h.length_le_tokens hdepth
  have hmul := Nat.mul_le_mul_left (m + 1) hcard
  have ha := hdepth a mem_cons_self
  omega

end Nesting
