import Mathlib.Data.List.Infix

/-!
# Wildcard patterns

A pattern is a list of pieces: one stands for any text, the others for one character of a kind. The
pattern languages of databases and shells differ in how they spell the pieces, not in what the
pieces match, so a language is given by its reader alone.

A text is compared up to a folding of its characters. Literal pieces at the start of a pattern match
a prefix up to folding (`matchesAll_literal_append`).
-/

open List

namespace Wildcards

variable {α β : Type*}

/-- A piece of a pattern: any text, or one character of a kind. -/
inductive Piece (α : Type*)
  | many
  | one (accepts : α → Bool)

def matchesAll : List (Piece α) → List α → Bool
  | [], s => s.isEmpty
  | .many :: pattern, s => s.tails.any (matchesAll pattern)
  | .one _ :: _, [] => false
  | .one accepts :: pattern, c :: s => accepts c && matchesAll pattern s

def Piece.exactly [DecidableEq β] (fold : α → β) (c : α) : Piece α := .one fun d ↦ fold c = fold d

def literal [DecidableEq β] (fold : α → β) (w : List α) : List (Piece α) := w.map (.exactly fold)

theorem matchesAll_many_cons {pattern : List (Piece α)} {s : List α} :
    matchesAll (.many :: pattern) s = true ↔ ∃ v t, s = v ++ t ∧ matchesAll pattern t = true := by
  rw [matchesAll, any_eq_true]
  constructor
  · rintro ⟨t, ht, hmatches⟩
    obtain ⟨v, rfl⟩ := (mem_tails _ _).mp ht
    exact ⟨v, t, rfl, hmatches⟩
  · rintro ⟨v, t, rfl, hmatches⟩
    exact ⟨t, (mem_tails _ _).mpr (suffix_append v t), hmatches⟩

theorem matchesAll_many (s : List α) : matchesAll [.many] s = true :=
  matchesAll_many_cons.mpr ⟨s, [], (append_nil s).symm, rfl⟩

section Literal

variable [DecidableEq β] {fold : α → β}

theorem matchesAll_exactly_cons {c : α} {pattern : List (Piece α)} {s : List α} :
    matchesAll (.exactly fold c :: pattern) s = true ↔
      ∃ d t, s = d :: t ∧ fold d = fold c ∧ matchesAll pattern t = true := by
  rcases s with - | ⟨d, t⟩
  · constructor
    · intro h
      exact absurd h Bool.false_ne_true
    · rintro ⟨d, t, hnil, -⟩
      cases hnil
  · rw [Piece.exactly, matchesAll, Bool.and_eq_true, decide_eq_true_eq]
    constructor
    · rintro ⟨hc, hmatches⟩
      exact ⟨d, t, rfl, hc.symm, hmatches⟩
    · rintro ⟨d', t', heq, hc, hmatches⟩
      obtain ⟨rfl, rfl⟩ := cons.inj heq
      exact ⟨hc.symm, hmatches⟩

/-- Literal pieces match a text that is the same up to folding. -/
theorem matchesAll_literal_append {w : List α} {pattern : List (Piece α)} {s : List α} :
    matchesAll (literal fold w ++ pattern) s = true ↔
      ∃ v t, s = v ++ t ∧ v.map fold = w.map fold ∧ matchesAll pattern t = true := by
  induction w generalizing s with
  | nil =>
    constructor
    · intro h
      exact ⟨[], s, rfl, rfl, h⟩
    · rintro ⟨v, t, rfl, hv, h⟩
      rw [map_nil, map_eq_nil_iff] at hv
      subst hv
      exact h
  | cons c w ih =>
    have hcons : literal fold (c :: w) ++ pattern =
        .exactly fold c :: (literal fold w ++ pattern) := rfl
    rw [hcons, matchesAll_exactly_cons]
    constructor
    · rintro ⟨d, t, rfl, hd, h⟩
      obtain ⟨v, t, rfl, hv, h⟩ := ih.mp h
      exact ⟨d :: v, t, rfl, by rw [map_cons, map_cons, hd, hv], h⟩
    · rintro ⟨v, t, rfl, hv, h⟩
      rcases v with - | ⟨d, v⟩
      · cases hv
      · rw [map_cons, map_cons, List.cons.injEq] at hv
        exact ⟨d, v ++ t, rfl, hv.1, ih.mpr ⟨v, t, rfl, hv.2, h⟩⟩

theorem matchesAll_literal_many {w s : List α} :
    matchesAll (literal fold w ++ [.many]) s = true ↔ w.map fold <+: s.map fold := by
  rw [matchesAll_literal_append]
  constructor
  · rintro ⟨v, t, rfl, hv, -⟩
    rw [map_append, hv]
    exact prefix_append _ _
  · rintro ⟨u, hu⟩
    obtain ⟨v, t, rfl, hv, -⟩ := map_eq_append_iff.mp hu.symm
    exact ⟨v, t, rfl, hv, matchesAll_many t⟩

theorem matchesAll_many_literal_many {w s : List α} :
    matchesAll (.many :: (literal fold w ++ [.many])) s = true ↔ w.map fold <:+: s.map fold := by
  rw [matchesAll_many_cons]
  constructor
  · rintro ⟨v, t, rfl, h⟩
    rw [map_append]
    exact (matchesAll_literal_many.mp h).isInfix.trans (suffix_append _ _).isInfix
  · rintro ⟨u, u', hu⟩
    rw [append_assoc] at hu
    obtain ⟨v, t, rfl, -, ht⟩ := map_eq_append_iff.mp hu.symm
    exact ⟨v, t, rfl, matchesAll_literal_many.mpr (ht ▸ prefix_append _ _)⟩

theorem matchesAll_literal {w s : List α} :
    matchesAll (literal fold w) s = true ↔ s.map fold = w.map fold := by
  rw [← append_nil (literal fold w), matchesAll_literal_append]
  constructor
  · rintro ⟨v, t, rfl, hv, ht⟩
    rw [isEmpty_iff.mp ht, append_nil, hv]
  · exact fun h ↦ ⟨s, [], (append_nil s).symm, h, rfl⟩

theorem matchesAll_many_literal {w s : List α} :
    matchesAll (.many :: literal fold w) s = true ↔ w.map fold <:+ s.map fold := by
  rw [matchesAll_many_cons]
  constructor
  · rintro ⟨v, t, rfl, h⟩
    rw [map_append, matchesAll_literal.mp h]
    exact suffix_append _ _
  · rintro ⟨u, hu⟩
    obtain ⟨v, t, rfl, -, ht⟩ := map_eq_append_iff.mp hu.symm
    exact ⟨v, t, rfl, matchesAll_literal.mpr ht⟩

end Literal

end Wildcards
