import WaferRun.Lib.Text

/-!
# Globs

A glob is a text in which a star stands for any text. What it stands for as a whole is given by
replacing the stars (`Filled`), and it is found by looking for its literal pieces from left to right
(`scan`).

The search never goes back. It does not have to: it ends as early in the text as any way of
replacing the stars does (`exists_scan_of_spread`).
-/

open List

namespace Glob

open Text

variable {α : Type*}

/-- A text is the pattern with some text in the place of every star. -/
inductive Filled (star : α) : List α → List α → Prop
  | nil : Filled star [] []
  | star (w : List α) {pattern s : List α} (h : Filled star pattern s) :
      Filled star (star :: pattern) (w ++ s)
  | literal {c : α} {pattern s : List α} (hc : c ≠ star) (h : Filled star pattern s) :
      Filled star (c :: pattern) (c :: s)

/-- A text holds some pieces in order, with anything before each of them and nothing after the
last. -/
inductive Spread : List (List α) → List α → Prop
  | nil : Spread [] []
  | cons (w piece : List α) {pieces : List (List α)} {s : List α} (h : Spread pieces s) :
      Spread (piece :: pieces) (w ++ (piece ++ s))

theorem Spread.prepend {pieces : List (List α)} {s : List α} (h : Spread pieces s)
    (hne : pieces ≠ []) (w : List α) : Spread pieces (w ++ s) := by
  rcases h with _ | @⟨v, piece, pieces, s, h⟩
  · exact absurd rfl hne
  · rw [← append_assoc]
    exact .cons (w ++ v) piece h

theorem Spread.extend {pieces : List (List α)} {u : List α}
    (h : Spread (pieces ++ [[]]) u) (rest : List α) : Spread (pieces ++ [[]]) (u ++ rest) := by
  induction pieces generalizing u with
  | nil =>
    have hlast := Spread.cons (u ++ rest) [] (@Spread.nil α)
    rwa [append_nil, append_nil] at hlast
  | cons piece pieces ih =>
    rcases h with _ | @⟨w, _, _, u, h⟩
    have hext := Spread.cons w piece (ih h)
    rwa [← append_assoc, ← append_assoc, append_assoc w] at hext

theorem filled_star_cons {star : α} {pattern s : List α} :
    Filled star (star :: pattern) s ↔ ∃ w t, s = w ++ t ∧ Filled star pattern t := by
  constructor
  · rintro (_ | ⟨w, h⟩ | ⟨hc, -⟩)
    · exact ⟨w, _, rfl, h⟩
    · exact absurd rfl hc
  · rintro ⟨w, t, rfl, h⟩
    exact .star w h

theorem filled_literal_cons {star c : α} (hc : c ≠ star) {pattern s : List α} :
    Filled star (c :: pattern) s ↔ ∃ t, s = c :: t ∧ Filled star pattern t := by
  constructor
  · rintro (_ | ⟨w, h⟩ | ⟨-, h⟩)
    · exact absurd rfl hc
    · exact ⟨_, rfl, h⟩
  · rintro ⟨t, rfl, h⟩
    exact .literal hc h

variable [DecidableEq α]

/-- **Stars between pieces.** The first piece of a pattern opens the text, and the others are spread
over the rest. -/
theorem filled_iff {star : α} {pattern piece : List α} {pieces : List (List α)}
    (hpieces : pattern.splitOn star = piece :: pieces) {s : List α} :
    Filled star pattern s ↔ ∃ t, s = piece ++ t ∧ Spread pieces t := by
  induction pattern generalizing piece pieces s with
  | nil =>
    obtain ⟨rfl, rfl⟩ := cons.inj hpieces
    constructor
    · rintro ⟨⟩
      exact ⟨[], rfl, .nil⟩
    · rintro ⟨t, rfl, ⟨⟩⟩
      exact .nil
  | cons c pattern ih =>
    obtain ⟨q, qs, hq⟩ := exists_cons_of_ne_nil (splitOn_ne_nil star pattern)
    rw [splitOn_cons_eq_if_modifyHead] at hpieces
    by_cases hc : c = star
    · rw [if_pos (by simpa using hc), hq] at hpieces
      obtain ⟨rfl, rfl⟩ := cons.inj hpieces
      rw [hc, filled_star_cons]
      constructor
      · rintro ⟨w, t, rfl, h⟩
        obtain ⟨u, rfl, hu⟩ := (ih hq).mp h
        exact ⟨_, rfl, .cons w q hu⟩
      · rintro ⟨t, rfl, h⟩
        rcases h with _ | @⟨w, _, _, u, h⟩
        exact ⟨w, q ++ u, rfl, (ih hq).mpr ⟨u, rfl, h⟩⟩
    · rw [if_neg (by simpa using hc), hq, modifyHead_cons] at hpieces
      obtain ⟨rfl, rfl⟩ := cons.inj hpieces
      rw [filled_literal_cons hc]
      constructor
      · rintro ⟨t, rfl, h⟩
        obtain ⟨u, rfl, hu⟩ := (ih hq).mp h
        exact ⟨u, rfl, hu⟩
      · rintro ⟨t, rfl, h⟩
        exact ⟨q ++ t, rfl, (ih hq).mpr ⟨t, rfl, h⟩⟩

/-! ## The search -/

/-- Look for pieces in order, and return what follows the last of them. -/
def scan : List (List α) → List α → Option (List α)
  | [], s => some s
  | piece :: pieces, s => (splitOnce piece s).bind fun parts ↦ scan pieces parts.2

theorem exists_splitOnce_append (p a b : List α) :
    ∃ before after, splitOnce p (a ++ (p ++ b)) = some (before, after) ∧ b <:+ after := by
  induction a with
  | nil =>
    refine ⟨[], b, ?_, suffix_refl b⟩
    rw [nil_append, splitOnce_of_isPrefix (prefix_append p b), drop_left]
  | cons c a ih =>
    rw [cons_append]
    by_cases hp : p <+: c :: (a ++ (p ++ b))
    · refine ⟨[], _, splitOnce_of_isPrefix hp, ?_⟩
      have hsuffix : b <:+ c :: (a ++ (p ++ b)) := ⟨c :: (a ++ p), by simp⟩
      refine suffix_of_suffix_length_le hsuffix (drop_suffix _ _) ?_
      simp only [length_drop, length_cons, length_append]
      omega
    · obtain ⟨before, after, hsplit, hafter⟩ := ih
      refine ⟨c :: before, after, ?_, hafter⟩
      rw [splitOnce_cons_of_not_isPrefix hp, hsplit]
      rfl

theorem spread_of_scan {pieces : List (List α)} {s rest : List α} (h : scan pieces s = some rest) :
    ∃ u, s = u ++ rest ∧ Spread pieces u := by
  induction pieces generalizing s with
  | nil => exact ⟨[], Option.some.inj h, .nil⟩
  | cons piece pieces ih =>
    obtain ⟨⟨before, after⟩, hsplit, h⟩ := Option.bind_eq_some_iff.mp h
    obtain ⟨u, hu, hspread⟩ := ih h
    refine ⟨before ++ (piece ++ u), ?_, .cons before piece hspread⟩
    have hafter : after = u ++ rest := hu
    rw [eq_of_splitOnce hsplit, hafter]
    simp only [append_assoc]

/-- **The search ends first.** If an initial part of the text holds the pieces, the search succeeds
within it. -/
theorem exists_scan_of_spread {pieces : List (List α)} {u : List α} (h : Spread pieces u)
    (rest : List α) : ∃ rest', scan pieces (u ++ rest) = some rest' ∧ rest <:+ rest' := by
  induction pieces generalizing u with
  | nil =>
    cases h
    exact ⟨rest, rfl, suffix_refl rest⟩
  | cons piece pieces ih =>
    rcases h with _ | @⟨w, _, _, u, h⟩
    obtain ⟨before, after, hsplit, v, rfl⟩ := exists_splitOnce_append piece w (u ++ rest)
    have hscan : scan (piece :: pieces) (w ++ (piece ++ u) ++ rest) =
        scan pieces (v ++ (u ++ rest)) := by
      rw [scan, append_assoc, append_assoc, hsplit]
      rfl
    rw [hscan]
    rcases pieces with _ | ⟨next, pieces⟩
    · cases h
      exact ⟨v ++ rest, by rw [scan, nil_append], suffix_append v rest⟩
    · -- what now stands before the next piece is at least as long as before
      obtain ⟨rest', hrest, hsuffix⟩ := ih (h.prepend (cons_ne_nil next pieces) v)
      exact ⟨rest', by rw [← append_assoc, hrest], hsuffix⟩

/-- A text that holds the pieces up to its end is passed completely only if no initial part of it
holds them. -/
theorem scan_eq_some_nil_iff {pieces : List (List α)} {s : List α} :
    scan pieces s = some [] ↔
      Spread pieces s ∧ ∀ u rest, s = u ++ rest → Spread pieces u → rest = [] := by
  constructor
  · intro h
    obtain ⟨u, hu, hspread⟩ := spread_of_scan h
    rw [append_nil] at hu
    refine ⟨hu ▸ hspread, fun u' rest hs hspread' ↦ ?_⟩
    obtain ⟨rest', hscan, hsuffix⟩ := exists_scan_of_spread hspread' rest
    rw [← hs, h] at hscan
    exact suffix_nil.mp (Option.some.inj hscan ▸ hsuffix)
  · rintro ⟨hspread, hfirst⟩
    obtain ⟨rest, hscan, -⟩ := exists_scan_of_spread hspread []
    rw [append_nil] at hscan
    obtain ⟨u, hu, hspread'⟩ := spread_of_scan hscan
    rw [hscan, hfirst u rest hu hspread']

end Glob
