import Mathlib.Data.List.Sort

/-!
# Cursors

A collection is read page by page in the order of its keys. Before every page it is taken anew, so
it may have changed in the meantime. The next page begins after the last key of the page before,
whether or not that key is still there; no further page follows once nothing is left behind the
page.

Whatever changes, no key is read twice (`Follows.ordered`), and what stays is read
(`Follows.exists_mem`). If nothing changes, the pages make up the collection
(`Follows.flatten_eq`), and there are no more of them than it takes (`Follows.mul_le`).
-/

open List Option

namespace Cursors

variable {α κ : Type*} [LinearOrder κ] (key : α → κ)

def Ordered (l : List α) : Prop := l.Pairwise fun a b ↦ key a < key b

def after (last : Option κ) (l : List α) : List α := l.filter fun a ↦ last.all (· < key a)

def page (n : ℕ) (last : Option κ) (l : List α) : List α := (after key last l).take n

def next (n : ℕ) (last : Option κ) (l : List α) : Option κ :=
  if n < (after key last l).length then (page key n last l).getLast?.map key else none

/-- Read pages of the collections one after the other: from the last key that was read so far, to
where the reading stands then, or to `none` if it has ended. -/
inductive Follows (n : ℕ) : Option κ → List (List α) → List (List α) → Option (Option κ) → Prop
  | start (last : Option κ) : Follows n last [] [] (some last)
  | last {last : Option κ} {l : List α} (h : next key n last l = none) :
    Follows n last [l] [page key n last l] none
  | more {last : Option κ} {l : List α} {k : κ} {ls ps : List (List α)} {rest : Option (Option κ)}
    (h : next key n last l = some k) (hrest : Follows n (some k) ls ps rest) :
    Follows n last (l :: ls) (page key n last l :: ps) rest

variable {key}

theorem ordered_after {l : List α} (h : Ordered key l) (last : Option κ) :
    Ordered key (after key last l) := List.Pairwise.filter _ h

theorem ordered_page {l : List α} (h : Ordered key l) (n : ℕ) (last : Option κ) :
    Ordered key (page key n last l) :=
  List.Pairwise.sublist (take_sublist _ _) (ordered_after h last)

theorem mem_after {last : Option κ} {l : List α} {a : α} :
    a ∈ after key last l ↔ a ∈ l ∧ ∀ k ∈ last, k < key a := by
  rw [after, mem_filter, Option.all_eq_true]
  simp only [decide_eq_true_eq, mem_def]

theorem after_none (l : List α) : after key none l = l := filter_eq_self.mpr fun _ _ ↦ rfl

theorem Ordered.lt_of_mem {l : List α} (h : Ordered key l) {n : ℕ} {a b : α} (ha : a ∈ l.take n)
    (hb : b ∈ l.drop n) : key a < key b := by
  rw [Ordered, ← take_append_drop n l] at h
  exact (pairwise_append.mp h).2.2 a ha b hb

theorem Ordered.le_of_getLast? {l : List α} (h : Ordered key l) {a b : α}
    (ha : l.getLast? = some a) (hb : b ∈ l) : key b ≤ key a := by
  obtain ⟨front, rfl⟩ := List.getLast?_eq_some_iff.mp ha
  rcases mem_append.mp hb with hb | hb
  · exact ((pairwise_append.mp h).2.2 b hb a (mem_singleton_self a)).le
  · exact (congrArg key (mem_singleton.mp hb)).le

theorem Ordered.drop_takeWhile {l : List α} (h : Ordered key l) (k : κ) :
    l.drop (l.takeWhile fun a ↦ key a ≤ k).length = after key (some k) l := by
  induction l with
  | nil => rfl
  | cons a l ih =>
    obtain ⟨hhead, htail⟩ := pairwise_cons.mp h
    by_cases ha : key a ≤ k
    · have hnot : ¬k < key a := not_lt.mpr ha
      rw [takeWhile_cons, decide_eq_true ha]
      rw [if_pos rfl, length_cons, drop_succ_cons, ih htail, after, after,
        filter_cons_of_neg (by simpa using hnot)]
    · -- everything from here on is greater
      have hlt : k < key a := not_le.mp ha
      rw [takeWhile_cons, decide_eq_false ha]
      rw [if_neg Bool.false_ne_true, length_nil, drop_zero]
      refine (filter_eq_self.mpr fun b hb ↦ ?_).symm
      rw [all_some, decide_eq_true_eq]
      rcases mem_cons.mp hb with rfl | hb
      · exact hlt
      · exact hlt.trans (hhead b hb)

theorem next_eq_some {n : ℕ} {last : Option κ} {l : List α} {k : κ}
    (h : next key n last l = some k) : n < (after key last l).length ∧
      ∃ a, (page key n last l).getLast? = some a ∧ key a = k := by
  rw [next] at h
  split at h
  · rename_i hn
    exact ⟨hn, map_eq_some_iff.mp h⟩
  · cases h

theorem next_eq_none {n : ℕ} (hn : 0 < n) {last : Option κ} {l : List α} :
    next key n last l = none ↔ (after key last l).length ≤ n := by
  rw [next]
  constructor
  · intro h
    by_contra hlt
    rw [if_pos (not_le.mp hlt), map_eq_none_iff, List.getLast?_eq_none_iff] at h
    have hlength := congrArg List.length h
    rw [page, length_take, length_nil] at hlength
    omega
  · intro h
    exact if_neg (not_lt.mpr h)

theorem after_next {n : ℕ} {last : Option κ} {l : List α} {k : κ} (hl : Ordered key l)
    (h : next key n last l = some k) : after key (some k) l = (after key last l).drop n := by
  obtain ⟨-, a, ha, rfl⟩ := next_eq_some h
  have hmem : a ∈ (after key last l).take n := List.mem_of_getLast? ha
  have hlast := (mem_after.mp (mem_of_mem_take hmem)).2
  have hsub : after key (some (key a)) l = after key (some (key a)) (after key last l) := by
    rw [after, after, after, List.filter_filter]
    refine filter_congr fun b _ ↦ ?_
    rw [all_some, Bool.eq_iff_iff, Bool.and_eq_true, decide_eq_true_eq, Option.all_eq_true]
    simp only [decide_eq_true_eq]
    exact ⟨fun hb ↦ ⟨hb, fun k hk ↦ (hlast k hk).trans hb⟩, And.left⟩
  rw [hsub, after, ← take_append_drop n (after key last l), filter_append]
  rw [take_append_drop n (after key last l)]
  -- nothing of the page is greater than its last key, and all that is left is
  have hfront : ((after key last l).take n).filter (fun b ↦ (some (key a)).all (· < key b)) = [] := by
    refine filter_eq_nil_iff.mpr fun b hb ↦ ?_
    rw [all_some, decide_eq_true_eq, not_lt]
    exact (ordered_page hl n last).le_of_getLast? ha hb
  have hback : ((after key last l).drop n).filter (fun b ↦ (some (key a)).all (· < key b)) =
      (after key last l).drop n := by
    refine filter_eq_self.mpr fun b hb ↦ ?_
    rw [all_some, decide_eq_true_eq]
    exact (ordered_after hl last).lt_of_mem hmem hb
  rw [hfront, hback, nil_append]

namespace Follows

variable {n : ℕ} {last : Option κ} {ls ps : List (List α)} {rest : Option (Option κ)}

theorem ordered (h : Follows key n last ls ps rest) (hls : ∀ l ∈ ls, Ordered key l) :
    Ordered key ps.flatten ∧ ∀ a ∈ ps.flatten, ∀ k ∈ last, k < key a := by
  induction h with
  | start last => exact ⟨.nil, fun a ha ↦ absurd ha not_mem_nil⟩
  | @last last l h =>
    have hl := hls l mem_cons_self
    rw [flatten_singleton]
    exact ⟨ordered_page hl n last, fun a ha ↦ (mem_after.mp (mem_of_mem_take ha)).2⟩
  | @more last l k ls ps rest h _ ih =>
    have hl := hls l mem_cons_self
    obtain ⟨-, a, ha, rfl⟩ := next_eq_some h
    have hpage := ordered_page hl n last
    obtain ⟨hordered, hgreater⟩ := ih fun l hl ↦ hls l (mem_cons_of_mem _ hl)
    have hafter : ∀ b ∈ page key n last l, ∀ k ∈ last, k < key b :=
      fun b hb ↦ (mem_after.mp (mem_of_mem_take hb)).2
    rw [flatten_cons]
    constructor
    · -- the last key of the page is the greatest on it, and smaller than all that follows
      exact pairwise_append.mpr ⟨hpage, hordered,
        fun b hb c hc ↦ (hpage.le_of_getLast? ha hb).trans_lt (hgreater c hc _ rfl)⟩
    · intro b hb k hk
      rcases mem_append.mp hb with hb | hb
      · exact hafter b hb k hk
      · exact (hafter a (List.mem_of_getLast? ha) k hk).trans (hgreater b hb _ rfl)

theorem exists_mem (h : Follows key n last ls ps rest) (hended : rest = none)
    (hls : ∀ l ∈ ls, Ordered key l) {k : κ} (hk : ∀ l ∈ ls, ∃ a ∈ l, key a = k)
    (hlast : ∀ j ∈ last, j < k) (hn : 0 < n) : ∃ a ∈ ps.flatten, key a = k := by
  induction h with
  | start => cases hended
  | @last last l h =>
    obtain ⟨a, ha, rfl⟩ := hk l mem_cons_self
    refine ⟨a, ?_, rfl⟩
    rw [flatten_singleton, page, take_of_length_le ((next_eq_none hn).mp h)]
    exact mem_after.mpr ⟨ha, hlast⟩
  | @more last l j ls ps rest h _ ih =>
    obtain ⟨a, ha, rfl⟩ := hk l mem_cons_self
    have hl := hls l mem_cons_self
    have hmem : a ∈ after key last l := mem_after.mpr ⟨ha, hlast⟩
    rw [← take_append_drop n (after key last l)] at hmem
    rw [flatten_cons]
    rcases mem_append.mp hmem with hpage | hleft
    · exact ⟨a, mem_append_left _ hpage, rfl⟩
    · rw [← after_next hl h] at hleft
      obtain ⟨b, hb, hkey⟩ := ih hended (fun l hl ↦ hls l (mem_cons_of_mem _ hl))
        (fun l hl ↦ hk l (mem_cons_of_mem _ hl)) (mem_after.mp hleft).2
      exact ⟨b, mem_append_right _ hb, hkey⟩

theorem flatten_eq {l : List α} (hl : Ordered key l) (hn : 0 < n)
    (h : Follows key n last ls ps rest) (hended : rest = none) (hls : ∀ l' ∈ ls, l' = l) :
    ps.flatten = after key last l := by
  induction h with
  | start => cases hended
  | last h =>
    cases hls _ mem_cons_self
    rw [flatten_singleton, page, take_of_length_le ((next_eq_none hn).mp h)]
  | @more last l' k ls ps rest h _ ih =>
    cases hls _ mem_cons_self
    rw [flatten_cons, ih hended fun l' hl' ↦ hls l' (mem_cons_of_mem _ hl'),
      after_next hl h, page, take_append_drop]

theorem mul_le {l : List α} (hl : Ordered key l) (h : Follows key n last ls ps rest)
    (hls : ∀ l' ∈ ls, l' = l) (hstands : rest ≠ none) :
    ls.length * n ≤ (after key last l).length := by
  induction h with
  | start => exact (Nat.zero_mul n).trans_le (Nat.zero_le _)
  | last => exact absurd rfl hstands
  | @more last l' k ls ps rest h _ ih =>
    cases hls _ mem_cons_self
    have hrest := ih (fun l' hl' ↦ hls l' (mem_cons_of_mem _ hl')) hstands
    have hlength := (next_eq_some h).1
    rw [after_next hl h, length_drop] at hrest
    rw [length_cons, Nat.succ_mul]
    omega

end Follows

end Cursors
