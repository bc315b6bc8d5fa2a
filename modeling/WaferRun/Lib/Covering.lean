import Mathlib.Data.Finset.Union

/-!
# Lists of covering entries

An access list admits what one of its entries covers. Entries cover other entries, as a folder
covers the folders below it, and two of them that cover the same thing lie one below the other
(`Nested`).

Two lists are combined to one that admits what both admit by keeping, of every two entries one of
which covers the other, the lower one (`admits_meet_iff`). Keeping only the entries of both lists
admits no more than that, and it admits as much if and only if each lower entry of such a pair is
covered by an entry of both (`forall_admits_inter_iff`).
-/

namespace Covering

variable {α : Type*} (covers : α → α → Prop)

structure Nested : Prop where
  trans : ∀ x y v, covers x y → covers y v → covers x v
  chain : ∀ x y v, covers x v → covers y v → covers x y ∨ covers y x

def Admits (s : Finset α) (v : α) : Prop := ∃ e ∈ s, covers e v

section Meet

variable [∀ x y, Decidable (covers x y)]

def lower (x y : α) : Finset α := if covers y x then {x} else if covers x y then {y} else ∅

variable {covers}

theorem mem_lower {x y e : α} (h : e ∈ lower covers x y) :
    e = x ∧ covers y x ∨ e = y ∧ covers x y := by
  unfold lower at h
  split at h
  · exact .inl ⟨Finset.mem_singleton.mp h, ‹_›⟩
  · split at h
    · exact .inr ⟨Finset.mem_singleton.mp h, ‹_›⟩
    · exact absurd h (Finset.notMem_empty e)

variable [DecidableEq α]

variable (covers) in
def meet (a b : Finset α) : Finset α := a.biUnion fun x ↦ b.biUnion fun y ↦ lower covers x y

/-- **Pairwise lower entries.** They admit exactly what both lists admit. -/
theorem admits_meet_iff (hnested : Nested covers) (a b : Finset α) (v : α) :
    Admits covers (meet covers a b) v ↔ Admits covers a v ∧ Admits covers b v := by
  constructor
  · rintro ⟨e, he, hcovers⟩
    obtain ⟨x, hx, he⟩ := Finset.mem_biUnion.mp he
    obtain ⟨y, hy, he⟩ := Finset.mem_biUnion.mp he
    rcases mem_lower he with ⟨rfl, hyx⟩ | ⟨rfl, hxy⟩
    · exact ⟨⟨e, hx, hcovers⟩, y, hy, hnested.trans _ _ _ hyx hcovers⟩
    · exact ⟨⟨x, hx, hnested.trans _ _ _ hxy hcovers⟩, e, hy, hcovers⟩
  · rintro ⟨⟨x, hx, hxv⟩, y, hy, hyv⟩
    have hmem : ∀ e ∈ lower covers x y, e ∈ meet covers a b := fun e he ↦
      Finset.mem_biUnion.mpr ⟨x, hx, Finset.mem_biUnion.mpr ⟨y, hy, he⟩⟩
    by_cases hyx : covers y x
    · exact ⟨x, hmem x (by rw [lower, if_pos hyx]; exact Finset.mem_singleton_self x), hxv⟩
    · have hxy := (hnested.chain x y v hxv hyv).resolve_right hyx
      refine ⟨y, hmem y ?_, hyv⟩
      rw [lower, if_neg hyx, if_pos hxy]
      exact Finset.mem_singleton_self y

end Meet

variable {covers} [DecidableEq α]

theorem Admits.of_inter {a b : Finset α} {v : α} (h : Admits covers (a ∩ b) v) :
    Admits covers a v ∧ Admits covers b v := by
  obtain ⟨e, he, hcovers⟩ := h
  obtain ⟨ha, hb⟩ := Finset.mem_inter.mp he
  exact ⟨⟨e, ha, hcovers⟩, e, hb, hcovers⟩

/-- The lower entry of every pair is covered by an entry of both lists. -/
def Shared (covers : α → α → Prop) (a b : Finset α) : Prop :=
  ∀ x ∈ a, ∀ y ∈ b, (covers x y → Admits covers (a ∩ b) y) ∧ (covers y x → Admits covers (a ∩ b) x)

/-- **Common entries.** They admit all that both lists admit if and only if they cover the lower
entry of every pair. -/
theorem forall_admits_inter_iff (hnested : Nested covers) (hself : ∀ x y, covers x y → covers y y)
    (a b : Finset α) :
    (∀ v, Admits covers (a ∩ b) v ↔ Admits covers a v ∧ Admits covers b v) ↔
      Shared covers a b := by
  constructor
  · intro h x hx y hy
    exact ⟨fun hxy ↦ (h y).mpr ⟨⟨x, hx, hxy⟩, y, hy, hself x y hxy⟩,
      fun hyx ↦ (h x).mpr ⟨⟨x, hx, hself y x hyx⟩, y, hy, hyx⟩⟩
  · intro h v
    refine ⟨Admits.of_inter, ?_⟩
    rintro ⟨⟨x, hx, hxv⟩, y, hy, hyv⟩
    rcases hnested.chain x y v hxv hyv with hxy | hyx
    · obtain ⟨e, he, hey⟩ := (h x hx y hy).1 hxy
      exact ⟨e, he, hnested.trans e y v hey hyv⟩
    · obtain ⟨e, he, hex⟩ := (h x hx y hy).2 hyx
      exact ⟨e, he, hnested.trans e x v hex hxv⟩

end Covering
