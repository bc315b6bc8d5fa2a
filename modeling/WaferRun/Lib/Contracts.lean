import WaferRun.Lib.Strands

/-!
# Contracts of strands

What a strand ensures (`Ensures`) speaks of its results. A contract speaks of the way there as well:
how the strand performs an effect, how it goes on from a join, and what it ends in. In return the
strand may rely on the answers it gets, as far as the contract says which answers are acceptable.

A strand that honours a contract honours it after every move, if the moves it made were answered
acceptably (`Honours.step`), and so do the strands of its branches, at any depth (`Honours.part`).
-/

namespace Strand

variable {E : Type} {A : E → Type} {R σ C : Type}

structure Contract (E : Type) (A : E → Type) (R : Type) where
  /-- The answers the strand may rely on. -/
  accepts : ∀ e, A e → Prop
  /-- How an effect is performed, with what follows each answer. -/
  performs : ∀ e, (A e → Strand E A R) → Prop
  /-- How a fork goes on from the results of its branches. -/
  joins : (List R → Strand E A R) → Prop
  /-- What a strand, or a branch of it, ends in. -/
  ends : R → Prop

inductive Honours (K : Contract E A R) : Strand E A R → Prop
  | done {r : R} (h : K.ends r) : Honours K (done r)
  | perform {e : E} {k : A e → Strand E A R} (h : K.performs e k)
      (hk : ∀ a, K.accepts e a → Honours K (k a)) : Honours K (perform e k)
  | fork {bs : List (Strand E A R)} {k : List R → Strand E A R} (h : K.joins k)
      (hbs : ∀ b ∈ bs, Honours K b) (hk : ∀ rs, (∀ r ∈ rs, K.ends r) → Honours K (k rs)) :
      Honours K (fork bs k)

/-- `Part y x`: the strand `y` is `x`, or runs in a branch of it. -/
inductive Part : Strand E A R → Strand E A R → Prop
  | refl (x : Strand E A R) : Part x x
  | branch {y b : Strand E A R} {bs : List (Strand E A R)} {k : List R → Strand E A R} (hb : b ∈ bs)
      (h : Part y b) : Part y (fork bs k)

variable {K : Contract E A R} {handle : Handler E A σ C} {x y : Strand E A R}

theorem Honours.ends_of_done {r : R} (h : Honours K (.done r)) : K.ends r := by
  cases h with
  | done h => exact h

theorem Honours.performs_of_perform {e : E} {k : A e → Strand E A R}
    (h : Honours K (.perform e k)) : K.performs e k := by
  cases h with
  | perform h _ => exact h

theorem Honours.joins_of_fork {bs : List (Strand E A R)} {k : List R → Strand E A R}
    (h : Honours K (.fork bs k)) : K.joins k := by
  cases h with
  | fork h _ _ => exact h

/-- Every strand of a strand that honours a contract honours it. -/
theorem Honours.part (h : Honours K x) (hy : Part y x) : Honours K y := by
  induction hy with
  | refl => exact h
  | branch hb _ ih =>
    cases h with
    | fork _ hbs _ => exact ih (hbs _ hb)

theorem Step.log_subset {s t : σ × List (Σ e, A e)} (h : Step (traced handle) s x t y) :
    s.2 ⊆ t.2 := by
  refine h.state (P := fun s t ↦ s.2 ⊆ t.2) (List.Subset.refl _) fun e c a hans ↦ ?_
  rw [(traced_eq_some.mp hans).2]
  exact List.subset_cons_self _ _

/-- **A move keeps a contract** if everything in the log was answered acceptably. The effect the
move logs was performed as the contract says. -/
theorem Honours.step {s t : σ × List (Σ e, A e)} (hstep : Step (traced handle) s x t y)
    (h : Honours K x) :
    ((∀ p ∈ t.2, K.accepts p.1 p.2) → Honours K y) ∧
      (t.2 = s.2 ∨ ∃ e a k, t.2 = ⟨e, a⟩ :: s.2 ∧ K.performs e k) := by
  induction hstep with
  | @perform t e c a k hans =>
    have hlog : t.2 = ⟨e, a⟩ :: s.2 := (traced_eq_some.mp hans).2
    cases h with
    | perform hperforms hk =>
      refine ⟨fun haccepted ↦ hk a ?_, .inr ⟨e, a, k, hlog, hperforms⟩⟩
      exact haccepted ⟨e, a⟩ (hlog ▸ List.mem_cons_self)
  | @branch t b b' l r k _ ih =>
    cases h with
    | fork hjoins hbs hk =>
      obtain ⟨hb', hlog⟩ := ih (hbs b (List.mem_append_right l List.mem_cons_self))
      refine ⟨fun haccepted ↦ .fork hjoins (fun c hc ↦ ?_) hk, hlog⟩
      rcases List.mem_append.mp hc with hc | hc
      · exact hbs c (List.mem_append_left _ hc)
      · rcases List.mem_cons.mp hc with rfl | hc
        · exact hb' haccepted
        · exact hbs c (List.mem_append_right l (List.mem_cons_of_mem b hc))
  | join rs k =>
    cases h with
    | fork _ hbs hk =>
      refine ⟨fun _ ↦ hk rs fun r hr ↦ ?_, .inl rfl⟩
      exact (hbs (.done r) (List.mem_map_of_mem hr)).ends_of_done

end Strand
