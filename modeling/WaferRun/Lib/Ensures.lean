import WaferRun.Lib.Strands

/-!
# What a strand ensures

A strand ensures a postcondition if it can only end in results that satisfy it, whatever its
surroundings answer and however its branches interleave. At a fork the branches share one
postcondition, and the strand goes on from any list of results that satisfy it.

`MayEnd` is the converse view: the results that some surroundings lead to.
-/

namespace Strand

variable {E : Type} {A : E → Type} {R σ C : Type}

mutual

/-- The strand only ends in results that satisfy `Q`. -/
def Ensures : Strand E A R → (R → Prop) → Prop
  | done r, Q => Q r
  | perform _ k, Q => ∀ a, Ensures (k a) Q
  | fork bs k, Q => ∃ P, EnsuresAll bs P ∧ ∀ rs, (∀ r ∈ rs, P r) → Ensures (k rs) Q
termination_by structural x => x

def EnsuresAll : List (Strand E A R) → (R → Prop) → Prop
  | [], _ => True
  | b :: bs, P => Ensures b P ∧ EnsuresAll bs P
termination_by structural bs => bs

end

def MayEnd (x : Strand E A R) (r : R) : Prop :=
  ∃ (σ C : Type) (handle : Handler E A σ C) (s t : σ), Steps handle s x t (done r)

variable {handle : Handler E A σ C} {s t : σ} {x y : Strand E A R} {P Q : R → Prop}

theorem ensuresAll_iff {bs : List (Strand E A R)} : EnsuresAll bs P ↔ ∀ b ∈ bs, Ensures b P := by
  induction bs with
  | nil => exact ⟨fun _ b hb ↦ absurd hb List.not_mem_nil, fun _ ↦ trivial⟩
  | cons b bs ih => rw [EnsuresAll, ih, List.forall_mem_cons]

theorem ensures_perform {e : E} {k : A e → Strand E A R} (h : ∀ a, Ensures (k a) Q) :
    Ensures (perform e k) Q := h

theorem ensures_fork (P : R → Prop) {bs : List (Strand E A R)} {k : List R → Strand E A R}
    (hbs : ∀ b ∈ bs, Ensures b P) (hk : ∀ rs, (∀ r ∈ rs, P r) → Ensures (k rs) Q) :
    Ensures (fork bs k) Q :=
  ⟨P, ensuresAll_iff.mpr hbs, hk⟩

theorem Ensures.step (h : Ensures x Q) (hstep : Step handle s x t y) : Ensures y Q := by
  induction hstep generalizing Q with
  | perform k _ => exact h _
  | branch l r k _ ih =>
    obtain ⟨P, hbs, hk⟩ := h
    rw [ensuresAll_iff] at hbs
    refine ensures_fork P (fun b hb ↦ ?_) hk
    rcases List.mem_append.mp hb with hb | hb
    · exact hbs b (List.mem_append_left _ hb)
    · rcases List.mem_cons.mp hb with rfl | hb
      · exact ih (hbs _ (List.mem_append_right _ List.mem_cons_self))
      · exact hbs b (List.mem_append_right _ (List.mem_cons_of_mem _ hb))
  | join rs k =>
    obtain ⟨P, hbs, hk⟩ := h
    rw [ensuresAll_iff] at hbs
    exact hk rs fun r hr ↦ hbs (done r) (List.mem_map_of_mem hr)

theorem Ensures.steps (h : Ensures x Q) (hsteps : Steps handle s x t y) : Ensures y Q := by
  induction hsteps with
  | refl => exact h
  | tail _ hstep ih => exact ih.step hstep

theorem Ensures.of_mayEnd (h : Ensures x Q) {r : R} (hr : MayEnd x r) : Q r := by
  obtain ⟨σ, C, handle, s, t, hsteps⟩ := hr
  exact h.steps hsteps

end Strand
