import Mathlib.Init

/-!
# What a computation leaves

A computation with a state may fail, and the state it leaves then is not that from before. `Leaves`
is about the state on both outcomes: wherever the computation stops, it leaves a state with the
postcondition.
-/

namespace Leaving

variable {ε σ α β : Type}

abbrev Comp (ε σ α : Type) := ExceptT ε (StateM σ) α

def left (x : Comp ε σ α) (s : σ) : σ := (x.run.run s).2

def Leaves (P : σ → Prop) (x : Comp ε σ α) (Q : σ → Prop) : Prop := ∀ s, P s → Q (left x s)

def attempt (x : Comp ε σ α) : Comp ε σ (Except ε α) :=
  ExceptT.mk fun s ↦ (.ok (x.run.run s).1, left x s)

/-- Change the state. -/
def alter (f : σ → σ) : Comp ε σ Unit := ExceptT.mk fun s ↦ (.ok (), f s)

/-- A value, or the error in its place. -/
def ofResult (x : Except ε α) : Comp ε σ α := ExceptT.mk fun s ↦ (x, s)

variable {P Q R : σ → Prop} {x : Comp ε σ α}

theorem Leaves.mono (h : Leaves P x Q) (hQ : ∀ s, Q s → R s) : Leaves P x R :=
  fun s hs ↦ hQ _ (h s hs)

theorem leaves_pure (a : α) : Leaves P (pure a : Comp ε σ α) P := fun _ hs ↦ hs

theorem leaves_throw (e : ε) : Leaves P (throw e : Comp ε σ α) P := fun _ hs ↦ hs

theorem leaves_ofResult (y : Except ε α) : Leaves P (ofResult y : Comp ε σ α) P := fun _ hs ↦ hs

theorem leaves_get : Leaves P (get : Comp ε σ σ) P := fun _ hs ↦ hs

theorem leaves_alter {f : σ → σ} (h : ∀ s, P s → Q (f s)) :
    Leaves P (alter f : Comp ε σ Unit) Q := h

theorem left_bind (x : Comp ε σ α) (k : α → Comp ε σ β) (s : σ) :
    left (x >>= k) s = match x.run.run s with
      | (.ok a, s') => left (k a) s'
      | (.error _, s') => s' := by
  simp only [left, ExceptT.run_bind, StateT.run_bind]
  rcases x.run.run s with ⟨e | a, s'⟩ <;> rfl

theorem leaves_bind {k : α → Comp ε σ β} (hx : Leaves P x Q) (hstop : ∀ s, Q s → R s)
    (hk : ∀ a, Leaves Q (k a) R) : Leaves P (x >>= k) R := by
  intro s hs
  have hleft : Q (x.run.run s).2 := hx s hs
  rw [left_bind]
  generalize x.run.run s = result at hleft ⊢
  rcases result with ⟨e | a, s'⟩
  · exact hstop s' hleft
  · exact hk a s' hleft

theorem leaves_attempt_bind {k : Except ε α → Comp ε σ β} (hx : Leaves P x Q)
    (hk : ∀ r, Leaves Q (k r) R) : Leaves P (attempt x >>= k) R := by
  intro s hs
  rw [left_bind]
  exact hk _ _ (hx s hs)

theorem leaves_alter_bind {f : σ → σ} {k : Unit → Comp ε σ β} (hf : ∀ s, P s → Q (f s))
    (hk : Leaves Q (k ()) R) : Leaves P (alter f >>= k) R := by
  intro s hs
  rw [left_bind]
  exact hk _ (hf s hs)

theorem leaves_bind_self {k : α → Comp ε σ β} (hx : Leaves P x P) (hk : ∀ a, Leaves P (k a) P) :
    Leaves P (x >>= k) P := leaves_bind hx (fun _ hs ↦ hs) hk

theorem leaves_forM {l : List α} {f : α → Comp ε σ PUnit} (h : ∀ a ∈ l, Leaves P (f a) P) :
    Leaves P (l.forM f) P := by
  induction l with
  | nil => exact leaves_pure _
  | cons a l ih =>
    obtain ⟨hhead, htail⟩ := List.forall_mem_cons.mp h
    exact leaves_bind_self hhead fun _ ↦ ih htail

end Leaving
