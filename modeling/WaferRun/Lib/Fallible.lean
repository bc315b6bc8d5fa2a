import Mathlib.Data.List.Forall2

/-!
# Computations that may fail

What is known of the parts when a computation in `Except` succeeds: of a sequence every step
succeeded, of a loop over a list every round.
-/

open List

namespace Fallible

variable {ε ε' α β σ : Type}

theorem bind_eq_ok {x : Except ε α} {f : α → Except ε β} {b : β} :
    x >>= f = .ok b ↔ ∃ a, x = .ok a ∧ f a = .ok b := by
  rcases x with e | a
  · exact ⟨fun h ↦ (nomatch h), fun ⟨_, h, _⟩ ↦ (nomatch h)⟩
  · exact ⟨fun h ↦ ⟨a, rfl, h⟩, fun ⟨_, h, hf⟩ ↦ Except.ok.inj h ▸ hf⟩

theorem bind_eq_error {x : Except ε α} {f : α → Except ε β} {e : ε} :
    x >>= f = .error e ↔ x = .error e ∨ ∃ a, x = .ok a ∧ f a = .error e := by
  rcases x with e' | a
  · exact ⟨fun h ↦ .inl (congrArg _ (Except.error.inj h)),
      fun h ↦ h.elim (fun h ↦ congrArg _ (Except.error.inj h)) fun ⟨_, h, _⟩ ↦ (nomatch h)⟩
  · exact ⟨fun h ↦ .inr ⟨a, rfl, h⟩,
      fun h ↦ h.elim (fun h ↦ (nomatch h)) fun ⟨_, h, hf⟩ ↦ Except.ok.inj h ▸ hf⟩

theorem check_bind_eq_ok {x : Except ε Unit} {f : Unit → Except ε β} {b : β} :
    x >>= f = .ok b ↔ x = .ok () ∧ f () = .ok b := by
  rw [bind_eq_ok]
  exact ⟨fun ⟨(), hx, hf⟩ ↦ ⟨hx, hf⟩, fun ⟨hx, hf⟩ ↦ ⟨(), hx, hf⟩⟩

theorem map_eq_ok {x : Except ε α} {f : α → β} {b : β} :
    x.map f = .ok b ↔ ∃ a, x = .ok a ∧ f a = b := by
  rcases x with e | a
  · exact ⟨fun h ↦ (nomatch h), fun ⟨_, h, _⟩ ↦ (nomatch h)⟩
  · exact ⟨fun h ↦ ⟨a, rfl, Except.ok.inj h⟩, fun ⟨_, h, hf⟩ ↦ Except.ok.inj h ▸ congrArg _ hf⟩

theorem mapError_eq_ok {x : Except ε α} {f : ε → ε'} {a : α} :
    x.mapError f = .ok a ↔ x = .ok a := by
  rcases x with e | a'
  · exact ⟨fun h ↦ (nomatch h), fun h ↦ (nomatch h)⟩
  · exact ⟨fun h ↦ congrArg _ (Except.ok.inj h), fun h ↦ congrArg _ (Except.ok.inj h)⟩

theorem forM_eq_ok {f : α → Except ε Unit} {l : List α} :
    l.forM f = .ok () ↔ ∀ a ∈ l, f a = .ok () := by
  induction l with
  | nil => exact ⟨fun _ _ ha ↦ absurd ha not_mem_nil, fun _ ↦ rfl⟩
  | cons a l ih =>
    have hcons : (a :: l).forM f = f a >>= fun _ ↦ l.forM f := rfl
    rw [hcons, check_bind_eq_ok, ih, forall_mem_cons]

theorem mem_of_mapM_eq_ok {f : α → Except ε β} {l : List α} {bs : List β}
    (h : l.mapM f = .ok bs) {b : β} (hb : b ∈ bs) : ∃ a ∈ l, f a = .ok b := by
  induction l generalizing bs with
  | nil => rw [← Except.ok.inj h] at hb; exact absurd hb not_mem_nil
  | cons a l ih =>
    rw [mapM_cons] at h
    obtain ⟨b', hf, h⟩ := bind_eq_ok.mp h
    obtain ⟨bs', hl, h⟩ := bind_eq_ok.mp h
    rw [← Except.ok.inj h] at hb
    rcases mem_cons.mp hb with rfl | hb
    · exact ⟨a, mem_cons_self, hf⟩
    · obtain ⟨a', ha', hf'⟩ := ih hl hb
      exact ⟨a', mem_cons_of_mem _ ha', hf'⟩

theorem exists_of_mapM_eq_ok {f : α → Except ε β} {l : List α} {bs : List β}
    (h : l.mapM f = .ok bs) {a : α} (ha : a ∈ l) : ∃ b ∈ bs, f a = .ok b := by
  induction l generalizing bs with
  | nil => exact absurd ha not_mem_nil
  | cons a' l ih =>
    rw [mapM_cons] at h
    obtain ⟨b, hb, h⟩ := bind_eq_ok.mp h
    obtain ⟨bs', hbs, h⟩ := bind_eq_ok.mp h
    obtain rfl := Except.ok.inj h
    rcases mem_cons.mp ha with rfl | ha
    · exact ⟨b, mem_cons_self, hb⟩
    · obtain ⟨b', hb', hfa⟩ := ih hbs ha
      exact ⟨b', mem_cons_of_mem _ hb', hfa⟩

theorem exists_of_mapM_eq_error {f : α → Except ε β} {l : List α} {e : ε}
    (h : l.mapM f = .error e) : ∃ a ∈ l, f a = .error e := by
  induction l with
  | nil => exact absurd h nofun
  | cons a l ih =>
    rw [mapM_cons] at h
    rcases bind_eq_error.mp h with hf | ⟨b, -, h⟩
    · exact ⟨a, mem_cons_self, hf⟩
    · rcases bind_eq_error.mp h with hl | ⟨bs, -, h⟩
      · obtain ⟨a', ha', hf⟩ := ih hl
        exact ⟨a', mem_cons_of_mem _ ha', hf⟩
      · exact absurd h nofun

theorem forall₂_of_mapM_eq_ok {f : α → Except ε β} {l : List α} {bs : List β}
    (h : l.mapM f = .ok bs) : List.Forall₂ (fun a b ↦ f a = .ok b) l bs := by
  induction l generalizing bs with
  | nil =>
    rw [← Except.ok.inj h]
    exact .nil
  | cons a l ih =>
    rw [mapM_cons] at h
    obtain ⟨b, hf, h⟩ := bind_eq_ok.mp h
    obtain ⟨bs', hl, h⟩ := bind_eq_ok.mp h
    rw [← Except.ok.inj h]
    exact .cons hf (ih hl)

theorem forall₂_of_mapM_of_mapM {γ : Type} {f : α → Except ε β} {g : β → Except ε γ}
    {T : α → γ → Prop} {l : List α} {bs : List β} {cs : List γ} (hf : l.mapM f = .ok bs)
    (hg : bs.mapM g = .ok cs)
    (h : ∀ a ∈ l, ∀ b c, f a = .ok b → g b = .ok c → T a c) : List.Forall₂ T l cs := by
  have hleft := forall₂_of_mapM_eq_ok hf
  have hright := forall₂_of_mapM_eq_ok hg
  clear hf hg
  induction hleft generalizing cs with
  | nil =>
    rw [forall₂_nil_left_iff.mp hright]
    exact .nil
  | cons hab _ ih =>
    obtain ⟨c, cs', hbc, hrest, rfl⟩ := forall₂_cons_left_iff.mp hright
    exact .cons (h _ mem_cons_self _ _ hab hbc)
      (ih (fun a ha ↦ h a (mem_cons_of_mem _ ha)) hrest)

theorem eq_map_of_mapM_eq_ok {f : α → Except ε β} {g : α → β}
    (hf : ∀ a b, f a = .ok b → b = g a) {l : List α} {bs : List β} (h : l.mapM f = .ok bs) :
    bs = l.map g := by
  induction l generalizing bs with
  | nil => exact (Except.ok.inj h).symm
  | cons a l ih =>
    rw [mapM_cons] at h
    obtain ⟨b, hb, h⟩ := bind_eq_ok.mp h
    obtain ⟨bs', hl, h⟩ := bind_eq_ok.mp h
    rw [← Except.ok.inj h, hf a b hb, ih hl, map_cons]

end Fallible
