import WaferRun.Headers.MergeOutcome

/-!
# Adding sources to a directive

A source is added unless the list has it in some case, and a `'none'` only to an empty list. So a
list keeps the first spelling of each source (`mem_foldl_addSource_iff`), and sources that were
added once change nothing if they are added again (`foldl_addSource_again`).
-/

open List

namespace WaferRun.SecurityHeaders

open Text

variable {s : Word} {accepted l : List Word}

theorem eqIgnoreAsciiCase_iff {t : Word} :
    eqIgnoreAsciiCase s t = true ↔ asciiLower s = asciiLower t := decide_eq_true_iff

theorem isNone_congr {t : Word} (h : asciiLower s = asciiLower t) : isNone s = isNone t := by
  rw [isNone, isNone, eqIgnoreAsciiCase, eqIgnoreAsciiCase, h]

def Has (l : List Word) (s : Word) : Prop := ∃ t ∈ l, asciiLower t = asciiLower s

theorem any_iff_has : l.any (eqIgnoreAsciiCase · s) = true ↔ Has l s := by
  simp only [any_eq_true, eqIgnoreAsciiCase_iff, Has]

theorem addSource_of_has (h : Has l s) : addSource l s = l := by
  rw [addSource, if_pos (any_iff_has.mpr h)]

theorem addSource_of_isNone (hs : isNone s = true) (hl : l ≠ []) : addSource l s = l := by
  by_cases h : Has l s
  · exact addSource_of_has h
  · rw [addSource, if_neg fun hany ↦ h (any_iff_has.mp hany), if_pos hs, if_neg hl]

theorem addSource_nil (s : Word) : addSource [] s = [s] := by
  unfold addSource
  cases isNone s <;> rfl

theorem addSource_of_new (h : ¬Has l s) (hs : isNone s = false) :
    addSource l s = l.filter (fun t ↦ !isNone t) ++ [s] := by
  rw [addSource, if_neg fun hany ↦ h (any_iff_has.mp hany), hs, if_neg Bool.false_ne_true]

/-! ## Adding again -/

def Settles (l : List Word) (s : Word) : Prop := Has l s ∨ isNone s = true ∧ l ≠ []

theorem Settles.addSource_eq (h : Settles l s) : addSource l s = l :=
  h.elim addSource_of_has fun h ↦ addSource_of_isNone h.1 h.2

theorem settles_addSource (l : List Word) (s : Word) : Settles (addSource l s) s := by
  by_cases hhas : Has l s
  · rw [addSource_of_has hhas]
    exact .inl hhas
  · by_cases hs : isNone s = true
    · rcases l with _ | ⟨t, l⟩
      · rw [addSource_nil]
        exact .inl ⟨s, mem_cons_self, rfl⟩
      · rw [addSource_of_isNone hs (cons_ne_nil t l)]
        exact .inr ⟨hs, cons_ne_nil t l⟩
    · rw [addSource_of_new hhas (Bool.eq_false_iff.mpr hs)]
      exact .inl ⟨s, mem_append_right _ mem_cons_self, rfl⟩

theorem Settles.addSource (h : Settles l s) (a : Word) :
    Settles (SecurityHeaders.addSource l a) s := by
  by_cases ha : Settles l a
  · rwa [ha.addSource_eq]
  · have hnew : ¬Has l a := fun hhas ↦ ha (.inl hhas)
    have hl : l ≠ [] := by
      rintro rfl
      rcases h with ⟨t, ht, -⟩ | ⟨-, hnil⟩
      · exact absurd ht not_mem_nil
      · exact hnil rfl
    have hanone : isNone a = false := Bool.eq_false_iff.mpr fun h ↦ ha (.inr ⟨h, hl⟩)
    rw [addSource_of_new hnew hanone]
    have hne : l.filter (fun t ↦ !isNone t) ++ [a] ≠ [] :=
      append_ne_nil_of_right_ne_nil _ (cons_ne_nil a [])
    by_cases hs : isNone s = true
    · exact .inr ⟨hs, hne⟩
    · -- a source that means something is not removed
      obtain ⟨t, ht, heq⟩ := h.resolve_right fun h ↦ hs h.1
      have htnone : isNone t = false := (isNone_congr heq).trans (Bool.eq_false_iff.mpr hs)
      exact .inl ⟨t, mem_append_left _ (mem_filter.mpr ⟨ht, by rw [htnone]; rfl⟩), heq⟩

theorem settles_foldl (h : s ∈ accepted) (l : List Word) :
    Settles (accepted.foldl addSource l) s := by
  have hkeep : ∀ (accepted : List Word) (l : List Word), Settles l s →
      Settles (accepted.foldl addSource l) s := by
    intro accepted
    induction accepted with
    | nil => exact fun _ h ↦ h
    | cons a accepted ih => exact fun l h ↦ ih _ (h.addSource a)
  induction accepted generalizing l with
  | nil => exact absurd h not_mem_nil
  | cons a accepted ih =>
    rcases mem_cons.mp h with rfl | h
    · exact hkeep accepted _ (settles_addSource l s)
    · exact ih h _

/-- **What was added once adds nothing.** -/
theorem foldl_addSource_again (accepted l : List Word) :
    accepted.foldl addSource (accepted.foldl addSource l) = accepted.foldl addSource l := by
  have hstay : ∀ (offered l : List Word), (∀ s ∈ offered, Settles l s) →
      offered.foldl addSource l = l := by
    intro offered
    induction offered with
    | nil => exact fun _ _ ↦ rfl
    | cons s offered ih =>
      intro l h
      rw [foldl_cons, (h s mem_cons_self).addSource_eq]
      exact ih l fun t ht ↦ h t (mem_cons_of_mem s ht)
  exact hstay accepted _ fun s hs ↦ settles_foldl hs l

/-! ## The spelling that is kept -/

def StandsFirst (l offered : List Word) (s : Word) : Prop :=
  s ∈ l ∨ ¬Has l s ∧ offered.find? (eqIgnoreAsciiCase · s) = some s

/-- The source means something, or all the others mean "nothing" as it may do. -/
def Alike (l : List Word) (s : Word) : Prop := isNone s = false ∨ ∀ x ∈ l, isNone x = true

theorem isNone_iff : isNone s = true ↔ asciiLower s = asciiLower noneSource :=
  eqIgnoreAsciiCase_iff

/-- **The step.** What is added is the source itself, and only if the list has no spelling of it. -/
theorem mem_addSource_iff {a : Word} (h : Alike (a :: l) s) :
    (s ∈ addSource l a ↔ s ∈ l ∨ s = a ∧ ¬Has l s) ∧
      (Has (addSource l a) s ↔ Has l s ∨ asciiLower a = asciiLower s) := by
  by_cases ha : Settles l a
  · -- a spelling of `a` is there, unless `a` is a `'none'` among other sources
    have hspelled : asciiLower a = asciiLower s → Has l s := by
      intro heq
      rcases ha with ⟨t, ht, hta⟩ | ⟨hanone, hl⟩
      · exact ⟨t, ht, hta.trans heq⟩
      · obtain ⟨t, l, rfl⟩ := exists_cons_of_ne_nil hl
        have hall := h.resolve_left (by rw [← isNone_congr heq, hanone]; decide)
        have ht := hall t (mem_cons_of_mem a mem_cons_self)
        exact ⟨t, mem_cons_self, (isNone_iff.mp ht).trans ((isNone_iff.mp hanone).symm.trans heq)⟩
    rw [ha.addSource_eq]
    exact ⟨(or_iff_left fun hs ↦ hs.2 (hspelled (hs.1 ▸ rfl))).symm, (or_iff_left_of_imp hspelled).symm⟩
  · have hnew : ¬Has l a := fun hhas ↦ ha (.inl hhas)
    -- nothing is removed that means something
    have hlist : ∃ l', addSource l a = l' ++ [a] ∧ (s ∈ l' ↔ s ∈ l) ∧ (Has l' s ↔ Has l s) := by
      by_cases hl : l = []
      · exact ⟨[], by rw [hl, addSource_nil, nil_append], by rw [hl], by rw [hl]⟩
      · have hanone : isNone a = false := Bool.eq_false_iff.mpr fun h ↦ ha (.inr ⟨h, hl⟩)
        have hs : isNone s = false :=
          h.resolve_right fun hall ↦ by rw [hall a mem_cons_self] at hanone; cases hanone
        have hkept (t : Word) (ht : asciiLower t = asciiLower s) :
            t ∈ l.filter (fun t ↦ !isNone t) ↔ t ∈ l := by
          rw [mem_filter, (isNone_congr ht).trans hs]
          exact and_iff_left rfl
        exact ⟨_, addSource_of_new hnew hanone, hkept s rfl,
          exists_congr fun t ↦ and_congr_left fun ht ↦ hkept t ht⟩
    obtain ⟨l', heq, hmem, hhas⟩ := hlist
    rw [heq, mem_append, mem_singleton, hmem]
    refine ⟨or_congr_right (iff_self_and.mpr fun hsa ↦ hsa ▸ hnew), ?_⟩
    rw [← hhas]
    simp only [Has, mem_append, mem_singleton, or_and_right, exists_or, exists_eq_left]

/-- **A list keeps the first spelling of a source.** -/
theorem mem_foldl_addSource_iff (h : Alike (accepted ++ l) s) :
    s ∈ accepted.foldl addSource l ↔ StandsFirst l accepted s := by
  induction accepted generalizing l with
  | nil => exact ⟨.inl, fun h ↦ h.resolve_right fun h ↦ nomatch h.2⟩
  | cons a accepted ih =>
    have hstep : Alike (a :: l) s := h.imp_right fun hall x hx ↦ hall x <| by
      rw [cons_append]
      exact (mem_cons.mp hx).elim (fun hx ↦ mem_cons.mpr (.inl hx))
        fun hx ↦ mem_cons_of_mem a (mem_append_right accepted hx)
    have hnext : Alike (accepted ++ addSource l a) s := h.imp_right fun hall x hx ↦ hall x <| by
      rw [cons_append, mem_cons, mem_append]
      rcases mem_append.mp hx with hx | hx
      · exact .inr (.inl hx)
      · exact (mem_addSource hx).elim (fun hx ↦ .inr (.inr hx)) .inl
    obtain ⟨hmem, hhas⟩ := mem_addSource_iff hstep
    rw [foldl_cons, ih hnext, StandsFirst, StandsFirst, hmem, hhas, List.find?_cons]
    by_cases heq : asciiLower a = asciiLower s
    · rw [eqIgnoreAsciiCase_iff.mpr heq]
      simp only [heq, Option.some.injEq]
      grind
    · have hne : s ≠ a := fun hsa ↦ heq (hsa ▸ rfl)
      rw [Bool.eq_false_iff.mpr fun h ↦ heq (eqIgnoreAsciiCase_iff.mp h)]
      simp only [heq, hne, false_and, or_false]

theorem mem_foldl_addSource_of_mem (hs : isNone s = false) (h : s ∈ l) :
    s ∈ accepted.foldl addSource l :=
  (mem_foldl_addSource_iff (.inl hs)).mpr (.inl h)

/-! ## Lists without repetition -/

theorem isNone_filter (h : ∀ s ∈ l, isNone s = false) : l.filter (fun s ↦ !isNone s) = l :=
  filter_eq_self.mpr fun s hs ↦ by rw [h s hs]; rfl

theorem has_iff_mem_map : Has l s ↔ asciiLower s ∈ l.map asciiLower :=
  mem_map.symm

theorem foldl_addSource_of_nodup (hnone : ∀ s ∈ l ++ accepted, isNone s = false)
    (h : ((l ++ accepted).map asciiLower).Nodup) : accepted.foldl addSource l = l ++ accepted := by
  induction accepted generalizing l with
  | nil => exact (append_nil l).symm
  | cons a accepted ih =>
    have hnew : ¬Has l a := by
      rw [has_iff_mem_map]
      intro hmem
      rw [map_append, map_cons] at h
      exact (nodup_append.mp h).2.2 _ hmem _ mem_cons_self rfl
    have hl : ∀ s ∈ l, isNone s = false := fun s hs ↦ hnone s (mem_append_left _ hs)
    rw [foldl_cons, addSource_of_new hnew (hnone a (by simp)), isNone_filter hl, ih]
    · rw [append_assoc, singleton_append]
    · rwa [append_assoc, singleton_append]
    · rwa [append_assoc, singleton_append]

theorem nodup_foldl_addSource (hnone : ∀ s ∈ l ++ accepted, isNone s = false)
    (h : (l.map asciiLower).Nodup) : ((accepted.foldl addSource l).map asciiLower).Nodup := by
  induction accepted generalizing l with
  | nil => exact h
  | cons a accepted ih =>
    refine ih (fun s hs ↦ hnone s ?_) ?_
    · rcases mem_append.mp hs with hs | hs
      · exact (mem_addSource hs).elim (mem_append_left _)
          fun heq ↦ mem_append_right l (mem_cons.mpr (.inl heq))
      · exact mem_append_right l (mem_cons_of_mem a hs)
    · by_cases hhas : Has l a
      · rwa [addSource_of_has hhas]
      · have hl : ∀ s ∈ l, isNone s = false := fun s hs ↦ hnone s (mem_append_left _ hs)
        rw [addSource_of_new hhas (hnone a (by simp)), isNone_filter hl, map_append,
          map_singleton]
        rw [has_iff_mem_map] at hhas
        exact nodup_append.mpr ⟨h, nodup_singleton _, fun x hx y hy hxy ↦
          hhas (mem_singleton.mp hy ▸ hxy ▸ hx)⟩

theorem foldl_addSource_of_isNone {a : Word} (h : ∀ s ∈ a :: accepted, isNone s = true) :
    (a :: accepted).foldl addSource [] = [a] := by
  rw [foldl_cons, addSource_nil]
  have hrest : ∀ s ∈ accepted, isNone s = true := fun s hs ↦ h s (mem_cons_of_mem a hs)
  clear h
  induction accepted with
  | nil => rfl
  | cons s accepted ih =>
    obtain ⟨hs, hrest⟩ := forall_mem_cons.mp hrest
    rw [foldl_cons, addSource_of_isNone hs (cons_ne_nil a []), ih hrest]

end WaferRun.SecurityHeaders
