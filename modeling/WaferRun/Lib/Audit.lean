import Mathlib.Data.List.Infix

/-!
# Rules for the events of a trace

A rule says which event may follow which events. A trace is clean if each of its events follows the
ones before it by the rule. Clean traces are built event by event (`clean_concat_iff`) and stay
clean when they are cut (`Clean.of_prefix`).
-/

namespace Audit

variable {α : Type*} (rule : List α → α → Prop)

def Clean (trace : List α) : Prop := ∀ before e, before ++ [e] <+: trace → rule before e

variable {rule}

theorem clean_nil : Clean rule [] := by
  intro before e h
  cases List.append_eq_nil_iff.mp (List.prefix_nil.mp h) |>.2

theorem clean_concat_iff {trace : List α} {e : α} :
    Clean rule (trace ++ [e]) ↔ Clean rule trace ∧ rule trace e := by
  constructor
  · intro h
    exact ⟨fun before d hd ↦ h before d (hd.trans (List.prefix_append _ _)),
      h trace e List.prefix_rfl⟩
  · rintro ⟨h, he⟩ before d hd
    rcases List.prefix_concat_iff.mp hd with heq | hd
    · obtain ⟨rfl, hed⟩ := List.append_inj' heq rfl
      obtain rfl := (List.cons.inj hed).1
      exact he
    · exact h before d hd

/-- A trace that was cut is clean. -/
theorem Clean.of_prefix {trace cut : List α} (h : Clean rule trace) (hcut : cut <+: trace) :
    Clean rule cut :=
  fun before e he ↦ h before e (he.trans hcut)

end Audit
