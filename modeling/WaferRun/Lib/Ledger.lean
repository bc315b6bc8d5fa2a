import Mathlib.Data.List.Basic

/-!
# Ledgers of a shared table

A table of entries by key is written by several parties, each of whom puts an entry or drops keys.
The ledger lists what they did, the latest first. An entry is owed if it was put and nothing since
has replaced it or dropped its key. If a table holds all that is owed, every entry that was ever
put is in the table, or was replaced or dropped later (`owed_or_excused`).
-/

namespace Ledger

variable {κ α : Type*}

/-- What a party did to the table. -/
inductive Event (κ α : Type*)
  | put (key : κ) (entry : α)
  /-- Every key but these is dropped. -/
  | keep (kept : List κ)
  deriving DecidableEq

variable (Replaces : α → α → Prop)

/-- The entry was put, and nothing since has replaced it or dropped its key. -/
def Owed : List (Event κ α) → κ → α → Prop
  | [], _, _ => False
  | .put k a :: earlier, key, entry =>
    key = k ∧ entry = a ∨ Owed earlier key entry ∧ ¬(key = k ∧ Replaces a entry)
  | .keep kept :: earlier, key, entry => Owed earlier key entry ∧ key ∈ kept

variable {Replaces} {log : List (Event κ α)} {key : κ} {entry : α}

/-- **What was put** is owed, or has been replaced or dropped since. -/
theorem owed_or_excused {later earlier : List (Event κ α)}
    (h : log = later ++ .put key entry :: earlier) :
    Owed Replaces log key entry ∨ (∃ b, .put key b ∈ later ∧ Replaces b entry) ∨
      ∃ kept, .keep kept ∈ later ∧ key ∉ kept := by
  subst h
  induction later with
  | nil => exact Or.inl (Or.inl ⟨rfl, rfl⟩)
  | cons e later ih =>
    rcases ih with howed | ⟨b, hb, hreplaces⟩ | ⟨kept, hkept, hdropped⟩
    · cases e with
      | put k a =>
        by_cases hreplaced : key = k ∧ Replaces a entry
        · exact Or.inr (Or.inl ⟨a, hreplaced.1 ▸ List.mem_cons_self, hreplaced.2⟩)
        · exact Or.inl (Or.inr ⟨howed, hreplaced⟩)
      | keep kept =>
        by_cases hkey : key ∈ kept
        · exact Or.inl ⟨howed, hkey⟩
        · exact Or.inr (Or.inr ⟨kept, List.mem_cons_self, hkey⟩)
    · exact Or.inr (Or.inl ⟨b, List.mem_cons_of_mem _ hb, hreplaces⟩)
    · exact Or.inr (Or.inr ⟨kept, List.mem_cons_of_mem _ hkept, hdropped⟩)

end Ledger
