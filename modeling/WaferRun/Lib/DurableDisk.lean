import Mathlib.Data.Nat.Notation
import Mathlib.Logic.Function.Basic
import Mathlib.Logic.Relation

/-!
# Disks: names, the files behind them, and what a power loss leaves

A disk binds names to files or to links, and a file holds a content. Binding a name anew takes
effect at once, but until the name's directory is synced the medium may still come back with an
older binding, and a file that was written and not synced may come back with any content.

What a name may be bound to, now or after a power loss, is `Disk.Bound`; a property of all such
bindings is kept by an operation if it holds of the binding the operation makes (`Disk.Throughout`).
-/

namespace DurableDisk

/-- What a name is bound to. -/
inductive Node (ν ι : Type*)
  | file (i : ι)
  | link (target : ν)
  deriving DecidableEq

/-- Names `ν`, files `ι`, contents `β`. `older` lists the bindings the medium may come back with. -/
structure Disk (ν ι β : Type*) where
  entry : ν → Option (Node ν ι)
  older : ν → List (Option (Node ν ι))
  content : ι → β
  synced : ι → Bool

namespace Disk

variable {ν ι β : Type*} (d : Disk ν ι β)

/-! ## Operations -/

section Operations

variable [DecidableEq ν] [DecidableEq ι]

/-- Bind a name anew. -/
def rebind (a : ν) (n : Option (Node ν ι)) : Disk ν ι β where
  entry := Function.update d.entry a n
  older := Function.update d.older a (d.entry a :: d.older a)
  content := d.content
  synced := d.synced

/-- Take the names `p` tells off the disk. -/
def remove (p : ν → Bool) : Disk ν ι β where
  entry a := if p a then none else d.entry a
  older a := if p a then d.entry a :: d.older a else d.older a
  content := d.content
  synced := d.synced

/-- Give a file a new content, which is not safe until it is synced. -/
def write (i : ι) (b : β) : Disk ν ι β where
  entry := d.entry
  older := d.older
  content := Function.update d.content i b
  synced := Function.update d.synced i false

/-- Make the content of a file safe. -/
def fsync (i : ι) : Disk ν ι β where
  entry := d.entry
  older := d.older
  content := d.content
  synced := Function.update d.synced i true

/-- Make the bindings of the names `p` tells safe. -/
def settle (p : ν → Bool) : Disk ν ι β where
  entry := d.entry
  older a := if p a then [] else d.older a
  content := d.content
  synced := d.synced

/-- The medium comes back with the `k`-th older binding of a name. -/
def revert (a : ν) (k : ℕ) : Option (Disk ν ι β) :=
  (d.older a)[k]?.map fun n ↦
    { entry := Function.update d.entry a n, older := d.older
      content := d.content, synced := d.synced }

/-- The medium comes back with another content of a file that was not synced. -/
def scramble (i : ι) (b : β) : Option (Disk ν ι β) :=
  if d.synced i then none
  else some { entry := d.entry, older := d.older
              content := Function.update d.content i b, synced := d.synced }

end Operations

/-- The file a name leads to over at most `k` bindings, with the name it is bound to. -/
def follow : ℕ → ν → Option (ν × ι)
  | 0, _ => none
  | k + 1, a =>
    match d.entry a with
    | some (.file i) => some (a, i)
    | some (.link b) => follow k b
    | none => none

/-- What a name leads to holds. -/
def object (k : ℕ) (a : ν) : Option β := (d.follow k a).map fun found ↦ d.content found.2

/-! ## What a name may be bound to -/

/-- The name is bound so, or may be after a power loss. -/
def Bound (a : ν) (n : Node ν ι) : Prop := d.entry a = some n ∨ some n ∈ d.older a

/-- Every binding of the names in `S` has the property. -/
def Throughout (S : ν → Prop) (P : ν → Node ν ι → Prop) : Prop := ∀ a, S a → ∀ n, d.Bound a n → P a n

variable {d} {S : ν → Prop} {P Q : ν → Node ν ι → Prop}

theorem Throughout.mono (h : d.Throughout S P) (hPQ : ∀ a, S a → ∀ n, P a n → Q a n) :
    d.Throughout S Q :=
  fun a ha n hn ↦ hPQ a ha n (h a ha n hn)

theorem Throughout.of_bound {d' : Disk ν ι β} (h : d.Throughout S P)
    (hbound : ∀ a, S a → ∀ n, d'.Bound a n → d.Bound a n ∨ P a n) : d'.Throughout S P :=
  fun a ha n hn ↦ (hbound a ha n hn).elim (h a ha n) id

section Bindings

theorem bound_rebind [DecidableEq ν] {a b : ν} {n : Option (Node ν ι)} {m : Node ν ι}
    (h : (d.rebind a n).Bound b m) : d.Bound b m ∨ b = a ∧ n = some m := by
  by_cases hb : b = a
  · subst hb
    simp only [Bound, rebind, Function.update_self, List.mem_cons] at h
    rcases h with h | h | h
    · exact Or.inr ⟨rfl, h⟩
    · exact Or.inl (Or.inl h.symm)
    · exact Or.inl (Or.inr h)
  · simp only [Bound, rebind, Function.update_of_ne hb] at h
    exact Or.inl h

theorem bound_remove {p : ν → Bool} {a : ν} {m : Node ν ι} (h : (d.remove p).Bound a m) :
    d.Bound a m := by
  simp only [Bound, remove] at h
  by_cases hp : p a = true
  · simp only [hp, if_true, List.mem_cons, reduceCtorEq, false_or] at h
    exact h.imp_left Eq.symm
  · simp only [hp, Bool.false_eq_true, if_false] at h
    exact h

theorem bound_settle {p : ν → Bool} {a : ν} {m : Node ν ι} (h : (d.settle p).Bound a m) :
    d.Bound a m := by
  refine h.imp_right fun h ↦ ?_
  simp only [settle] at h
  split at h
  · exact absurd h List.not_mem_nil
  · exact h

theorem bound_revert [DecidableEq ν] {d' : Disk ν ι β} {a b : ν} {k : ℕ} {m : Node ν ι}
    (hd : d.revert a k = some d') (h : d'.Bound b m) : d.Bound b m := by
  obtain ⟨n, hn, rfl⟩ := Option.map_eq_some_iff.mp hd
  rcases h with h | h
  · by_cases hb : b = a
    · subst hb
      simp only [Function.update_self] at h
      exact Or.inr (h ▸ List.mem_of_getElem? hn)
    · simp only [Function.update_of_ne hb] at h
      exact Or.inl h
  · exact Or.inr h

end Bindings

/-! ## Following names -/

/-- No link leads out of `S`. -/
def Closed (d : Disk ν ι β) (S : ν → Prop) : Prop := ∀ a, S a → ∀ b, d.entry a = some (.link b) → S b

/-- One link within `S`. -/
def Step (d : Disk ν ι β) (S : ν → Prop) (a b : ν) : Prop := S a ∧ d.entry a = some (.link b)

theorem Closed.follow (h : d.Closed S) {k : ℕ} {a b : ν} {i : ι} (ha : S a)
    (hf : d.follow k a = some (b, i)) :
    Relation.ReflTransGen (d.Step S) a b ∧ S b ∧ d.entry b = some (.file i) := by
  induction k generalizing a with
  | zero => exact absurd hf nofun
  | succ k ih =>
    unfold Disk.follow at hf
    split at hf
    · rename_i j hj
      obtain ⟨rfl, rfl⟩ := Prod.mk.inj (Option.some.inj hf)
      exact ⟨.refl, ha, hj⟩
    · rename_i c hc
      exact (ih (h a ha c hc) hf).imp_left (.head ⟨ha, hc⟩)
    · exact absurd hf nofun

end Disk

end DurableDisk
