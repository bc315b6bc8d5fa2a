import Mathlib.Data.Nat.Notation

/-!
# Bounded channels

A channel with a bound on what it holds. A slot of the channel may be reserved ahead of the value
that will fill it. A value then goes through the reservation whether or not the channel is full,
and takes its place behind the values sent before it.

Only what a user of a channel can rely on is stated: the values come out in the order in which they
went in, and a slot is free until it is reserved or filled and again once its value is received.
-/

structure Channel (α : Type) where
  State : Type
  ofCapacity : ℕ → State
  /-- Send a value; `none` while there is no free slot. -/
  trySend : State → α → Option State
  /-- Reserve a slot; `none` while there is no free slot. -/
  tryReserve : State → Option State
  /-- Send a value through a reservation. -/
  sendReserved : State → α → State
  /-- Receive the oldest value; `none` while there is none. -/
  recv : State → Option (α × State)
  queued : State → List α
  free : State → ℕ
  queued_ofCapacity : ∀ n, queued (ofCapacity n) = []
  free_ofCapacity : ∀ n, free (ofCapacity n) = n
  isSome_trySend : ∀ c a, (trySend c a).isSome ↔ 0 < free c
  queued_trySend : ∀ {c a d}, trySend c a = some d → queued d = queued c ++ [a]
  free_trySend : ∀ {c a d}, trySend c a = some d → free c = free d + 1
  isSome_tryReserve : ∀ c, (tryReserve c).isSome ↔ 0 < free c
  queued_tryReserve : ∀ {c d}, tryReserve c = some d → queued d = queued c
  free_tryReserve : ∀ {c d}, tryReserve c = some d → free c = free d + 1
  queued_sendReserved : ∀ c a, queued (sendReserved c a) = queued c ++ [a]
  free_sendReserved : ∀ c a, free (sendReserved c a) = free c
  recv_eq_none : ∀ {c}, recv c = none ↔ queued c = []
  queued_recv : ∀ {c a d}, recv c = some (a, d) → queued c = a :: queued d
  free_recv : ∀ {c a d}, recv c = some (a, d) → free d = free c + 1

namespace Channel

def ofList (α : Type) : Channel α where
  State := ℕ × List α
  ofCapacity n := (n, [])
  trySend c a :=
    match c with
    | (0, _) => none
    | (n + 1, q) => some (n, q ++ [a])
  tryReserve c :=
    match c with
    | (0, _) => none
    | (n + 1, q) => some (n, q)
  sendReserved c a := (c.1, c.2 ++ [a])
  recv c :=
    match c with
    | (_, []) => none
    | (n, a :: q) => some (a, n + 1, q)
  queued := Prod.snd
  free := Prod.fst
  queued_ofCapacity _ := rfl
  free_ofCapacity _ := rfl
  isSome_trySend := by rintro ⟨_ | n, q⟩ a <;> simp
  queued_trySend := by rintro ⟨_ | n, q⟩ a d ⟨⟩; rfl
  free_trySend := by rintro ⟨_ | n, q⟩ a d ⟨⟩; rfl
  isSome_tryReserve := by rintro ⟨_ | n, q⟩ <;> simp
  queued_tryReserve := by rintro ⟨_ | n, q⟩ d ⟨⟩; rfl
  free_tryReserve := by rintro ⟨_ | n, q⟩ d ⟨⟩; rfl
  queued_sendReserved _ _ := rfl
  free_sendReserved _ _ := rfl
  recv_eq_none := by rintro ⟨n, _ | ⟨a, q⟩⟩ <;> simp
  queued_recv := by rintro ⟨n, _ | ⟨b, q⟩⟩ a d ⟨⟩; rfl
  free_recv := by rintro ⟨n, _ | ⟨b, q⟩⟩ a d ⟨⟩; rfl

end Channel
