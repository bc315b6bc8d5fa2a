import WaferRun.Block.HttpResponse
import WaferRun.Runtime.BlockSlot

/-!
# How a dispatch refuses a block that is not initialized

A dispatch to a block whose init has failed, or may not run now, answers with an error of the
runtime. The error never carries the cause: its message is fixed text that names the block and a
reference under which the cause is logged. Of the cause it keeps one detail code, and a pending
retry adds a header.

So whatever an init failed with, the refusal can be sent (`IsInitRefusal.sendable`).
-/

namespace WaferRun

def databaseUnavailable : String := "database.unavailable"

/-- The only detail of a cause that is told. -/
def refusalDetail (detailCode : Option String) : Option String :=
  if detailCode = some databaseUnavailable then some databaseUnavailable else none

def unavailableMessage (block reference : String) : String :=
  "block `" ++ block ++ "` is temporarily unavailable (ref: " ++ reference ++ ")"

def failedMessage (block reference : String) : String :=
  "block `" ++ block ++ "` failed to initialize (ref: " ++ reference ++ ")"

/-- In whole seconds, rounded up, and at least one. -/
def retryAfterMeta (retryIn : ℕ) : MetaEntry :=
  ⟨metaRespHeaderPrefix ++ "Retry-After", toString (max ((retryIn + 10 ^ 9 - 1) / 10 ^ 9) 1)⟩

def detailCodeMeta (code : Option String) : List MetaEntry :=
  (code.map fun code ↦ ⟨metaErrorCode, code⟩).toList

/-- The answer of a dispatch for an init that failed. -/
def initErrorToWaferError (block reference : String) (e : InitError) (retryIn : Option ℕ) :
    WaferError :=
  match e with
  | .permanent _ => .new .failedPrecondition (failedMessage block reference)
  | .transient failure =>
    ⟨.unavailable, unavailableMessage block reference,
      detailCodeMeta (refusalDetail failure.detailCode) ++ (retryIn.map retryAfterMeta).toList⟩
  | .cycle _ => .new .failedPrecondition (failedMessage block reference)

inductive BlockInitState
  | notInitialized
  | initializing
  | ready
  | retrying (failure : TransientFailure) (retryIn : ℕ)
  | failed (reason : String)
deriving DecidableEq, Repr

/-- The answer of a dispatch that may not wait for an init. -/
def notInitializedError (block reference : String) (state : BlockInitState) : WaferError :=
  let detailCode :=
    match state with
    | .retrying failure _ => failure.detailCode
    | .failed _ | .notInitialized | .initializing | .ready => none
  ⟨.unavailable, unavailableMessage block reference, detailCodeMeta (refusalDetail detailCode)⟩

def IsInitRefusal (err : WaferError) : Prop :=
  ∃ block reference,
    (∃ e retryIn, err = initErrorToWaferError block reference e retryIn) ∨
      ∃ state, err = notInitializedError block reference state

/-! ## What a refusal carries -/

theorem sendable_of_mem_detailCodeMeta {code : Option String} {x : MetaEntry}
    (h : x ∈ detailCodeMeta code) : Sendable x := by
  obtain ⟨code, -, rfl⟩ := Option.map_eq_some_iff.mp (Option.mem_toList.mp h)
  apply sendable_of_key <;> dsimp only <;> decide

theorem isFieldValue_toString (n : ℕ) : isFieldValue (toString n).toList = true := by
  rw [Nat.toString_eq_ofList_toDigits, String.toList_ofList, isFieldValue, List.all_eq_true]
  intro c hc
  exact isFieldChar_of_isDigit (Nat.isDigit_of_mem_toDigits (by decide) (by decide) hc)

theorem sendable_retryAfterMeta (retryIn : ℕ) : Sendable (retryAfterMeta retryIn) :=
  sendable_of_keyKind (by decide) (isFieldValue_toString _)

theorem IsInitRefusal.sendable {err : WaferError} (h : IsInitRefusal err) :
    ∀ x ∈ err.entries, Sendable x := by
  obtain ⟨block, reference, ⟨e, retryIn, rfl⟩ | ⟨state, rfl⟩⟩ := h
  · cases e with
    | permanent msg => exact fun x hx ↦ absurd hx List.not_mem_nil
    | cycle path => exact fun x hx ↦ absurd hx List.not_mem_nil
    | transient failure =>
      intro x hx
      rcases List.mem_append.mp hx with hx | hx
      · exact sendable_of_mem_detailCodeMeta hx
      · obtain ⟨wait, -, rfl⟩ := Option.map_eq_some_iff.mp (Option.mem_toList.mp hx)
        exact sendable_retryAfterMeta wait
  · exact fun x hx ↦ sendable_of_mem_detailCodeMeta hx

end WaferRun
