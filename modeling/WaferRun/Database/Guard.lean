import Mathlib.Algebra.BigOperators.Group.List.Basic
import Mathlib.Algebra.Order.Group.Int
import Mathlib.Algebra.Ring.Int.Defs

/-!
# Guarded writes

A guarded write is one transaction: it takes the lock of the table, asks every guard for its
verdict, writes if all guards hold, and asks again. Each guard caps a count or a sum over the rows
that match its filters, as they are before the write.

This file has the statements of the transaction, what they answer, and how the answers are read.
How a database evaluates a filter or a column of a row is left open (`Store`).
-/

namespace WaferRun.Database

inductive Backend
  | sqlite
  | postgres
deriving DecidableEq, Repr

inductive CapGuard (Filter : Type)
  | countBelow (filters : List Filter) (cap : ℤ)
  | sumAtMost (field : String) (filters : List Filter) (add cap : ℤ)

inductive ResultRow (Row : Type)
  | stored (row : Row)
  | verdicts (data : List (String × ℤ))

/-- What a statement of a transaction answers. -/
inductive TxResult (Row : Type)
  | execute (rowsAffected : ℕ)
  | returning (rows : List (ResultRow Row))

/-- The database, the table that is written, and how results are printed in messages. -/
structure Store (Row Filter : Type) where
  backend : Backend
  table : String
  satisfies : Filter → Row → Bool
  /-- The number a row has in a column, unless it is `NULL`. -/
  value : Row → String → Option ℤ
  debugRow : ResultRow Row → String
  debugResult : TxResult Row → String

variable {Row Filter : Type}

namespace Store

variable (store : Store Row Filter)

def selects (filters : List Filter) (row : Row) : Bool := filters.all (store.satisfies · row)

/-- `COUNT(*)` over the rows that match. -/
def count (filters : List Filter) (rows : List Row) : ℕ := rows.countP (store.selects filters)

/-- `SUM(field)` over the rows that match: `NULL` values are skipped, and the sum of nothing is
`NULL`. -/
def sum (field : String) (filters : List Filter) (rows : List Row) : Option ℤ :=
  match (rows.filter (store.selects filters)).filterMap (store.value · field) with
  | [] => none
  | values => some values.sum

def contribution (field : String) (filters : List Filter) (row : Row) : ℤ :=
  if store.selects filters row then (store.value row field).getD 0 else 0

def holds (rows : List Row) : CapGuard Filter → Bool
  | .countBelow filters cap => (store.count filters rows : ℤ) < cap
  | .sumAtMost field filters add cap => (store.sum field filters rows).getD 0 + add ≤ cap

def allHold (guards : List (CapGuard Filter)) (rows : List Row) : Bool :=
  guards.all (store.holds rows)

theorem count_append (filters : List Filter) (rows : List Row) (row : Row) :
    store.count filters (rows ++ [row]) =
      store.count filters rows + if store.selects filters row then 1 else 0 := by
  rw [count, count, List.countP_append, List.countP_singleton]

theorem getD_sum (field : String) (filters : List Filter) (rows : List Row) :
    (store.sum field filters rows).getD 0 =
      ((rows.filter (store.selects filters)).filterMap (store.value · field)).sum := by
  rw [sum]
  split
  · rename_i h
    rw [h]
    rfl
  · rfl

theorem sum_append (field : String) (filters : List Filter) (rows : List Row) (row : Row) :
    (store.sum field filters (rows ++ [row])).getD 0 =
      (store.sum field filters rows).getD 0 + store.contribution field filters row := by
  rw [getD_sum, getD_sum, List.filter_append, List.filterMap_append, List.sum_append, contribution]
  congr 1
  by_cases h : store.selects filters row
  · cases hv : store.value row field <;> simp [h, hv]
  · simp [h]

end Store

/-! ## The statements of a guarded write -/

inductive Request (Row Filter : Type)
  | insert (row : Row) (guards : List (CapGuard Filter))
  | update (filters : List Filter) (set : Row → Row) (guards : List (CapGuard Filter))

def Request.guards : Request Row Filter → List (CapGuard Filter)
  | .insert _ guards => guards
  | .update _ _ guards => guards

/-- A statement of the transaction. The probe and the write are those of the request. -/
inductive Statement
  | setReadCommitted
  | advisoryLock
  | probe
  | write
deriving DecidableEq, Repr

def buildGuardPreamble : Backend → List Statement
  | .sqlite => []
  | .postgres => [.setReadCommitted, .advisoryLock]

def statements (backend : Backend) (request : Request Row Filter) : List Statement :=
  buildGuardPreamble backend ++
    if request.guards.isEmpty then [.write] else [.probe, .write, .probe]

def guardProbeColumn (index : ℕ) : String := "g" ++ toString index

theorem guardProbeColumn_inj {i j : ℕ} : guardProbeColumn i = guardProbeColumn j ↔ i = j := by
  rw [guardProbeColumn, guardProbeColumn]
  constructor
  · intro h
    have hrepr : Nat.repr i = Nat.repr j := by simpa [String.append_right_inj] using h
    have hdigits : Nat.toDigits 10 i = Nat.toDigits 10 j := by
      rw [← Nat.toList_repr, hrepr, Nat.toList_repr]
    rw [← Nat.ofDigitChars_ten_toDigits (n := i), hdigits, Nat.ofDigitChars_ten_toDigits]
  · rintro rfl
    rfl

section Answers

variable (store : Store Row Filter)

def buildGuardProbe (guards : List (CapGuard Filter)) (rows : List Row) : ResultRow Row :=
  .verdicts (guards.mapIdx fun i g ↦ (guardProbeColumn i, if store.holds rows g then 1 else 0))

def Request.touches (request : Request Row Filter) (rows : List Row) : ℕ :=
  match request with
  | .insert _ guards => if store.allHold guards rows then 1 else 0
  | .update filters _ guards => if store.allHold guards rows then store.count filters rows else 0

def Request.answer (request : Request Row Filter) (rows : List Row) : TxResult Row :=
  match request with
  | .insert row guards => .returning (if store.allHold guards rows then [.stored row] else [])
  | .update .. => .execute (request.touches store rows)

/-- The table after the write. -/
def Request.apply (request : Request Row Filter) (rows : List Row) : List Row :=
  match request with
  | .insert row _ => rows ++ [row]
  | .update filters set _ => rows.map fun row ↦ if store.selects filters row then set row else row

/-! ## Reading the answers -/

def ResultRow.get (column : String) : ResultRow Row → Option ℤ
  | .verdicts data => (data.find? fun p ↦ p.1 = column).map Prod.snd
  | .stored _ => none

def refusingFrom (row : ResultRow Row) : ℕ → ℕ → Except String (Option ℕ)
  | _, 0 => .ok none
  | index, n + 1 =>
    match row.get (guardProbeColumn index) with
    | some 1 => refusingFrom row (index + 1) n
    | some 0 => .ok (some index)
    | _ =>
      .error ("the guard probe's " ++ guardProbeColumn index ++ " is not 0 or 1: " ++
        store.debugRow row)

def firstRefusingGuard (probe : TxResult Row) (guards : ℕ) : Except String (Option ℕ) :=
  match probe with
  | .returning (row :: _) => refusingFrom store row 0 guards
  | .returning [] => .error "the guard probe returned no row"
  | .execute _ =>
    .error ("run_transaction returned " ++ store.debugResult probe ++ " for the guard probe")

def runGuarded (request : Request Row Filter) (results : List (TxResult Row)) :
    Except String (TxResult Row × Option ℕ) :=
  let ops := statements store.backend request
  if results.length ≠ ops.length then
    .error ("run_transaction returned " ++ toString results.length ++ " results for " ++
      toString ops.length ++ " statements")
  else
    let results := results.drop (buildGuardPreamble store.backend).length
    if request.guards.isEmpty then
      match results with
      | write :: _ => .ok (write, none)
      | [] => .error "run_transaction returned no write result"
    else
      match results with
      | before :: write :: after :: _ => do
        match ← firstRefusingGuard store before request.guards.length with
        | some index => .ok (write, some index)
        | none => .ok (write, ← firstRefusingGuard store after request.guards.length)
      | _ => .error "run_transaction returned too few results for a guarded write"

inductive GuardedInsert (Row : Type)
  | inserted (row : ResultRow Row)
  | refused (guard : ℕ)

inductive GuardedUpdate
  | updated (rowsAffected : ℕ)
  | refused (guard : ℕ)
  | noMatch

def insertGuarded (result : TxResult Row × Option ℕ) : Except String (GuardedInsert Row) :=
  match result with
  | (.returning (row :: _), _) => .ok (.inserted row)
  | (.returning [], some guard) => .ok (.refused guard)
  | (.returning [], none) =>
    .error ("guarded insert into " ++ store.table ++ " wrote nothing, yet every guard held both " ++
      "before and after it: unguarded writes changed the table and changed it back")
  | (.execute n, _) =>
    .error ("run_transaction returned " ++ store.debugResult (.execute n) ++ " for a guarded insert")

def updateGuarded (result : TxResult Row × Option ℕ) : Except String GuardedUpdate :=
  match result with
  | (.execute rowsAffected, refused) =>
    if rowsAffected > 0 then .ok (.updated rowsAffected)
    else
      match refused with
      | some guard => .ok (.refused guard)
      | none => .ok .noMatch
  | (.returning rows, _) =>
    .error ("run_transaction returned " ++ store.debugResult (.returning rows) ++
      " for a guarded update")

/-- How a guarded write ends. An error is an internal error with a message. -/
inductive Outcome (Row : Type)
  | insert (result : Except String (GuardedInsert Row))
  | update (result : Except String GuardedUpdate)

def outcome (request : Request Row Filter) (results : List (TxResult Row)) : Outcome Row :=
  match request with
  | .insert .. => .insert (runGuarded store request results >>= insertGuarded store)
  | .update .. => .update (runGuarded store request results >>= updateGuarded store)

/-! ## What the answers say -/

def firstRefusing (guards : List (CapGuard Filter)) (rows : List Row) : Option ℕ :=
  guards.findIdx? fun g ↦ !store.holds rows g

variable {store} {rows : List Row} {guards : List (CapGuard Filter)}

theorem find?_mapIdx_column (guards : List (CapGuard Filter)) (verdict : CapGuard Filter → ℤ)
    (offset i : ℕ) :
    (guards.mapIdx fun j g ↦ (guardProbeColumn (j + offset), verdict g)).find?
        (fun p ↦ p.1 = guardProbeColumn (i + offset)) =
      guards[i]?.map fun g ↦ (guardProbeColumn (i + offset), verdict g) := by
  induction guards generalizing offset i with
  | nil => rfl
  | cons g guards ih =>
    rw [List.mapIdx_cons]
    cases i with
    | zero => simp
    | succ i =>
      have hne : ¬guardProbeColumn (0 + offset) = guardProbeColumn (i + 1 + offset) := by
        rw [guardProbeColumn_inj]
        omega
      rw [List.find?_cons_of_neg (by simpa using hne), List.getElem?_cons_succ]
      have hshift : ∀ j, j + 1 + offset = j + (offset + 1) := fun j ↦ by omega
      simp only [hshift]
      exact ih (offset + 1) i

theorem get_buildGuardProbe (i : ℕ) :
    (buildGuardProbe store guards rows).get (guardProbeColumn i) =
      guards[i]?.map fun g ↦ if store.holds rows g then 1 else 0 := by
  have h := find?_mapIdx_column guards (fun g ↦ if store.holds rows g then 1 else 0) 0 i
  simp only [Nat.add_zero] at h
  rw [buildGuardProbe, ResultRow.get, h, Option.map_map]
  rfl

theorem refusingFrom_buildGuardProbe {index n : ℕ} (h : index + n = guards.length) :
    refusingFrom store (buildGuardProbe store guards rows) index n =
      .ok (((guards.drop index).findIdx? fun g ↦ !store.holds rows g).map (· + index)) := by
  induction n generalizing index with
  | zero =>
    rw [List.drop_of_length_le (by omega)]
    rfl
  | succ n ih =>
    have hlt : index < guards.length := by omega
    rw [refusingFrom, get_buildGuardProbe, List.getElem?_eq_getElem hlt,
      List.drop_eq_getElem_cons hlt, List.findIdx?_cons]
    by_cases hg : store.holds rows guards[index] = true
    · simp only [hg, if_true, Option.map_some, Bool.not_true, Bool.false_eq_true, if_false]
      rw [ih (by omega), Option.map_map]
      congr 2
      funext k
      simp only [Function.comp_apply]
      omega
    · simp only [hg, Option.map_some, Bool.not_false, if_true]
      simp

theorem firstRefusingGuard_probe :
    firstRefusingGuard store (.returning [buildGuardProbe store guards rows]) guards.length =
      .ok (firstRefusing store guards rows) := by
  rw [firstRefusingGuard, refusingFrom_buildGuardProbe (Nat.zero_add _), List.drop_zero]
  simp [firstRefusing]

theorem firstRefusing_eq_none : firstRefusing store guards rows = none ↔
    store.allHold guards rows = true := by
  rw [firstRefusing, List.findIdx?_eq_none_iff, Store.allHold, List.all_eq_true]
  simp

theorem not_holds_of_firstRefusing {i : ℕ} (h : firstRefusing store guards rows = some i) :
    ∃ g, guards[i]? = some g ∧ store.holds rows g = false := by
  obtain ⟨hi, hg, -⟩ := List.findIdx?_eq_some_iff_getElem.mp h
  exact ⟨guards[i], List.getElem?_eq_getElem hi, by simpa using hg⟩

end Answers

end WaferRun.Database
