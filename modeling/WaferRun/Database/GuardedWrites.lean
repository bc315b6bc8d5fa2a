import WaferRun.Database.Guard
import WaferRun.Lib.Actions

/-!
# Guarded writes do not breach their caps

Any number of guarded writes to one table run at the same time, each in a transaction of its own.
A statement of a transaction reads the rows that are committed when it starts, if the isolation
level is `READ COMMITTED`; under any other level it reads the rows that were committed when the
transaction began. In both cases it sees what its own transaction has written.

The lock of the table makes the guarded writes serial. From the moment a transaction has it until
the transaction ends, no other guarded write commits, so all three statements of a write read the
same rows, and the write does what it would do alone. This is where the first statement of the
preamble matters: without it a transaction could read rows from before it was granted the lock.

Writes without guards do not take the lock. Against them a guard is only as good as the rows its
statements have read, and the invariants are stated with that difference.
-/

open List

namespace WaferRun.Database

variable {Row Filter : Type}

/-! ## Transactions -/

inductive Isolation
  | readCommitted
  | repeatableRead
  | serializable
deriving DecidableEq, Repr

/-- What a transaction has been answered, and whether its write has changed anything. -/
structure Progress (Row : Type) where
  results : List (TxResult Row)
  wrote : Bool

def Progress.effect (store : Store Row Filter) (request : Request Row Filter) (p : Progress Row)
    (rows : List Row) : List Row :=
  if p.wrote then request.apply store rows else rows

def Progress.advance (store : Store Row Filter) (request : Request Row Filter) (base : List Row)
    (p : Progress Row) : Statement → Progress Row
  | .setReadCommitted => { p with results := p.results ++ [.execute 0] }
  | .advisoryLock => { p with results := p.results ++ [.execute 1] }
  | .probe =>
    { p with results := p.results ++
        [.returning [buildGuardProbe store request.guards (p.effect store request base)]] }
  | .write =>
    let view := p.effect store request base
    ⟨p.results ++ [request.answer store view], 0 < request.touches store view⟩

/-- How far a transaction is. A committed transaction keeps the rows before and after its commit. -/
inductive Status (Row : Type)
  | running
  | committed (before after : List Row) (outcome : Outcome Row)
  | failed

structure Txn (Row Filter : Type) where
  request : Request Row Filter
  isolation : Isolation
  /-- The rows that were committed when the transaction began. -/
  snapshot : List Row
  todo : List Statement
  progress : Progress Row
  status : Status Row
  /-- The rows each statement was performed on. The code does not keep them. -/
  seen : List (List Row)

/-- A table, the transaction that holds its lock, and all transactions so far. -/
structure Writers (Row Filter : Type) where
  rows : List Row
  lock : Option ℕ
  txns : List (Txn Row Filter)

inductive WriteAct (Row Filter : Type)
  /-- A guarded write begins. The isolation level is the default of the server. -/
  | begin (request : Request Row Filter) (isolation : Isolation)
  /-- A transaction performs its next statement. -/
  | exec (i : ℕ)
  /-- A transaction commits. Its client may not learn of it. -/
  | commit (i : ℕ) (acknowledged : Bool)
  /-- A transaction fails and is rolled back. -/
  | abort (i : ℕ)
  /-- A write without guards commits. -/
  | unguarded (rows : List Row)

namespace Txn

variable (store : Store Row Filter) (txn : Txn Row Filter)

def base (rows : List Row) : List Row :=
  if txn.isolation = .readCommitted then rows else txn.snapshot

def exec (rows : List Row) (st : Statement) (rest : List Statement) : Txn Row Filter :=
  { txn with
    isolation := if st = .setReadCommitted then .readCommitted else txn.isolation
    todo := rest
    progress := txn.progress.advance store txn.request (txn.base rows) st
    seen := txn.seen ++ [txn.base rows] }

end Txn

namespace Writers

variable (store : Store Row Filter) (s : Writers Row Filter)

def released (i : ℕ) : Option ℕ := if s.lock = some i then none else s.lock

/-- One move. On SQLite a transaction holds the one write lock of the database from its start, so
nothing else is written meanwhile. -/
def step : WriteAct Row Filter → Option (Writers Row Filter)
  | .begin request isolation =>
    let txn := ⟨request, isolation, s.rows, statements store.backend request, ⟨[], false⟩, .running,
      []⟩
    match store.backend with
    | .sqlite =>
      if s.lock = none then
        some { s with lock := some s.txns.length, txns := s.txns ++ [txn] }
      else none
    | .postgres => some { s with txns := s.txns ++ [txn] }
  | .exec i =>
    s.txns[i]?.bind fun txn ↦
      match txn.status, txn.todo with
      | .running, st :: rest =>
        if st = .advisoryLock ∧ s.lock ≠ none then none
        else
          some { s with
            lock := if st = .advisoryLock then some i else s.lock
            txns := s.txns.set i (txn.exec store s.rows st rest) }
      | _, _ => none
  | .commit i acknowledged =>
    s.txns[i]?.bind fun txn ↦
      match txn.status, txn.todo with
      | .running, [] =>
        let after := txn.progress.effect store txn.request s.rows
        some
          { rows := after
            lock := s.released i
            txns := s.txns.set i
              { txn with
                status :=
                  if acknowledged then
                    .committed s.rows after (outcome store txn.request txn.progress.results)
                  else .failed } }
      | _, _ => none
  | .abort i =>
    s.txns[i]?.bind fun txn ↦
      match txn.status with
      | .running =>
        some { s with lock := s.released i, txns := s.txns.set i { txn with status := .failed } }
      | _ => none
  | .unguarded rows =>
    if store.backend = .sqlite ∧ s.lock ≠ none then none else some { s with rows := rows }

def init (rows : List Row) : Writers Row Filter := ⟨rows, none, []⟩

end Writers

/-! ## What a finished transaction has been answered -/

def replay (store : Store Row Filter) (request : Request Row Filter) (done : List Statement)
    (seen : List (List Row)) : Progress Row :=
  (done.zip seen).foldl (fun p q ↦ p.advance store request q.2 q.1) ⟨[], false⟩

theorem replay_append {store : Store Row Filter} {request : Request Row Filter}
    {done more : List Statement} {seen others : List (List Row)} (h : done.length = seen.length) :
    replay store request (done ++ more) (seen ++ others) =
      (more.zip others).foldl (fun p q ↦ p.advance store request q.2 q.1)
        (replay store request done seen) := by
  rw [replay, zip_append h, foldl_append]
  rfl

theorem replay_preamble {store : Store Row Filter} (request : Request Row Filter)
    {seen : List (List Row)} (h : (buildGuardPreamble store.backend).length = seen.length) :
    ∃ results, replay store request (buildGuardPreamble store.backend) seen = ⟨results, false⟩ ∧
      results.length = (buildGuardPreamble store.backend).length := by
  cases hb : store.backend with
  | sqlite => exact ⟨[], rfl, rfl⟩
  | postgres =>
    rw [hb] at h
    obtain ⟨a, b, rfl⟩ := length_eq_two.mp h.symm
    exact ⟨_, rfl, rfl⟩

structure Txn.Sound (store : Store Row Filter) (txn : Txn Row Filter) : Prop where
  progress : ∃ done, statements store.backend txn.request = done ++ txn.todo ∧
    done.length = txn.seen.length ∧ txn.progress = replay store txn.request done txn.seen
  committed : ∀ before after o, txn.status = .committed before after o →
    txn.todo = [] ∧ after = txn.progress.effect store txn.request before ∧
      o = outcome store txn.request txn.progress.results

/-- The rows the statements after the preamble were performed on. -/
def Txn.read (store : Store Row Filter) (txn : Txn Row Filter) : List (List Row) :=
  txn.seen.drop (buildGuardPreamble store.backend).length

section Finished

variable {store : Store Row Filter} {txn : Txn Row Filter}

theorem Txn.Sound.exists_finished (h : txn.Sound store) (htodo : txn.todo = []) :
    ∃ results, results.length = (buildGuardPreamble store.backend).length ∧
      (txn.read store).length = (if txn.request.guards.isEmpty then 1 else 3) ∧
      txn.progress = ((if txn.request.guards.isEmpty then [.write] else [.probe, .write, .probe]).zip
        (txn.read store)).foldl (fun p q ↦ p.advance store txn.request q.2 q.1) ⟨results, false⟩ := by
  obtain ⟨done, hdone, hlength, hprogress⟩ := h.progress
  rw [htodo, append_nil, statements] at hdone
  subst hdone
  rw [length_append] at hlength
  have htake : (buildGuardPreamble store.backend).length =
      (txn.seen.take (buildGuardPreamble store.backend).length).length := by
    rw [length_take]
    omega
  obtain ⟨results, hpre, hresults⟩ := replay_preamble txn.request htake
  refine ⟨results, hresults, ?_, ?_⟩
  · rw [Txn.read, length_drop, ← hlength, Nat.add_sub_cancel_left]
    split <;> rfl
  · rw [hprogress, Txn.read, ← hpre, ← replay_append htake, take_append_drop]

theorem runGuarded_of_write {request : Request Row Filter} (hguards : request.guards = [])
    {pre : List (TxResult Row)} (hpre : pre.length = (buildGuardPreamble store.backend).length)
    (write : TxResult Row) :
    runGuarded store request (pre ++ [write]) = .ok (write, none) := by
  have hlength : (pre ++ [write]).length = (statements store.backend request).length := by
    simp [statements, hguards, hpre]
  simp only [runGuarded, hlength, ne_eq, not_true_eq_false, if_false, ← hpre, drop_left,
    hguards, isEmpty_nil, if_true]

theorem runGuarded_of_probes {request : Request Row Filter} (hguards : request.guards ≠ [])
    {pre : List (TxResult Row)} (hpre : pre.length = (buildGuardPreamble store.backend).length)
    (before after : List Row) (write : TxResult Row) :
    runGuarded store request (pre ++ [.returning [buildGuardProbe store request.guards before],
        write, .returning [buildGuardProbe store request.guards after]]) =
      .ok (write, (firstRefusing store request.guards before).or
        (firstRefusing store request.guards after)) := by
  have hne : request.guards.isEmpty = false := by simpa using hguards
  have hlength : (pre ++ [.returning [buildGuardProbe store request.guards before],
      write, .returning [buildGuardProbe store request.guards after]]).length =
      (statements store.backend request).length := by
    simp [statements, hguards, hpre]
  simp only [runGuarded, hlength, ne_eq, not_true_eq_false, if_false, ← hpre, drop_left, hne,
    Bool.false_eq_true, firstRefusingGuard_probe]
  cases firstRefusing store request.guards before <;> rfl

theorem Txn.Sound.finished_unguarded (h : txn.Sound store) (htodo : txn.todo = [])
    (hguards : txn.request.guards = []) :
    ∃ rows, txn.read store = [rows] ∧
      txn.progress.wrote = decide (0 < txn.request.touches store rows) ∧
      runGuarded store txn.request txn.progress.results =
        .ok (txn.request.answer store rows, none) := by
  obtain ⟨results, hresults, hlength, hprogress⟩ := h.exists_finished htodo
  simp only [hguards, isEmpty_nil, if_true] at hlength hprogress
  obtain ⟨rows, hrows⟩ := length_eq_one_iff.mp hlength
  rw [hrows] at hprogress
  refine ⟨rows, hrows, by rw [hprogress]; rfl, ?_⟩
  rw [hprogress]
  exact runGuarded_of_write hguards hresults _

theorem Txn.Sound.finished_guarded (h : txn.Sound store) (htodo : txn.todo = [])
    (hguards : txn.request.guards ≠ []) :
    ∃ before rows after, txn.read store = [before, rows, after] ∧
      txn.progress.wrote = decide (0 < txn.request.touches store rows) ∧
      runGuarded store txn.request txn.progress.results =
        .ok (txn.request.answer store rows,
          (firstRefusing store txn.request.guards before).or
            (firstRefusing store txn.request.guards
              (txn.progress.effect store txn.request after))) := by
  obtain ⟨results, hresults, hlength, hprogress⟩ := h.exists_finished htodo
  have hne : txn.request.guards.isEmpty = false := by simpa using hguards
  simp only [hne, Bool.false_eq_true, if_false] at hlength hprogress
  obtain ⟨before, rows, after, hrows⟩ := length_eq_three.mp hlength
  rw [hrows] at hprogress
  refine ⟨before, rows, after, hrows, by rw [hprogress]; rfl, ?_⟩
  rw [hprogress]
  simp only [zip_cons_cons, zip_nil_right, foldl_cons, foldl_nil,
    Progress.advance, append_assoc, singleton_append]
  exact runGuarded_of_probes hguards hresults _ _ _

/-- How the answer of the write and the guard that refused it are read. -/
def conclude (store : Store Row Filter) (request : Request Row Filter)
    (result : TxResult Row × Option ℕ) : Outcome Row :=
  match request with
  | .insert .. => .insert (insertGuarded store result)
  | .update .. => .update (updateGuarded store result)

theorem outcome_eq_conclude {request : Request Row Filter} {results : List (TxResult Row)}
    {result : TxResult Row × Option ℕ} (h : runGuarded store request results = .ok result) :
    outcome store request results = conclude store request result := by
  cases request <;> rw [outcome, h] <;> rfl

def Outcome.refusedBy : Outcome Row → Option ℕ
  | .insert (.ok (.refused guard)) | .update (.ok (.refused guard)) => some guard
  | _ => none

theorem refusedBy_conclude (request : Request Row Filter) (rows : List Row) (refused : Option ℕ) :
    (conclude store request (request.answer store rows, refused)).refusedBy =
      if 0 < request.touches store rows then none else refused := by
  cases request with
  | insert row guards =>
    rw [conclude, Request.answer, Request.touches]
    split
    · rfl
    · cases refused <;> rfl
  | update filters set guards =>
    by_cases h : 0 < (Request.update filters set guards).touches store rows
    · simp [conclude, Request.answer, updateGuarded, h, Outcome.refusedBy]
    · cases refused <;> simp [conclude, Request.answer, updateGuarded, h, Outcome.refusedBy]

theorem conclude_of_touches {request : Request Row Filter} {rows : List Row}
    (h : 0 < request.touches store rows) (refused refused' : Option ℕ) :
    conclude store request (request.answer store rows, refused) =
      conclude store request (request.answer store rows, refused') := by
  cases request with
  | insert row guards =>
    have hall : store.allHold guards rows = true := by
      by_contra hne
      rw [Request.touches, if_neg hne] at h
      exact absurd h (lt_irrefl 0)
    simp [conclude, Request.answer, insertGuarded, hall]
  | update filters set guards => simp [conclude, Request.answer, updateGuarded, h]

/-- A write that is refused leaves the table as it was, and the guard it names did not hold when the
transaction asked for it. -/
theorem Txn.Sound.refused (h : txn.Sound store) {before after : List Row} {o : Outcome Row}
    (hstatus : txn.status = .committed before after o) {i : ℕ} (hi : o.refusedBy = some i) :
    after = before ∧ ∃ rows ∈ txn.read store, ∃ guard, txn.request.guards[i]? = some guard ∧
      store.holds rows guard = false := by
  obtain ⟨htodo, rfl, rfl⟩ := h.committed _ _ _ hstatus
  by_cases hguards : txn.request.guards = []
  · obtain ⟨rows, -, -, hrun⟩ := h.finished_unguarded htodo hguards
    rw [outcome_eq_conclude hrun, refusedBy_conclude, ite_self] at hi
    cases hi
  · obtain ⟨first, rows, second, hread, hwrote, hrun⟩ := h.finished_guarded htodo hguards
    rw [outcome_eq_conclude hrun, refusedBy_conclude] at hi
    split at hi
    · cases hi
    · rename_i htouches
      have hsame : ∀ base, txn.progress.effect store txn.request base = base := by
        intro base
        rw [Progress.effect, hwrote, decide_eq_false htouches]
        rfl
      rw [hsame] at hi
      refine ⟨hsame _, ?_⟩
      rw [hread]
      rcases Option.or_eq_some_iff.mp hi with hi | ⟨-, hi⟩
      · exact ⟨first, by simp, not_holds_of_firstRefusing hi⟩
      · exact ⟨second, by simp, not_holds_of_firstRefusing hi⟩

/-! ## Guarded writes, one after another -/

/-- What a guarded write does when nothing else is going on. -/
def serially (store : Store Row Filter) (request : Request Row Filter) (rows : List Row) :
    List Row × Outcome Row :=
  match request with
  | .insert row guards =>
    match firstRefusing store guards rows with
    | none => (rows ++ [row], .insert (.ok (.inserted (.stored row))))
    | some guard => (rows, .insert (.ok (.refused guard)))
  | .update filters _ guards =>
    match firstRefusing store guards rows with
    | none =>
      if 0 < store.count filters rows then
        (request.apply store rows, .update (.ok (.updated (store.count filters rows))))
      else (rows, .update (.ok .noMatch))
    | some guard => (rows, .update (.ok (.refused guard)))

theorem conclude_eq_serially (request : Request Row Filter) (rows : List Row) :
    (if 0 < request.touches store rows then request.apply store rows else rows,
      conclude store request
        (request.answer store rows, firstRefusing store request.guards rows)) =
      serially store request rows := by
  cases request with
  | insert row guards =>
    cases hf : firstRefusing store guards rows with
    | none =>
      have hall := firstRefusing_eq_none.mp hf
      simp [serially, Request.touches, Request.answer, Request.apply, conclude, hall, hf,
        insertGuarded]
    | some i =>
      have hall : store.allHold guards rows = false := by
        by_contra hne
        rw [firstRefusing_eq_none.mpr (by simpa using hne)] at hf
        cases hf
      simp [serially, Request.touches, Request.answer, conclude, hall, hf, insertGuarded,
        Request.guards]
  | update filters set guards =>
    cases hf : firstRefusing store guards rows with
    | none =>
      have hall := firstRefusing_eq_none.mp hf
      by_cases hcount : 0 < store.count filters rows
      · simp [serially, Request.touches, Request.answer, conclude, hall, hf, updateGuarded, hcount]
      · simp [serially, Request.touches, Request.answer, conclude, hall, hf, updateGuarded, hcount,
          Request.guards]
    | some i =>
      have hall : store.allHold guards rows = false := by
        by_contra hne
        rw [firstRefusing_eq_none.mpr (by simpa using hne)] at hf
        cases hf
      simp [serially, Request.touches, Request.answer, conclude, hall, hf, updateGuarded,
        Request.guards]

/-- A transaction all of whose statements were performed on the same rows does what it would do
alone. -/
theorem Txn.Sound.eq_serially (h : txn.Sound store) (htodo : txn.todo = []) {rows : List Row}
    (hread : ∀ base ∈ txn.read store, base = rows) :
    (txn.progress.effect store txn.request rows,
      outcome store txn.request txn.progress.results) = serially store txn.request rows := by
  rw [← conclude_eq_serially, Progress.effect]
  by_cases hguards : txn.request.guards = []
  · obtain ⟨base, hbase, hwrote, hrun⟩ := h.finished_unguarded htodo hguards
    obtain rfl : base = rows := hread base (by rw [hbase]; simp)
    have hnone : firstRefusing store txn.request.guards base = none := by
      rw [hguards]
      rfl
    rw [outcome_eq_conclude hrun, hwrote, hnone]
    simp
  · obtain ⟨first, base, second, hbase, hwrote, hrun⟩ := h.finished_guarded htodo hguards
    obtain rfl : first = rows := hread first (by rw [hbase]; simp)
    obtain rfl : base = first := hread base (by rw [hbase]; simp)
    obtain rfl : second = base := hread second (by rw [hbase]; simp)
    rw [outcome_eq_conclude hrun, Progress.effect, hwrote]
    by_cases htouches : 0 < txn.request.touches store second
    · rw [conclude_of_touches htouches _ (firstRefusing store txn.request.guards second)]
      simp
    · simp [htouches]

end Finished

/-! ## The moves of the writers -/

/-- A transaction that begins. -/
def Txn.start (store : Store Row Filter) (request : Request Row Filter) (isolation : Isolation)
    (rows : List Row) : Txn Row Filter :=
  ⟨request, isolation, rows, statements store.backend request, ⟨[], false⟩, .running, []⟩

inductive Writers.Move (store : Store Row Filter) (s : Writers Row Filter) :
    WriteAct Row Filter → Writers Row Filter → Prop
  | begin (request : Request Row Filter) (isolation : Isolation)
      (hlock : store.backend = .sqlite → s.lock = none) :
      Move store s (.begin request isolation)
        { s with
          lock := if store.backend = .sqlite then some s.txns.length else s.lock
          txns := s.txns ++ [Txn.start store request isolation s.rows] }
  | exec {i : ℕ} {txn : Txn Row Filter} {st : Statement} {rest : List Statement}
      (htxn : s.txns[i]? = some txn) (hrunning : txn.status = .running)
      (htodo : txn.todo = st :: rest) (hlock : st = .advisoryLock → s.lock = none) :
      Move store s (.exec i)
        { s with
          lock := if st = .advisoryLock then some i else s.lock
          txns := s.txns.set i (txn.exec store s.rows st rest) }
  | commit {i : ℕ} {txn : Txn Row Filter} {status : Status Row} (acknowledged : Bool)
      (htxn : s.txns[i]? = some txn) (hrunning : txn.status = .running) (htodo : txn.todo = [])
      (hstatus : status = .committed s.rows (txn.progress.effect store txn.request s.rows)
        (outcome store txn.request txn.progress.results) ∨ status = .failed) :
      Move store s (.commit i acknowledged)
        ⟨txn.progress.effect store txn.request s.rows, s.released i,
          s.txns.set i { txn with status := status }⟩
  | abort {i : ℕ} {txn : Txn Row Filter} (htxn : s.txns[i]? = some txn)
      (hrunning : txn.status = .running) :
      Move store s (.abort i)
        { s with lock := s.released i, txns := s.txns.set i { txn with status := .failed } }
  | unguarded (rows : List Row) : Move store s (.unguarded rows) { s with rows := rows }

section Moves

variable {store : Store Row Filter} {s t : Writers Row Filter} {a : WriteAct Row Filter}

theorem Writers.move_of_step (h : s.step store a = some t) : s.Move store a t := by
  cases a with
  | begin request isolation =>
    rw [step] at h
    cases hb : store.backend with
    | sqlite =>
      simp only [hb] at h
      split at h
      · rename_i hlock
        cases h
        have hmove : s.Move store _ _ := Move.begin request isolation fun _ ↦ hlock
        rw [if_pos hb, Txn.start, hb] at hmove
        exact hmove
      · cases h
    | postgres =>
      simp only [hb] at h
      cases h
      have hne : store.backend ≠ .sqlite := by simp [hb]
      have hmove : s.Move store _ _ := Move.begin request isolation fun h ↦ absurd h hne
      rw [if_neg hne, Txn.start, hb] at hmove
      exact hmove
  | exec i =>
    obtain ⟨txn, htxn, h⟩ := Option.bind_eq_some_iff.mp h
    split at h
    · rename_i st rest hrunning htodo
      split at h
      · cases h
      · rename_i hlock
        cases h
        refine .exec htxn hrunning htodo fun hst ↦ ?_
        by_contra hne
        exact hlock ⟨hst, hne⟩
    · cases h
  | commit i acknowledged =>
    obtain ⟨txn, htxn, h⟩ := Option.bind_eq_some_iff.mp h
    split at h
    · rename_i hrunning htodo
      cases h
      refine .commit acknowledged htxn hrunning htodo ?_
      cases acknowledged with
      | true => exact .inl rfl
      | false => exact .inr rfl
    · cases h
  | abort i =>
    obtain ⟨txn, htxn, h⟩ := Option.bind_eq_some_iff.mp h
    split at h
    · rename_i hrunning
      cases h
      exact .abort htxn hrunning
    · cases h
  | unguarded rows =>
    rw [step] at h
    split at h
    · cases h
    · cases h
      exact .unguarded rows

theorem forall_set {P : ℕ → Txn Row Filter → Prop} {txns : List (Txn Row Filter)} {i : ℕ}
    {txn : Txn Row Filter} (hother : ∀ j, j ≠ i → ∀ x, txns[j]? = some x → P j x)
    (hi : P i txn) : ∀ j x, (txns.set i txn)[j]? = some x → P j x := by
  intro j x hx
  by_cases hj : j = i
  · subst hj
    rw [List.getElem?_set_self'] at hx
    obtain ⟨-, -, rfl⟩ := Option.map_eq_some_iff.mp hx
    exact hi
  · rw [List.getElem?_set_ne (Ne.symm hj)] at hx
    exact hother j hj x hx

theorem forall_append {P : ℕ → Txn Row Filter → Prop} {txns : List (Txn Row Filter)}
    {txn : Txn Row Filter} (hold : ∀ j x, txns[j]? = some x → P j x) (hnew : P txns.length txn) :
    ∀ j x, (txns ++ [txn])[j]? = some x → P j x := by
  intro j x hx
  by_cases hj : j < txns.length
  · rw [List.getElem?_append_left hj] at hx
    exact hold j x hx
  · obtain ⟨hlt, rfl⟩ := List.getElem?_eq_some_iff.mp hx
    rw [length_append, length_singleton] at hlt
    obtain rfl : j = txns.length := by omega
    rw [getElem_concat_length rfl]
    exact hnew

/-! ## What holds against all writers -/

theorem Txn.sound_start (request : Request Row Filter) (isolation : Isolation) (rows : List Row) :
    (Txn.start store request isolation rows).Sound store :=
  ⟨⟨[], rfl, rfl, rfl⟩, fun _ _ _ h ↦ by cases h⟩

theorem Txn.Sound.exec {txn : Txn Row Filter} (h : txn.Sound store)
    (hrunning : txn.status = .running) {st : Statement} {rest : List Statement}
    (htodo : txn.todo = st :: rest) (rows : List Row) :
    (txn.exec store rows st rest).Sound store := by
  obtain ⟨done, hdone, hlength, hprogress⟩ := h.progress
  refine ⟨⟨done ++ [st], ?_, ?_, ?_⟩, fun before after o hc ↦ ?_⟩
  · rw [htodo] at hdone
    rw [append_assoc]
    exact hdone
  · simp [Txn.exec, hlength]
  · rw [Txn.exec]
    dsimp only
    rw [replay_append hlength, hprogress]
    rfl
  · exact absurd (hrunning.symm.trans hc) (by simp)

theorem Txn.Sound.end {txn : Txn Row Filter} (h : txn.Sound store) (htodo : txn.todo = [])
    {rows : List Row} {status : Status Row}
    (hstatus : status = .committed rows (txn.progress.effect store txn.request rows)
      (outcome store txn.request txn.progress.results) ∨ status = .failed) :
    ({ txn with status := status } : Txn Row Filter).Sound store := by
  refine ⟨h.progress, fun before after o hc ↦ ?_⟩
  rcases hstatus with rfl | rfl
  · cases hc
    exact ⟨htodo, rfl, rfl⟩
  · cases hc

theorem Txn.Sound.failed {txn : Txn Row Filter} (h : txn.Sound store) :
    ({ txn with status := .failed } : Txn Row Filter).Sound store :=
  ⟨h.progress, fun _ _ _ hc ↦ by cases hc⟩

theorem Writers.Move.sound (h : s.Move store a t)
    (hs : ∀ (i : ℕ) (txn : Txn Row Filter), s.txns[i]? = some txn → txn.Sound store) :
    ∀ (i : ℕ) (txn : Txn Row Filter), t.txns[i]? = some txn → txn.Sound store := by
  cases h with
  | begin request isolation hlock =>
    exact forall_append hs (Txn.sound_start request isolation s.rows)
  | exec htxn hrunning htodo hlock =>
    exact forall_set (fun j _ x hx ↦ hs j x hx) ((hs _ _ htxn).exec hrunning htodo s.rows)
  | commit acknowledged htxn hrunning htodo hstatus =>
    exact forall_set (fun j _ x hx ↦ hs j x hx) ((hs _ _ htxn).end htodo hstatus)
  | abort htxn hrunning => exact forall_set (fun j _ x hx ↦ hs j x hx) (hs _ _ htxn).failed
  | unguarded rows => exact hs

/-! ## What holds against guarded writers -/

/-- A transaction that holds the lock: what it has read after the preamble is what is committed, and
what it will read is. -/
structure Txn.Locked (store : Store Row Filter) (s : Writers Row Filter) (i : ℕ)
    (txn : Txn Row Filter) : Prop where
  lock : s.lock = some i
  read : ∀ base ∈ txn.read store, base = s.rows
  base : txn.base s.rows = s.rows
  preamble : (buildGuardPreamble store.backend).length ≤ txn.seen.length

/-- A transaction that does not have the lock yet, which is still in its preamble. -/
structure Txn.Waiting (store : Store Row Filter) (s : Writers Row Filter) (i : ℕ)
    (txn : Txn Row Filter) : Prop where
  lock : s.lock ≠ some i
  backend : store.backend = .postgres
  seen : txn.seen = [] ∨ (txn.seen.length = 1 ∧ txn.isolation = .readCommitted)

/-- A transaction among guarded writers: when it commits, all it has read is what is committed. -/
def Txn.Serial (store : Store Row Filter) (s : Writers Row Filter) (i : ℕ) (txn : Txn Row Filter) :
    Prop :=
  match txn.status with
  | .running => txn.Locked store s i ∨ txn.Waiting store s i
  | .committed before _ _ => ∀ base ∈ txn.read store, base = before
  | .failed => True

structure Writers.Serial (store : Store Row Filter) (s : Writers Row Filter) : Prop where
  sound : ∀ (i : ℕ) (txn : Txn Row Filter), s.txns[i]? = some txn → txn.Sound store
  serial : ∀ (i : ℕ) (txn : Txn Row Filter), s.txns[i]? = some txn → txn.Serial store s i
  lock : ∀ i, s.lock = some i → i < s.txns.length

theorem statements_postgres {store : Store Row Filter} (h : store.backend = .postgres)
    (request : Request Row Filter) :
    ∃ rest, rest ≠ [] ∧
      statements store.backend request = .setReadCommitted :: .advisoryLock :: rest := by
  rw [statements, h]
  refine ⟨_, ?_, rfl⟩
  split <;> simp

theorem Txn.Waiting.next {i : ℕ} {txn : Txn Row Filter} (h : txn.Waiting store s i)
    (hsound : txn.Sound store) :
    (txn.seen = [] ∧ ∃ rest, txn.todo = .setReadCommitted :: rest) ∨
      (txn.seen.length = 1 ∧ txn.isolation = .readCommitted ∧
        ∃ rest, txn.todo = .advisoryLock :: rest) := by
  obtain ⟨done, hdone, hlength, -⟩ := hsound.progress
  obtain ⟨rest, -, hstatements⟩ := statements_postgres h.backend txn.request
  rw [hstatements] at hdone
  rcases h.seen with hseen | ⟨hseen, hisolation⟩
  · rw [hseen, length_nil, length_eq_zero_iff] at hlength
    rw [hlength] at hdone
    exact .inl ⟨hseen, _, hdone.symm⟩
  · rw [hseen] at hlength
    obtain ⟨st, rfl⟩ := length_eq_one_iff.mp hlength
    obtain ⟨rfl, htodo⟩ := cons.inj hdone
    exact .inr ⟨hseen, hisolation, _, htodo.symm⟩

theorem Txn.Serial.locked {i : ℕ} {txn : Txn Row Filter} (h : txn.Serial store s i)
    (hsound : txn.Sound store) (hrunning : txn.status = .running) (htodo : txn.todo = []) :
    txn.Locked store s i := by
  rw [Txn.Serial, hrunning] at h
  rcases h with hlocked | hwaiting
  · exact hlocked
  · rcases hwaiting.next hsound with ⟨-, rest, hnext⟩ | ⟨-, -, rest, hnext⟩
    · rw [htodo] at hnext
      cases hnext
    · rw [htodo] at hnext
      cases hnext

theorem Txn.Locked.exec {i : ℕ} {txn : Txn Row Filter} (h : txn.Locked store s i)
    {st : Statement} {rest : List Statement} (hst : st ≠ .advisoryLock)
    (txns : List (Txn Row Filter)) :
    (txn.exec store s.rows st rest).Locked store
      { s with lock := if st = .advisoryLock then some i else s.lock, txns := txns } i := by
  refine ⟨?_, fun base hbase ↦ ?_, ?_, ?_⟩
  · exact (if_neg hst).trans h.lock
  · rw [Txn.read, Txn.exec, drop_append_of_le_length h.preamble, mem_append] at hbase
    rcases hbase with hbase | hbase
    · exact h.read base hbase
    · exact (mem_singleton.mp hbase).trans h.base
  · have hbase := h.base
    rw [Txn.base] at hbase ⊢
    by_cases hset : st = .setReadCommitted
    · simp [Txn.exec, hset]
    · simpa [Txn.exec, hset] using hbase
  · rw [Txn.exec, length_append]
    exact h.preamble.trans (Nat.le_add_right _ _)

/-- A statement of a transaction that waits: it sets the isolation level, or it is granted the
lock. -/
theorem Txn.Waiting.exec {i : ℕ} {txn : Txn Row Filter} (h : txn.Waiting store s i)
    (hsound : txn.Sound store) {st : Statement} {rest : List Statement}
    (htodo : txn.todo = st :: rest) (txns : List (Txn Row Filter)) :
    let s' : Writers Row Filter :=
      { s with lock := if st = .advisoryLock then some i else s.lock, txns := txns }
    (txn.exec store s.rows st rest).Locked store s' i ∨
      (txn.exec store s.rows st rest).Waiting store s' i := by
  intro s'
  rcases h.next hsound with ⟨hseen, _, hnext⟩ | ⟨hseen, hisolation, _, hnext⟩
  · obtain ⟨rfl, -⟩ := cons.inj (htodo.symm.trans hnext)
    right
    exact ⟨h.lock, h.backend, .inr ⟨by simp [Txn.exec, hseen], rfl⟩⟩
  · obtain ⟨rfl, -⟩ := cons.inj (htodo.symm.trans hnext)
    left
    have hpreamble : (buildGuardPreamble store.backend).length = 2 := by
      rw [h.backend]
      rfl
    refine ⟨rfl, fun base hbase ↦ ?_, ?_, ?_⟩
    · rw [Txn.read, Txn.exec, hpreamble, drop_of_length_le (by simp [hseen])] at hbase
      exact absurd hbase not_mem_nil
    · rw [Txn.base, Txn.exec]
      simp [hisolation]
    · simp [Txn.exec, hseen, hpreamble]

theorem Txn.Serial.of_lock {i : ℕ} {txn : Txn Row Filter} (h : txn.Serial store s i)
    (hlock : s.lock = some i → t.lock = some i ∧ t.rows = s.rows)
    (hwaiting : s.lock ≠ some i → t.lock ≠ some i) : txn.Serial store t i := by
  rw [Txn.Serial] at h ⊢
  split
  · rename_i hrunning
    simp only [hrunning] at h
    rcases h with h | h
    · obtain ⟨hl, hr⟩ := hlock h.lock
      left
      refine ⟨hl, fun base hbase ↦ ?_, ?_, h.preamble⟩
      · rw [hr]
        exact h.read base hbase
      · rw [hr]
        exact h.base
    · exact .inr ⟨hwaiting h.lock, h.backend, h.seen⟩
  · rename_i hcommitted
    simp only [hcommitted] at h
    exact h
  · trivial

theorem Writers.Move.lock_lt (h : s.Move store a t) (hguarded : ∀ rows, a ≠ .unguarded rows)
    (hs : ∀ i, s.lock = some i → i < s.txns.length) :
    ∀ i, t.lock = some i → i < t.txns.length := by
  intro i hi
  cases h with
  | begin request isolation hlock =>
    dsimp only at hi ⊢
    rw [length_append, length_singleton]
    split at hi
    · obtain rfl := Option.some.inj hi
      exact Nat.lt_succ_self _
    · exact (hs i hi).trans (Nat.lt_succ_self _)
  | exec htxn hrunning htodo hlock =>
    dsimp only at hi ⊢
    rw [length_set]
    split at hi
    · obtain rfl := Option.some.inj hi
      exact (List.getElem?_eq_some_iff.mp htxn).1
    · exact hs i hi
  | commit acknowledged htxn hrunning htodo hstatus =>
    dsimp only [Writers.released] at hi ⊢
    rw [length_set]
    split at hi
    · cases hi
    · exact hs i hi
  | abort htxn hrunning =>
    dsimp only [Writers.released] at hi ⊢
    rw [length_set]
    split at hi
    · cases hi
    · exact hs i hi
  | unguarded rows => exact absurd rfl (hguarded rows)

/-- Guarded writers keep each other serial. -/
theorem Writers.Serial.move (hs : s.Serial store) (h : s.Move store a t)
    (hguarded : ∀ rows, a ≠ .unguarded rows) : t.Serial store := by
  refine ⟨h.sound hs.sound, ?_, h.lock_lt hguarded hs.lock⟩
  cases h with
  | begin request isolation hlock =>
    have hfresh : s.lock ≠ some s.txns.length := fun hl ↦ absurd (hs.lock _ hl) (lt_irrefl _)
    refine forall_append (fun j x hx ↦ ?_) ?_
    · have hlt : j ≠ s.txns.length := (List.getElem?_eq_some_iff.mp hx).1.ne
      refine (hs.serial j x hx).of_lock (fun hl ↦ ?_) fun hl ↦ ?_
      · have hne : store.backend ≠ .sqlite := by
          intro hb
          rw [hlock hb] at hl
          cases hl
        exact ⟨(if_neg hne).trans hl, rfl⟩
      · dsimp only
        split
        · exact fun heq ↦ hlt (Option.some.inj heq).symm
        · exact hl
    · rw [Txn.Serial, Txn.start]
      dsimp only
      cases hb : store.backend with
      | sqlite =>
        refine .inl ⟨by simp, fun base hbase ↦ ?_, ?_, ?_⟩
        · simp [Txn.read] at hbase
        · simp [Txn.base]
        · simp [hb, buildGuardPreamble]
      | postgres =>
        refine .inr ⟨?_, hb, .inl rfl⟩
        simpa [hb] using hfresh
  | @exec i txn st rest htxn hrunning htodo hlock =>
    refine forall_set (fun j hj x hx ↦ ?_) ?_
    · refine (hs.serial j x hx).of_lock (fun hl ↦ ?_) fun hl ↦ ?_
      · have hst : st ≠ .advisoryLock := by
          intro hst
          rw [hlock hst] at hl
          cases hl
        exact ⟨(if_neg hst).trans hl, rfl⟩
      · dsimp only
        split
        · exact fun heq ↦ hj (Option.some.inj heq).symm
        · exact hl
    · have hserial := hs.serial i txn htxn
      rw [Txn.Serial, hrunning] at hserial
      rw [Txn.Serial, show (txn.exec store s.rows st rest).status = .running from hrunning]
      rcases hserial with hlocked | hwaiting
      · have hst : st ≠ .advisoryLock := by
          intro hst
          have hl := hlocked.lock
          rw [hlock hst] at hl
          cases hl
        exact .inl (hlocked.exec hst _)
      · exact hwaiting.exec (hs.sound i txn htxn) htodo _
  | @commit i txn status acknowledged htxn hrunning htodo hstatus =>
    have hlocked := (hs.serial i txn htxn).locked (hs.sound i txn htxn) hrunning htodo
    refine forall_set (fun j hj x hx ↦ ?_) ?_
    · refine (hs.serial j x hx).of_lock (fun hl ↦ ?_) fun _ ↦ ?_
      · rw [hlocked.lock] at hl
        exact absurd (Option.some.inj hl).symm hj
      · simp [Writers.released, hlocked.lock]
    · rcases hstatus with rfl | rfl
      · exact hlocked.read
      · trivial
  | @abort i txn htxn hrunning =>
    refine forall_set (fun j hj x hx ↦ ?_) trivial
    refine (hs.serial j x hx).of_lock (fun hl ↦ ?_) fun hl ↦ ?_
    · have hne : s.lock ≠ some i := by
        rw [hl]
        exact fun heq ↦ hj (Option.some.inj heq)
      exact ⟨(if_neg hne).trans hl, rfl⟩
    · dsimp only
      rw [Writers.released]
      split
      · simp
      · exact hl
  | unguarded rows => exact absurd rfl (hguarded rows)

theorem Writers.serial_init (rows : List Row) : (Writers.init rows).Serial store :=
  ⟨fun i txn h ↦ by simp [Writers.init] at h, fun i txn h ↦ by simp [Writers.init] at h,
    fun i h ↦ by cases h⟩

theorem Writers.Serial.commit_eq (hs : s.Serial store) {i : ℕ} {txn : Txn Row Filter}
    (htxn : s.txns[i]? = some txn) (hrunning : txn.status = .running) (htodo : txn.todo = []) :
    txn.progress.effect store txn.request s.rows = (serially store txn.request s.rows).1 := by
  have hlocked := (hs.serial i txn htxn).locked (hs.sound i txn htxn) hrunning htodo
  exact congrArg Prod.fst ((hs.sound i txn htxn).eq_serially htodo hlocked.read)

/-! ## Caps -/

def WriteAct.Guarded (Q : Request Row Filter → Prop) : WriteAct Row Filter → Prop
  | .begin request _ => Q request
  | .unguarded _ => False
  | .exec _ | .commit _ _ | .abort _ => True

theorem Writers.Move.request {Q : Request Row Filter → Prop} (h : s.Move store a t)
    (ha : a.Guarded Q) (hs : ∀ (i : ℕ) (txn : Txn Row Filter), s.txns[i]? = some txn → Q txn.request) :
    ∀ (i : ℕ) (txn : Txn Row Filter), t.txns[i]? = some txn → Q txn.request := by
  cases h with
  | begin request isolation hlock => exact forall_append hs ha
  | @exec i txn st rest htxn hrunning htodo hlock =>
    have hi : Q txn.request := hs i txn htxn
    exact forall_set (fun j _ x hx ↦ hs j x hx) hi
  | @commit i txn status acknowledged htxn hrunning htodo hstatus =>
    have hi : Q txn.request := hs i txn htxn
    exact forall_set (fun j _ x hx ↦ hs j x hx) hi
  | @abort i txn htxn hrunning =>
    have hi : Q txn.request := hs i txn htxn
    exact forall_set (fun j _ x hx ↦ hs j x hx) hi
  | unguarded rows => exact ha.elim

theorem measure_le {Q : Request Row Filter → Prop} {m : List Row → ℤ} {cap : ℤ}
    (hm : ∀ request, Q request → ∀ rows, m (serially store request rows).1 ≤ max (m rows) cap)
    {rows : List Row} {as : List (WriteAct Row Filter)} (has : ∀ a ∈ as, a.Guarded Q)
    (h : Actions.run (Writers.step store) (.init rows) as = some s) :
    m s.rows ≤ max (m rows) cap := by
  have hall := Actions.run_invariant_of_forall
    (I := fun u : Writers Row Filter ↦ u.Serial store ∧
      (∀ (i : ℕ) (txn : Txn Row Filter), u.txns[i]? = some txn → Q txn.request) ∧
      m u.rows ≤ max (m rows) cap) (P := WriteAct.Guarded Q) ?_
    ⟨Writers.serial_init rows, fun i txn hi ↦ by simp [Writers.init] at hi, le_max_left _ _⟩ has h
  · exact hall.2.2
  · rintro u a v ⟨hserial, hrequest, hle⟩ ha hv
    have hmove := Writers.move_of_step hv
    refine ⟨hserial.move hmove fun rows heq ↦ ?_, hmove.request ha hrequest, ?_⟩
    · rw [heq] at ha
      exact ha
    · cases hmove with
      | begin request isolation hlock => exact hle
      | exec htxn hrunning htodo hlock => exact hle
      | commit acknowledged htxn hrunning htodo hstatus =>
        dsimp only
        rw [hserial.commit_eq htxn hrunning htodo]
        exact (hm _ (hrequest _ _ htxn) _).trans (max_le hle (le_max_right _ _))
      | abort htxn hrunning => exact hle
      | unguarded rows => exact ha.elim

def Request.CarriesCount (store : Store Row Filter) (filters : List Filter) (cap : ℤ) :
    Request Row Filter → Prop
  | .insert row guards => store.selects filters row = true → .countBelow filters cap ∈ guards
  | .update .. => False

def Request.CarriesSum (store : Store Row Filter) (field : String) (filters : List Filter)
    (cap : ℤ) : Request Row Filter → Prop
  | .insert row guards => store.selects filters row = true →
      .sumAtMost field filters (store.contribution field filters row) cap ∈ guards
  | .update .. => False

theorem holds_of_firstRefusing_none {guards : List (CapGuard Filter)} {rows : List Row}
    (h : firstRefusing store guards rows = none) {guard : CapGuard Filter} (hg : guard ∈ guards) :
    store.holds rows guard = true :=
  all_eq_true.mp (firstRefusing_eq_none.mp h) guard hg

theorem count_serially_le {filters : List Filter} {cap : ℤ} {request : Request Row Filter}
    (h : request.CarriesCount store filters cap) (rows : List Row) :
    (store.count filters (serially store request rows).1 : ℤ) ≤
      max (store.count filters rows : ℤ) cap := by
  cases request with
  | update => exact h.elim
  | insert row guards =>
    rw [serially]
    cases hf : firstRefusing store guards rows with
    | some i => exact le_max_left _ _
    | none =>
      dsimp only
      rw [Store.count_append]
      by_cases hrow : store.selects filters row = true
      · have hholds := holds_of_firstRefusing_none hf (h hrow)
        rw [Store.holds, decide_eq_true_iff] at hholds
        rw [if_pos hrow]
        push_cast
        exact le_max_of_le_right (by omega)
      · rw [if_neg hrow, Nat.add_zero]
        exact le_max_left _ _

theorem sum_serially_le {field : String} {filters : List Filter} {cap : ℤ}
    {request : Request Row Filter} (h : request.CarriesSum store field filters cap)
    (rows : List Row) :
    (store.sum field filters (serially store request rows).1).getD 0 ≤
      max ((store.sum field filters rows).getD 0) cap := by
  cases request with
  | update => exact h.elim
  | insert row guards =>
    rw [serially]
    cases hf : firstRefusing store guards rows with
    | some i => exact le_max_left _ _
    | none =>
      dsimp only
      rw [Store.sum_append]
      by_cases hrow : store.selects filters row = true
      · have hholds := holds_of_firstRefusing_none hf (h hrow)
        rw [Store.holds, decide_eq_true_iff] at hholds
        exact le_max_of_le_right hholds
      · rw [Store.contribution, if_neg hrow, add_zero]
        exact le_max_left _ _

/-! ## Outcomes -/

/-- What the outcome of a guarded write says about the rows before and after its commit. -/
structure Faithful (store : Store Row Filter) (request : Request Row Filter)
    (before after : List Row) (o : Outcome Row) : Prop where
  serial : (after, o) = serially store request before
  /-- No guarded write ends in an internal error. -/
  noError : ∀ message, o ≠ .insert (.error message) ∧ o ≠ .update (.error message)
  inserted : ∀ row, o = .insert (.ok (.inserted row)) →
    ∃ new guards, request = .insert new guards ∧ row = .stored new ∧ after = before ++ [new]
  updated : ∀ n, o = .update (.ok (.updated n)) →
    0 < n ∧ ∃ filters set guards, request = .update filters set guards ∧
      n = store.count filters before ∧ after = request.apply store before
  refused : ∀ i, o.refusedBy = some i → after = before ∧
    ∃ guard, request.guards[i]? = some guard ∧ store.holds before guard = false

theorem faithful_serially (request : Request Row Filter) (rows : List Row) :
    Faithful store request rows (serially store request rows).1 (serially store request rows).2 := by
  cases request with
  | insert row guards =>
    cases hf : firstRefusing store guards rows with
    | none =>
      have hs : serially store (.insert row guards) rows =
          (rows ++ [row], .insert (.ok (.inserted (.stored row)))) := by rw [serially, hf]
      rw [hs]
      refine ⟨hs.symm, fun message ↦ ⟨by simp, by simp⟩, fun r hr ↦ ?_, fun n hn ↦ ?_, fun i hi ↦ ?_⟩
      · cases hr
        exact ⟨row, guards, rfl, rfl, rfl⟩
      · cases hn
      · cases hi
    | some j =>
      have hs : serially store (.insert row guards) rows =
          (rows, .insert (.ok (.refused j))) := by rw [serially, hf]
      rw [hs]
      refine ⟨hs.symm, fun message ↦ ⟨by simp, by simp⟩, fun r hr ↦ ?_, fun n hn ↦ ?_, fun i hi ↦ ?_⟩
      · cases hr
      · cases hn
      · cases hi
        exact ⟨rfl, not_holds_of_firstRefusing hf⟩
  | update filters set guards =>
    cases hf : firstRefusing store guards rows with
    | none =>
      by_cases hcount : 0 < store.count filters rows
      · have hs : serially store (.update filters set guards) rows =
            ((Request.update filters set guards).apply store rows,
              .update (.ok (.updated (store.count filters rows)))) := by
          simp only [serially, hf, if_pos hcount]
        rw [hs]
        refine ⟨hs.symm, fun message ↦ ⟨by simp, by simp⟩, fun r hr ↦ ?_, fun n hn ↦ ?_,
          fun i hi ↦ ?_⟩
        · cases hr
        · cases hn
          exact ⟨hcount, filters, set, guards, rfl, rfl, rfl⟩
        · cases hi
      · have hs : serially store (.update filters set guards) rows =
            (rows, .update (.ok .noMatch)) := by
          simp only [serially, hf, if_neg hcount]
        rw [hs]
        refine ⟨hs.symm, fun message ↦ ⟨by simp, by simp⟩, fun r hr ↦ ?_, fun n hn ↦ ?_,
          fun i hi ↦ ?_⟩
        · cases hr
        · cases hn
        · cases hi
    | some j =>
      have hs : serially store (.update filters set guards) rows =
          (rows, .update (.ok (.refused j))) := by simp only [serially, hf]
      rw [hs]
      refine ⟨hs.symm, fun message ↦ ⟨by simp, by simp⟩, fun r hr ↦ ?_, fun n hn ↦ ?_, fun i hi ↦ ?_⟩
      · cases hr
      · cases hn
      · cases hi
        exact ⟨rfl, not_holds_of_firstRefusing hf⟩

end Moves

/-- **Guarded writes do not breach their caps**, in any interleaving of any number of them.

If every insert of a row that matches the filters carries the guard, the count and the sum stay
within the cap, or within what they were at first. A refused write has changed nothing and names a
guard that did not hold when the transaction asked, whoever else writes; if nobody writes without a
guard, every outcome is faithful to the rows at the commit. -/
theorem guarded_writes_within_cap (store : Store Row Filter) (rows : List Row)
    {as : List (WriteAct Row Filter)} {s : Writers Row Filter}
    (h : Actions.run (Writers.step store) (.init rows) as = some s) :
    (∀ filters cap, (∀ a ∈ as, a.Guarded (Request.CarriesCount store filters cap)) →
      (store.count filters s.rows : ℤ) ≤ max (store.count filters rows : ℤ) cap) ∧
    (∀ field filters cap, (∀ a ∈ as, a.Guarded (Request.CarriesSum store field filters cap)) →
      (store.sum field filters s.rows).getD 0 ≤ max ((store.sum field filters rows).getD 0) cap) ∧
    (∀ txn ∈ s.txns, ∀ before after o, txn.status = .committed before after o →
      ∀ i, o.refusedBy = some i → after = before ∧
        ∃ read ∈ txn.read store, ∃ guard, txn.request.guards[i]? = some guard ∧
          store.holds read guard = false) ∧
    ((∀ a ∈ as, a.Guarded fun _ ↦ True) →
      ∀ txn ∈ s.txns, ∀ before after o, txn.status = .committed before after o →
        Faithful store txn.request before after o) := by
  refine ⟨fun filters cap has ↦ ?_, fun field filters cap has ↦ ?_, ?_, fun has ↦ ?_⟩
  · exact measure_le (m := fun rows ↦ (store.count filters rows : ℤ))
      (fun request hrequest ↦ count_serially_le hrequest) has h
  · exact measure_le (m := fun rows ↦ (store.sum field filters rows).getD 0)
      (fun request hrequest ↦ sum_serially_le hrequest) has h
  · have hsound := Actions.run_invariant
      (I := fun u : Writers Row Filter ↦ ∀ (i : ℕ) (txn : Txn Row Filter), u.txns[i]? = some txn →
        txn.Sound store) (fun u a v hu hv ↦ (Writers.move_of_step hv).sound hu)
      (fun i txn hi ↦ by simp [Writers.init] at hi) h
    intro txn htxn before after o hstatus i hi
    obtain ⟨j, hj⟩ := List.getElem?_of_mem htxn
    exact (hsound j txn hj).refused hstatus hi
  · have hserial := Actions.run_invariant_of_forall
      (I := fun u : Writers Row Filter ↦ u.Serial store) (P := WriteAct.Guarded fun _ ↦ True)
      (fun u a v hu ha hv ↦ hu.move (Writers.move_of_step hv) fun rows heq ↦ by
        rw [heq] at ha
        exact ha) (Writers.serial_init rows) has h
    intro txn htxn before after o hstatus
    obtain ⟨j, hj⟩ := List.getElem?_of_mem htxn
    have hread := hserial.serial j txn hj
    rw [Txn.Serial, hstatus] at hread
    obtain ⟨htodo, hafter, ho⟩ := (hserial.sound j txn hj).committed _ _ _ hstatus
    have heq := (hserial.sound j txn hj).eq_serially htodo hread
    rw [← hafter, ← ho] at heq
    have hfaithful : Faithful store txn.request before _ _ := faithful_serially txn.request before
    rw [← heq] at hfaithful
    exact hfaithful

/-! ## Two inserts for one place -/

namespace TwoInserts

def store : Store ℕ Unit where
  backend := .postgres
  table := "places"
  satisfies _ _ := true
  value row _ := some row
  debugRow _ := ""
  debugResult _ := ""

def guard : CapGuard Unit := .countBelow [] 1

/-- Both transactions begin; the second is granted the lock after the first has committed. -/
def acts : List (WriteAct ℕ Unit) :=
  [.begin (.insert 7 [guard]) .repeatableRead, .begin (.insert 8 [guard]) .repeatableRead,
    .exec 0, .exec 1, .exec 0, .exec 0, .exec 0, .exec 0, .commit 0 true,
    .exec 1, .exec 1, .exec 1, .exec 1, .commit 1 true]

theorem guarded_acts : ∀ a ∈ acts, a.Guarded (Request.CarriesCount store [] 1) := by
  simp [acts, WriteAct.Guarded, Request.CarriesCount, guard]

end TwoInserts

open TwoInserts in
theorem guarded_writes_within_cap_twoInserts :
    ∃ s, Actions.run (Writers.step store) (.init []) acts = some s ∧ s.rows = [7] ∧
      (store.count [] s.rows : ℤ) ≤ max (store.count [] [] : ℤ) 1 := by
  refine ⟨_, rfl, rfl, ?_⟩
  exact (guarded_writes_within_cap store [] rfl).1 [] 1 guarded_acts

end WaferRun.Database
