import WaferRun.Block.RateLimit
import WaferRun.Database.Ident

/-!
# Windowed counters

A counter row is kept by one statement, an insert that turns into an update if the key is there: the
update counts the call, or starts the next window if the stored one began before the cutoff. The
same decision is written into the statement twice, once for the counter and once for the window, and
both read the row as it was before the statement.

So the row counts the calls since the last one that started a window
(`windowedCounter_counts_and_agrees`). With the cutoff a fixed length before the call these are the
windows of the rate limiter, and the two counters agree until the counter of the limiter wraps.

Running a statement is the engine's: a row maps columns to values, an update evaluates every
expression on the stored row, a comparison with anything but an integer does not hold, and integers
are exact.
-/

open List Option

namespace WaferRun

/-- What a column of a row holds. -/
inductive SqlValue
  | null
  | text (s : String)
  | int (n : ℤ)
deriving DecidableEq

/-! ## Statements -/

/-- An expression of an update; columns are those of the stored row. -/
inductive SqlExpr
  | value (v : SqlValue)
  | stored (table field : String)
  | add (e : SqlExpr) (n : ℤ)
  | caseLt (e : SqlExpr) (bound : ℤ) (yes no : SqlExpr)

/-- An insert that updates the row with the same value in the conflict column, if there is one. -/
structure InsertStatement where
  table : String
  columns : List String
  values : List SqlValue
  conflict : String
  sets : List (String × SqlExpr)

/-- The columns of a counter, and the value by which its row is found. -/
structure CounterKey where
  table : String
  conflictColumn : String
  conflictValue : String
  countField : String
  windowField : String
  createdFields : List String
  updatedFields : List String

structure CounterCall where
  id : String
  stampedAt : String
  now : ℤ
  windowCutoff : ℤ

namespace CounterKey

variable (k : CounterKey)

/-- The columns of a new row, in the order of the statement. -/
def columnNames : List String :=
  ["id", k.conflictColumn, k.countField, k.windowField] ++ k.createdFields ++ k.updatedFields

def firstRepeated (seen : List String) : List String → Option String
  | [] => none
  | name :: names =>
    if name ∈ seen then some name else firstRepeated (seen ++ [name]) names

def validateIdents : List String → Except SqlBuildError (List String)
  | [] => .ok []
  | name :: names => do return (← validateIdent name) :: (← validateIdents names)

def windowedCounterUpsertQuery (c : CounterCall) : Except SqlBuildError InsertStatement := do
  let conflictColumn ← validateIdent k.conflictColumn
  let countField ← validateIdent k.countField
  let windowField ← validateIdent k.windowField
  let createdFields ← validateIdents k.createdFields
  let updatedFields ← validateIdents k.updatedFields
  let columnNames := ["id", conflictColumn, countField, windowField] ++ createdFields ++ updatedFields
  if let some name := firstRepeated [] columnNames then
    throw (.duplicateColumn name)
  let stamp := SqlValue.text c.stampedAt
  let values := [.text c.id, .text k.conflictValue, .int 1, .int c.now] ++
    (createdFields.map fun _ ↦ stamp) ++ updatedFields.map fun _ ↦ stamp
  let stored := SqlExpr.stored k.table
  let countCase := SqlExpr.caseLt (stored windowField) c.windowCutoff
    (.value (.int 1)) (.add (stored countField) 1)
  let windowCase := SqlExpr.caseLt (stored windowField) c.windowCutoff
    (.value (.int c.now)) (stored windowField)
  return {
    table := k.table
    columns := columnNames
    values
    conflict := conflictColumn
    sets := [(countField, countCase), (windowField, windowCase)] ++
      updatedFields.map fun field ↦ (field, .value stamp) }

end CounterKey

/-! ## Running statements -/

abbrev SqlRow := String → SqlValue

namespace SqlExpr

def eval (row : SqlRow) : SqlExpr → SqlValue
  | value v => v
  | stored _ field => row field
  | add e n =>
    match e.eval row with
    | .int m => .int (m + n)
    | _ => .null
  | caseLt e bound yes no =>
    match e.eval row with
    | .int m => if m < bound then yes.eval row else no.eval row
    | _ => no.eval row

end SqlExpr

namespace InsertStatement

variable (s : InsertStatement)

def proposed : SqlRow := fun column ↦ ((s.columns.zip s.values).lookup column).getD .null

def update (row : SqlRow) : SqlRow := fun column ↦
  match s.sets.lookup column with
  | some e => e.eval row
  | none => row column

def conflicts (row : SqlRow) : Bool := row s.conflict = s.proposed s.conflict

def exec (rows : List SqlRow) : List SqlRow :=
  if rows.any s.conflicts then
    rows.map fun row ↦ if s.conflicts row then s.update row else row
  else
    rows ++ [s.proposed]

end InsertStatement

namespace CounterKey

variable (k : CounterKey)

def isRow (r : SqlRow) : Bool := r k.conflictColumn = .text k.conflictValue

def row (rows : List SqlRow) : Option SqlRow :=
  rows.find? k.isRow

/-- Count calls one after another; a statement that cannot be built leaves the rows as they are. -/
def run (rows : List SqlRow) (cs : List CounterCall) : List SqlRow :=
  cs.foldl (fun rows c ↦
    match k.windowedCounterUpsertQuery c with
    | .ok s => s.exec rows
    | .error _ => rows) rows

/-- The names are plain and pairwise distinct. -/
structure Accepted : Prop where
  conflictColumn : validateIdent k.conflictColumn = .ok k.conflictColumn
  countField : validateIdent k.countField = .ok k.countField
  windowField : validateIdent k.windowField = .ok k.windowField
  createdFields : validateIdents k.createdFields = .ok k.createdFields
  updatedFields : validateIdents k.updatedFields = .ok k.updatedFields
  nodup : k.columnNames.Nodup

def statement (c : CounterCall) : InsertStatement where
  table := k.table
  columns := k.columnNames
  values := [.text c.id, .text k.conflictValue, .int 1, .int c.now] ++
    (k.createdFields.map fun _ ↦ .text c.stampedAt) ++ k.updatedFields.map fun _ ↦ .text c.stampedAt
  conflict := k.conflictColumn
  sets := [(k.countField, .caseLt (.stored k.table k.windowField) c.windowCutoff
      (.value (.int 1)) (.add (.stored k.table k.countField) 1)),
    (k.windowField, .caseLt (.stored k.table k.windowField) c.windowCutoff
      (.value (.int c.now)) (.stored k.table k.windowField))] ++
    k.updatedFields.map fun field ↦ (field, .value (.text c.stampedAt))

theorem validateIdents_eq_ok {names vs : List String} (h : validateIdents names = .ok vs) :
    vs = names := by
  induction names generalizing vs with
  | nil => exact (Except.ok.inj h).symm
  | cons name names ih =>
    rw [validateIdents] at h
    rcases hname : validateIdent name with err | v
    · rw [hname] at h
      cases h
    · rcases hnames : validateIdents names with err | vs'
      · rw [hname, hnames] at h
        cases h
      · rw [hname, hnames] at h
        rw [← Except.ok.inj h, validateIdent_eq_ok hname, ih hnames]

theorem firstRepeated_eq_none {seen names : List String} :
    firstRepeated seen names = none ↔ names.Nodup ∧ ∀ name ∈ names, name ∉ seen := by
  induction names generalizing seen with
  | nil => simp [firstRepeated]
  | cons name names ih =>
    rw [firstRepeated]
    by_cases hseen : name ∈ seen
    · simp [hseen]
    · rw [if_neg hseen, ih, nodup_cons]
      simp only [mem_append, mem_cons, not_mem_nil, or_false, forall_eq_or_imp]
      constructor
      · rintro ⟨hnodup, hnew⟩
        exact ⟨⟨fun h ↦ hnew name h (.inr rfl), hnodup⟩, hseen, fun n hn h ↦ hnew n hn (.inl h)⟩
      · rintro ⟨⟨hname, hnodup⟩, -, hnew⟩
        refine ⟨hnodup, fun n hn h ↦ ?_⟩
        rcases h with h | rfl
        · exact hnew n hn h
        · exact hname hn

variable {k}

theorem Accepted.windowedCounterUpsertQuery_eq (h : k.Accepted) (c : CounterCall) :
    k.windowedCounterUpsertQuery c = .ok (k.statement c) := by
  have hrep : firstRepeated [] k.columnNames = none :=
    firstRepeated_eq_none.mpr ⟨h.nodup, fun _ _ ↦ not_mem_nil⟩
  rw [columnNames] at hrep
  rw [windowedCounterUpsertQuery, h.conflictColumn, h.countField, h.windowField, h.createdFields,
    h.updatedFields]
  simp only [bind, Except.bind, hrep]
  rfl

theorem accepted_of_eq_ok {c : CounterCall} {s : InsertStatement}
    (h : k.windowedCounterUpsertQuery c = .ok s) : k.Accepted := by
  rw [windowedCounterUpsertQuery] at h
  rcases h₁ : validateIdent k.conflictColumn with err | v₁
  · rw [h₁] at h; cases h
  rcases h₂ : validateIdent k.countField with err | v₂
  · rw [h₁, h₂] at h; cases h
  rcases h₃ : validateIdent k.windowField with err | v₃
  · rw [h₁, h₂, h₃] at h; cases h
  rcases h₄ : validateIdents k.createdFields with err | v₄
  · rw [h₁, h₂, h₃, h₄] at h; cases h
  rcases h₅ : validateIdents k.updatedFields with err | v₅
  · rw [h₁, h₂, h₃, h₄, h₅] at h; cases h
  rw [h₁, h₂, h₃, h₄, h₅] at h
  obtain rfl := validateIdent_eq_ok h₁
  obtain rfl := validateIdent_eq_ok h₂
  obtain rfl := validateIdent_eq_ok h₃
  obtain rfl := validateIdents_eq_ok h₄
  obtain rfl := validateIdents_eq_ok h₅
  refine ⟨h₁, h₂, h₃, h₄, h₅, ?_⟩
  rcases hrep : firstRepeated [] k.columnNames with - | name
  · exact (firstRepeated_eq_none.mp hrep).1
  · rw [columnNames] at hrep
    simp only [bind, Except.bind, hrep] at h
    cases h

end CounterKey

/-! ## The row of a counter -/

theorem lookup_map_const {α β : Type*} [BEq α] [LawfulBEq α] {names : List α} {name : α}
    (h : name ∈ names) (v : β) : (names.map fun n ↦ (n, v)).lookup name = some v := by
  induction names with
  | nil => exact absurd h not_mem_nil
  | cons n names ih =>
    rw [map_cons, lookup_cons]
    by_cases hn : name = n
    · rw [hn, beq_self_eq_true]
    · rw [beq_false_of_ne hn]
      exact ih ((mem_cons.mp h).resolve_left hn)

theorem zip_map_const {α β : Type*} (names : List α) (v : β) :
    names.zip (names.map fun _ ↦ v) = names.map fun n ↦ (n, v) := by
  induction names with
  | nil => rfl
  | cons n names ih => rw [map_cons, zip_cons_cons, ih, map_cons]

theorem map_fst_map_const {α β : Type*} (names : List α) (v : β) :
    (names.map fun n ↦ (n, v)).map Prod.fst = names := by
  rw [List.map_map]
  exact List.map_id' names

theorem lookup_cons_of_ne {α β : Type*} [BEq α] [LawfulBEq α] {a b : α} (h : a ≠ b) (v : β)
    (l : List (α × β)) : List.lookup a ((b, v) :: l) = l.lookup a := by
  rw [lookup_cons, beq_false_of_ne h]

theorem lookup_append_of_not_mem {α β : Type*} [BEq α] [LawfulBEq α] {l : List (α × β)} {a : α}
    (h : a ∉ l.map Prod.fst) (rest : List (α × β)) : (l ++ rest).lookup a = rest.lookup a := by
  induction l with
  | nil => rfl
  | cons p l ih =>
    rw [map_cons, mem_cons, not_or] at h
    rw [cons_append, lookup_cons_of_ne h.1]
    exact ih h.2

open Windows (Window)

def CounterCall.toCall (c : CounterCall) : Windows.Call ℤ := ⟨c.now, fun start ↦ start < c.windowCutoff⟩

namespace CounterKey

variable {k : CounterKey}

theorem next_toCall_of_lt {c : CounterCall} {w : Window ℤ} (h : w.start < c.windowCutoff) :
    Window.next c.toCall (some w) = ⟨c.now, 1⟩ :=
  if_pos (decide_eq_true h)

theorem next_toCall_of_not_lt {c : CounterCall} {w : Window ℤ} (h : ¬ w.start < c.windowCutoff) :
    Window.next c.toCall (some w) = ⟨w.start, w.calls + 1⟩ :=
  if_neg fun hexp ↦ h (of_decide_eq_true hexp)

/-- The row holds the calls of a window, the names and stamps of the first call and the stamps of
the last. -/
structure Counts (k : CounterKey) (w : Window ℤ) (first last : CounterCall) (r : SqlRow) : Prop where
  id : r "id" = .text first.id
  conflictColumn : r k.conflictColumn = .text k.conflictValue
  countField : r k.countField = .int w.calls
  windowField : r k.windowField = .int w.start
  createdFields : ∀ field ∈ k.createdFields, r field = .text first.stampedAt
  updatedFields : ∀ field ∈ k.updatedFields, r field = .text last.stampedAt

structure Distinct (k : CounterKey) : Prop where
  idConflict : "id" ≠ k.conflictColumn
  idCount : "id" ≠ k.countField
  idWindow : "id" ≠ k.windowField
  conflictCount : k.conflictColumn ≠ k.countField
  conflictWindow : k.conflictColumn ≠ k.windowField
  countWindow : k.countField ≠ k.windowField
  created : ∀ f ∈ k.createdFields,
    f ≠ "id" ∧ f ≠ k.conflictColumn ∧ f ≠ k.countField ∧ f ≠ k.windowField ∧ f ∉ k.updatedFields
  updated : ∀ f ∈ k.updatedFields,
    f ≠ "id" ∧ f ≠ k.conflictColumn ∧ f ≠ k.countField ∧ f ≠ k.windowField

theorem Accepted.distinct (h : k.Accepted) : k.Distinct := by
  have hnodup := h.nodup
  simp only [columnNames, cons_append, nil_append, nodup_cons, mem_cons,
    mem_append, not_or, nodup_append] at hnodup
  obtain ⟨⟨h₁, h₂, h₃, h₄, h₅⟩, ⟨h₆, h₇, h₈, h₉⟩, ⟨h₁₀, h₁₁, h₁₂⟩, ⟨h₁₃, h₁₄⟩, -, -, hdisj⟩ := hnodup
  refine ⟨h₁, h₂, h₃, h₆, h₇, h₁₀, fun f hf ↦ ⟨?_, ?_, ?_, ?_, fun hu ↦ hdisj f hf f hu rfl⟩,
    fun f hf ↦ ⟨?_, ?_, ?_, ?_⟩⟩
  all_goals rintro rfl
  all_goals contradiction

theorem proposed_statement (k : CounterKey) (c : CounterCall) (column : String) :
    (k.statement c).proposed column =
      (List.lookup column ([("id", .text c.id), (k.conflictColumn, .text k.conflictValue),
        (k.countField, .int 1), (k.windowField, .int c.now)] ++
      ((k.createdFields.map fun f ↦ (f, .text c.stampedAt)) ++
        k.updatedFields.map fun f ↦ (f, .text c.stampedAt)))).getD .null := by
  rw [← zip_map_const, ← zip_map_const, InsertStatement.proposed]
  simp only [statement, columnNames, cons_append, nil_append, zip_cons_cons]
  rw [zip_append (length_map _).symm]

theorem update_of_not_mem {c : CounterCall} {r : SqlRow} {column : String}
    (hcount : column ≠ k.countField) (hwindow : column ≠ k.windowField)
    (hupdated : column ∉ k.updatedFields) : (k.statement c).update r column = r column := by
  have hnone : (k.statement c).sets.lookup column = none := by
    rw [statement, lookup_append_of_not_mem (by simp [hcount, hwindow]), ← append_nil (List.map _ _),
      lookup_append_of_not_mem (by rwa [map_fst_map_const])]
    rfl
  rw [InsertStatement.update, hnone]

section

variable (hk : k.Distinct)
include hk

theorem counts_proposed (c : CounterCall) :
    k.Counts ⟨c.now, 1⟩ c c (k.statement c).proposed := by
  constructor
  · rw [proposed_statement, cons_append, lookup_cons_self]
    rfl
  · rw [proposed_statement, cons_append, lookup_cons_of_ne hk.idConflict.symm,
      cons_append, lookup_cons_self]
    rfl
  · rw [proposed_statement, cons_append, lookup_cons_of_ne hk.idCount.symm,
      cons_append, lookup_cons_of_ne hk.conflictCount.symm,
      cons_append, lookup_cons_self]
    rfl
  · rw [proposed_statement, cons_append, lookup_cons_of_ne hk.idWindow.symm,
      cons_append, lookup_cons_of_ne hk.conflictWindow.symm,
      cons_append, lookup_cons_of_ne hk.countWindow.symm,
      cons_append, lookup_cons_self]
    rfl
  · intro f hf
    obtain ⟨h₁, h₂, h₃, h₄, -⟩ := hk.created f hf
    rw [proposed_statement, lookup_append_of_not_mem (by simp [h₁, h₂, h₃, h₄]),
      lookup_append, lookup_map_const hf]
    rfl
  · intro f hf
    obtain ⟨h₁, h₂, h₃, h₄⟩ := hk.updated f hf
    have hcreated : f ∉ k.createdFields := fun hc ↦ (hk.created f hc).2.2.2.2 hf
    rw [proposed_statement, lookup_append_of_not_mem (by simp [h₁, h₂, h₃, h₄]),
      lookup_append_of_not_mem (by rwa [map_fst_map_const]), lookup_map_const hf]
    rfl

theorem counts_update {w : Window ℤ} {first last : CounterCall} {r : SqlRow}
    (hr : k.Counts w first last r) (c : CounterCall) :
    k.Counts (Window.next c.toCall (some w)) first c ((k.statement c).update r) := by
  have hid : "id" ∉ k.updatedFields := fun h ↦ (hk.updated _ h).1 rfl
  have hconflict : k.conflictColumn ∉ k.updatedFields := fun h ↦ (hk.updated _ h).2.1 rfl
  constructor
  · rw [update_of_not_mem hk.idCount hk.idWindow hid]
    exact hr.id
  · rw [update_of_not_mem hk.conflictCount hk.conflictWindow hconflict]
    exact hr.conflictColumn
  · have hsome : (k.statement c).sets.lookup k.countField = some _ := lookup_cons_self
    rw [InsertStatement.update, hsome]
    simp only [SqlExpr.eval, hr.windowField, hr.countField]
    by_cases hexp : w.start < c.windowCutoff
    · rw [if_pos hexp, next_toCall_of_lt hexp]
      rfl
    · rw [if_neg hexp, next_toCall_of_not_lt hexp]
      rfl
  · have hsome : (k.statement c).sets.lookup k.windowField = some _ :=
      (lookup_cons_of_ne hk.countWindow.symm _ _).trans lookup_cons_self
    rw [InsertStatement.update, hsome]
    simp only [SqlExpr.eval, hr.windowField]
    by_cases hexp : w.start < c.windowCutoff
    · rw [if_pos hexp, next_toCall_of_lt hexp]
    · rw [if_neg hexp, next_toCall_of_not_lt hexp]
  · intro f hf
    obtain ⟨-, -, h₃, h₄, h₅⟩ := hk.created f hf
    rw [update_of_not_mem h₃ h₄ h₅]
    exact hr.createdFields f hf
  · intro f hf
    obtain ⟨-, -, h₃, h₄⟩ := hk.updated f hf
    have hsome : (k.statement c).sets.lookup f = some (.value (.text c.stampedAt)) := by
      rw [statement, lookup_append_of_not_mem (by simp [h₃, h₄]), lookup_map_const hf]
    rw [InsertStatement.update, hsome]
    rfl

theorem conflicts_iff (c : CounterCall) (r : SqlRow) :
    (k.statement c).conflicts r = k.isRow r := by
  rw [InsertStatement.conflicts, isRow, decide_eq_decide]
  exact iff_of_eq (congrArg _ (counts_proposed hk c).conflictColumn)

theorem row_exec_of_none {rows : List SqlRow} (h : k.row rows = none) (c : CounterCall) :
    k.row ((k.statement c).exec rows) = some (k.statement c).proposed := by
  have hnone : rows.any (k.statement c).conflicts = false := by
    rw [List.any_eq_false]
    intro r hr
    rw [conflicts_iff hk]
    exact List.find?_eq_none.mp h r hr
  rw [InsertStatement.exec, hnone, if_neg Bool.false_ne_true, row, List.find?_append,
    show rows.find? _ = none from h, none_or]
  exact List.find?_cons_of_pos (decide_eq_true (counts_proposed hk c).conflictColumn)

theorem row_exec_of_some {rows : List SqlRow} {r : SqlRow} (h : k.row rows = some r)
    (c : CounterCall) : k.row ((k.statement c).exec rows) = some ((k.statement c).update r) := by
  have hconflict : k.conflictColumn ∉ k.updatedFields := fun h ↦ (hk.updated _ h).2.1 rfl
  have hr : (k.statement c).conflicts r = true := by
    rw [conflicts_iff hk]
    exact List.find?_some h
  have hsome : rows.any (k.statement c).conflicts = true :=
    List.any_eq_true.mpr ⟨r, List.mem_of_find?_eq_some h, hr⟩
  -- an update does not touch the column by which the row is found
  have hsame : k.isRow ∘
      (fun r ↦ if (k.statement c).conflicts r then (k.statement c).update r else r) = k.isRow := by
    funext r'
    rw [Function.comp_apply]
    split
    · rw [isRow, isRow, update_of_not_mem hk.conflictCount hk.conflictWindow hconflict]
    · rfl
  rw [InsertStatement.exec, if_pos hsome, row, List.find?_map, hsame,
    show rows.find? _ = some r from h, map_some, if_pos hr]

end

/-! ## Calls one after another -/

theorem run_append_singleton (hk : k.Accepted) (rows : List SqlRow) (cs : List CounterCall)
    (c : CounterCall) : k.run rows (cs ++ [c]) = (k.statement c).exec (k.run rows cs) := by
  rw [run, foldl_append, foldl_cons, foldl_nil, hk.windowedCounterUpsertQuery_eq, run]

theorem counts_exec (hk : k.Distinct) {rows : List SqlRow} {w : Window ℤ} {r : SqlRow}
    {first last : CounterCall} (hrow : k.row rows = some r) (hr : k.Counts w first last r)
    (c : CounterCall) : ∃ r', k.row ((k.statement c).exec rows) = some r' ∧
      k.Counts (Window.next c.toCall (some w)) first c r' :=
  ⟨_, row_exec_of_some hk hrow c, counts_update hk hr c⟩

/-- The row of a key after some calls: the window of the last call, the id and the created stamps of
the first, the updated stamps of the last. -/
theorem counts_run (hk : k.Accepted) {rows : List SqlRow} (hrows : k.row rows = none)
    {cs : List CounterCall} {w : Window ℤ}
    (hw : Windows.after none (cs.map CounterCall.toCall) = some w) :
    ∃ r first last, k.row (k.run rows cs) = some r ∧ cs.head? = some first ∧
      cs.getLast? = some last ∧ k.Counts w first last r := by
  induction cs using List.reverseRecOn generalizing w with
  | nil => cases hw
  | append_singleton cs c ih =>
    rw [map_append, map_singleton, Windows.after_append_singleton] at hw
    obtain rfl := some.inj hw
    rw [run_append_singleton hk, List.getLast?_concat]
    rcases eq_nil_or_concat cs with rfl | ⟨cs', d, rfl⟩
    · exact ⟨_, c, c, row_exec_of_none hk.distinct hrows c, rfl, rfl, counts_proposed hk.distinct c⟩
    · rw [concat_eq_append, map_append, map_singleton,
        Windows.after_append_singleton] at ih ⊢
      obtain ⟨r, first, last, hr, hfirst, -, hcounts⟩ := ih rfl
      obtain ⟨r', hr', hcounts'⟩ := counts_exec hk.distinct hr hcounts c
      refine ⟨r', first, c, hr', ?_, rfl, hcounts'⟩
      rw [List.head?_append, hfirst, some_or]

/-- Whether a call starts a window: there is no row yet, or the window of the row began before the
cutoff. -/
def Resets (k : CounterKey) (row : Option SqlRow) (c : CounterCall) : Prop :=
  ∀ r ∈ row, ∃ start, r k.windowField = .int start ∧ start < c.windowCutoff

theorem resets_iff_starts (hk : k.Accepted) {rows : List SqlRow} (hrows : k.row rows = none)
    (cs : List CounterCall) (c : CounterCall) :
    k.Resets (k.row (k.run rows cs)) c ↔
      Windows.Starts (Windows.after none (cs.map CounterCall.toCall)) c.toCall := by
  rcases hv : Windows.after none (cs.map CounterCall.toCall) with - | v
  · rcases eq_nil_or_concat cs with rfl | ⟨cs', d, rfl⟩
    · rw [run, foldl_nil, hrows]
      exact iff_of_true (fun r hr ↦ absurd hr (not_mem_none r))
        fun v hv ↦ absurd hv (not_mem_none v)
    · rw [concat_eq_append, map_append, map_singleton,
        Windows.after_append_singleton] at hv
      cases hv
  · obtain ⟨r, first, last, hr, -, -, hcounts⟩ := counts_run hk hrows hv
    rw [hr]
    constructor
    · intro hresets v' hv'
      obtain ⟨start, hstart, hlt⟩ := hresets r rfl
      rw [hcounts.windowField, SqlValue.int.injEq] at hstart
      obtain rfl := mem_some.mp hv'
      exact decide_eq_true (hstart ▸ hlt)
    · intro hstarts r' hr'
      obtain rfl := mem_some.mp hr'
      exact ⟨v.start, hcounts.windowField, of_decide_eq_true (hstarts v rfl)⟩

/-- After some calls the row counts those since the last one that started a window, and began its
window at that one. -/
structure CountsSinceReset (k : CounterKey) (rows : List SqlRow) (cs : List CounterCall)
    (before : List CounterCall) (c : CounterCall) (rest : List CounterCall) : Prop where
  split : cs = before ++ c :: rest
  resets : k.Resets (k.row (k.run rows before)) c
  none_since : ∀ mid d rest', rest = mid ++ d :: rest' →
    ¬ k.Resets (k.row (k.run rows (before ++ c :: mid))) d
  row : ∃ r first last, k.row (k.run rows cs) = some r ∧ cs.head? = some first ∧
    cs.getLast? = some last ∧ k.Counts ⟨c.now, rest.length + 1⟩ first last r

theorem exists_countsSinceReset (hk : k.Accepted) {rows : List SqlRow} (hrows : k.row rows = none)
    {cs : List CounterCall} (hcs : cs ≠ []) :
    ∃ before c rest, k.CountsSinceReset rows cs before c rest := by
  obtain ⟨w, hw⟩ : ∃ w, Windows.after none (cs.map CounterCall.toCall) = some w := by
    obtain ⟨cs', d, rfl⟩ := (eq_nil_or_concat cs).resolve_left hcs
    rw [concat_eq_append, map_append, map_singleton, Windows.after_append_singleton]
    exact ⟨_, rfl⟩
  obtain ⟨before', c', rest', heq, hstarts, hsince, rfl⟩ := Windows.exists_starts_of_after hw
  obtain ⟨before, tail, rfl, rfl, htail⟩ := map_eq_append_iff.mp heq
  obtain ⟨c, rest, rfl, rfl, rfl⟩ := map_eq_cons_iff.mp htail
  refine ⟨before, c, rest, rfl, (resets_iff_starts hk hrows before c).mpr hstarts, ?_, ?_⟩
  · rintro mid d rest' rfl hresets
    rw [resets_iff_starts hk hrows, map_append, map_cons] at hresets
    exact hsince _ _ _ (by rw [map_append, map_cons]) hresets
  · rw [length_map] at hw
    exact counts_run hk hrows hw

/-! ## The rate limiter -/

def counters (k : CounterKey) (rows : List SqlRow) : List CounterCall → List (Option SqlValue)
  | [] => []
  | c :: cs => (k.row (k.run rows [c])).map (· k.countField) :: counters k (k.run rows [c]) cs

theorem run_singleton (hk : k.Accepted) (rows : List SqlRow) (c : CounterCall) :
    k.run rows [c] = (k.statement c).exec rows :=
  run_append_singleton hk rows [] c

theorem counters_eq_run (hk : k.Accepted) {rows : List SqlRow} {w : Option (Window ℤ)}
    (hw : ∀ v ∈ w, ∃ r first last, k.row rows = some r ∧ k.Counts v first last r)
    (hnone : w = none → k.row rows = none) (cs : List CounterCall) :
    k.counters rows cs =
      (Windows.run w (cs.map CounterCall.toCall)).map fun e ↦ some (.int e.2.calls) := by
  induction cs generalizing rows w with
  | nil => rfl
  | cons c cs ih =>
    obtain ⟨r', first, last, hr', hcounts⟩ : ∃ r' first last,
        k.row ((k.statement c).exec rows) = some r' ∧
          k.Counts (Window.next c.toCall w) first last r' := by
      rcases w with - | v
      · exact ⟨_, c, c, row_exec_of_none hk.distinct (hnone rfl) c, counts_proposed hk.distinct c⟩
      · obtain ⟨r, first, last, hr, hcounts⟩ := hw v rfl
        obtain ⟨r', hr', hcounts'⟩ := counts_exec hk.distinct hr hcounts c
        exact ⟨r', first, c, hr', hcounts'⟩
    have hnext : ∀ v ∈ some (Window.next c.toCall w), ∃ r first last,
        k.row ((k.statement c).exec rows) = some r ∧ k.Counts v first last r := by
      intro v hv
      obtain rfl := mem_some.mp hv
      exact ⟨r', first, last, hr', hcounts⟩
    rw [counters, run_singleton hk, map_cons, Windows.run, map_cons, hr', map_some,
      hcounts.countField, ih hnext (fun h ↦ absurd h (some_ne_none _))]

def Agrees (k : CounterKey) (rows : List SqlRow) (self : ShardedBuckets) (client : String)
    (limits : Limits) (origin : ℤ) (cs : List CounterCall) : Prop :=
  k.counters rows cs =
    (self.recordAll client limits (cs.map fun c ↦ (c.now - origin).toNat)).map
      fun n ↦ some (.int n.toNat)

section Agreement

variable {limits : Limits} {origin : ℤ} {cs : List CounterCall}
  (hcutoff : ∀ c ∈ cs, c.windowCutoff = c.now - limits.window)
include hcutoff

theorem map_toCall : cs.map CounterCall.toCall =
    (cs.map CounterCall.now).map (Windows.Call.fixed (limits.window : ℤ)) := by
  rw [List.map_map]
  refine map_congr_left fun c hc ↦ congrArg (Windows.Call.mk c.now) (funext fun start ↦ ?_)
  rw [decide_eq_decide, hcutoff c hc]
  exact ⟨fun h ↦ by omega, fun h ↦ by omega⟩

theorem run_toNat (horigin : ∀ c ∈ cs, origin ≤ c.now) :
    Windows.run none ((cs.map fun c ↦ (c.now - origin).toNat).map (Windows.Call.fixed limits.window)) =
      (Windows.run none (cs.map CounterCall.toCall)).map
        fun e ↦ ((e.1 - origin).toNat, ⟨(e.2.start - origin).toNat, e.2.calls⟩) := by
  have hexp : ∀ c ∈ cs.map CounterCall.toCall, ∀ d ∈ cs.map CounterCall.toCall,
      (Windows.Call.fixed limits.window (d.time - origin).toNat).expired (c.time - origin).toNat =
        d.expired c.time := by
    intro c' hc' d' hd'
    obtain ⟨c, hc, rfl⟩ := List.mem_map.mp hc'
    obtain ⟨d, hd, rfl⟩ := List.mem_map.mp hd'
    have hc₀ : origin ≤ c.now := horigin c hc
    have hd₀ : origin ≤ d.now := horigin d hd
    refine decide_eq_decide.mpr ?_
    dsimp only [CounterCall.toCall]
    rw [hcutoff d hd]
    omega
  have hrun := @Windows.run_map _ _ (fun t : ℤ ↦ (t - origin).toNat)
    (fun c ↦ Windows.Call.fixed limits.window (c.time - origin).toNat) none _ (fun _ _ ↦ rfl)
    (fun v hv ↦ absurd hv (not_mem_none v)) hexp
  rw [List.map_map] at hrun ⊢
  exact hrun

theorem counter_agrees_iff (hk : k.Accepted) {rows : List SqlRow} (hrows : k.row rows = none)
    {self : ShardedBuckets} {client : String} (hself : self.bucket (limits.bucketKey client) = none)
    (horigin : ∀ c ∈ cs, origin ≤ c.now) :
    k.Agrees rows self client limits origin cs ↔
      ∀ e ∈ Windows.run none ((cs.map CounterCall.now).map (Windows.Call.fixed (limits.window : ℤ))),
        e.2.calls < 2 ^ 32 := by
  have hsql := counters_eq_run hk (w := none) (fun v hv ↦ absurd hv (not_mem_none v))
    (fun _ ↦ hrows) cs
  have hrecord := ShardedBuckets.recordAll_eq_run (w := none) hself
    (cs.map fun c ↦ (c.now - origin).toNat)
  rw [run_toNat hcutoff horigin] at hrecord
  rw [Agrees, hsql, hrecord, List.map_map, List.map_map, map_inj_left, map_toCall hcutoff]
  refine forall₂_congr fun e _ ↦ ?_
  simp only [Function.comp_apply, Option.some.injEq, SqlValue.int.injEq, UInt32.toNat_ofNat']
  omega

end Agreement

/-- The row counts the calls since the last one that started a window; and with the cutoff a fixed
length before the call it agrees with the rate limiter if and only if no window has `2 ^ 32` calls,
at which the counter of the limiter wraps. -/
theorem windowedCounter_counts_and_agrees (k : CounterKey) (c₀ : CounterCall) (s₀ : InsertStatement)
    (hk : k.windowedCounterUpsertQuery c₀ = .ok s₀) (rows : List SqlRow) (hrows : k.row rows = none)
    (cs : List CounterCall) (hcs : cs ≠ []) :
    (∃ before c rest, k.CountsSinceReset rows cs before c rest) ∧
      ∀ (self : ShardedBuckets) (client : String) (limits : Limits) (origin : ℤ),
        self.bucket (limits.bucketKey client) = none →
        (∀ c ∈ cs, c.windowCutoff = c.now - limits.window ∧ origin ≤ c.now) →
        (k.Agrees rows self client limits origin cs ↔
          ∀ e ∈ Windows.run none ((cs.map CounterCall.now).map (Windows.Call.fixed (limits.window : ℤ))),
            e.2.calls < 2 ^ 32) :=
  ⟨exists_countsSinceReset (accepted_of_eq_ok hk) hrows hcs, fun _ _ _ _ hself hnow ↦
    counter_agrees_iff (fun c hc ↦ (hnow c hc).1) (accepted_of_eq_ok hk) hrows hself
      fun c hc ↦ (hnow c hc).2⟩

/-! ### A counter of requests -/

def requestCounter : CounterKey where
  table := "rl"
  conflictColumn := "ip"
  conflictValue := "10.0.0.1"
  countField := "count"
  windowField := "window_start"
  createdFields := ["created_at"]
  updatedFields := ["updated_at"]

def requestCall (now : ℤ) : CounterCall := ⟨"row-1", "2026-09-24T10:00:00+00:00", now, now - 60⟩

def minuteLimits : Limits := ⟨1000, 60, 64⟩

theorem requestCounter_ok :
    requestCounter.windowedCounterUpsertQuery (requestCall 0) =
      .ok (requestCounter.statement (requestCall 0)) := by
  rfl

theorem windowedCounter_counts_and_agrees_requests :
    (∃ before c rest, requestCounter.CountsSinceReset [] [requestCall 3, requestCall 70]
        before c rest) ∧
      (requestCounter.Agrees [] RateLimitBlock.noBuckets "10.0.0.1" minuteLimits 0
          [requestCall 3, requestCall 70] ↔
        ∀ e ∈ Windows.run none (([requestCall 3, requestCall 70].map CounterCall.now).map
          (Windows.Call.fixed (minuteLimits.window : ℤ))), e.2.calls < 2 ^ 32) :=
  have h := windowedCounter_counts_and_agrees requestCounter (requestCall 0) _ requestCounter_ok []
    rfl [requestCall 3, requestCall 70] (cons_ne_nil _ _)
  ⟨h.1, h.2 RateLimitBlock.noBuckets "10.0.0.1" minuteLimits 0 rfl (by decide)⟩

/-- `2 ^ 32` calls at once are more than the limiter can count, and the row counts them. -/
theorem flood_not_agrees :
    ¬ requestCounter.Agrees [] RateLimitBlock.noBuckets "10.0.0.1" minuteLimits 0
      (List.replicate (2 ^ 32) (requestCall 0)) := by
  have hcall : ∀ c ∈ List.replicate (2 ^ 32) (requestCall 0), c = requestCall 0 :=
    fun c hc ↦ eq_of_mem_replicate hc
  rw [counter_agrees_iff (fun c hc ↦ by rw [hcall c hc]; rfl) (accepted_of_eq_ok requestCounter_ok) rfl rfl
    (fun c hc ↦ by rw [hcall c hc]; exact Int.le_refl 0)]
  intro hlt
  obtain ⟨e, he, hcalls⟩ := Windows.exists_mem_run_replicate
    (by decide : (0 : ℤ) ≤ (minuteLimits.window : ℤ)) ⟨0, 1⟩ (2 ^ 32 - 2)
  have hmem : e ∈ Windows.run none (((List.replicate (2 ^ 32) (requestCall 0)).map
      CounterCall.now).map (Windows.Call.fixed (minuteLimits.window : ℤ))) := by
    rw [map_replicate]
    exact mem_cons_of_mem _ he
  have h := hlt e hmem
  rw [hcalls] at h
  exact absurd h (by decide)

end CounterKey

end WaferRun
