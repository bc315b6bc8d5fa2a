import WaferRun.Database.Query

/-!
# Pages of a list

A list that sorts or pages is ordered by the sort of the caller and then by the primary key of the
table. Whatever the sort is, that tells any two rows apart, so the rows have one order, the same at
every call, and the pages of a list fit together (`pages_complete`).
-/

open List Option

namespace WaferRun.Database

/-! ## The list operation -/

inductive DatabaseError
  | notFound
  | alreadyExists (message : String)
  | invalidArgument (message : String)
  | unavailable (message : String)
  | contended (message : String)
  | callBudgetExhausted (message : String)
  | internal (message : String)
  | other (message : String)
deriving DecidableEq, Repr

/-- What the executor learns about a table: the columns it has cached or just read, whether they
were cached, the columns the table has now, and its primary key. -/
structure TableView where
  known : List String
  cached : Bool
  current : List String
  primaryKey : List String

structure RecordList (Rec : Type) where
  records : List Rec
  totalCount : ℤ
  page : ℤ
  pageSize : ℤ

variable {Row Rec : Type} (E : Engine Row Rec)

def ofBuild {α : Type} (x : Except SqlBuildError α) : Except DatabaseError α :=
  x.mapError fun e ↦ .invalidArgument (e.display E.quote)

def sqlName (name : String) : Except DatabaseError String := ofBuild E (validateIdent name)

mutual

def leafFields : FilterTree → List String
  | .leaf f => [f.field]
  | .columnCompare f => [f.field, f.column]
  | .all children => treeLeafFields children
  | .any children => treeLeafFields children

def treeLeafFields : List FilterTree → List String
  | [] => []
  | node :: nodes => leafFields node ++ treeLeafFields nodes

end

def queryColumns (opts : ListOptions) : List String :=
  opts.filters.map Filter.field ++ opts.sort.map SortField.field ++
    treeLeafFields (opts.filterTree.getD []) ++ opts.columns.getD []

def firstMissing (existing columns : List String) : Option String :=
  columns.find? fun c ↦ !existing.contains (String.ofList (c.toList.map Char.toLower))

def requireColumns (schema : TableView) (table : String) (columns : List String) :
    Except DatabaseError Unit := do
  columns.forM fun column ↦ do let _ ← sqlName E column
  if columns.isEmpty then
    return
  if !schema.known.isEmpty && (firstMissing schema.known columns).isNone then
    return
  let current := if schema.cached then schema.current else schema.known
  if current.isEmpty then
    return
  match firstMissing current columns with
  | some column => throw (.invalidArgument ("`" ++ table ++ "` has no column `" ++ column ++ "`"))
  | none => return

def list (schema : TableView) (rows : List Row) (collection : String) (opts : ListOptions) :
    Except DatabaseError (RecordList Rec) := do
  let table ← sqlName E collection
  ofBuild E (checkPagination opts.limit opts.offset)
  requireColumns E schema table (queryColumns opts)
  let primaryKey := if ordersRows opts then schema.primaryKey else []
  let extraCond := opts.filterTree.bind fun tree ↦ buildConditionTree E.toDouble tree E.backend
  let countStmt := if opts.skipCount then none
    else some (buildCountWithCondition E.toDouble table opts.filters extraCond E.backend)
  let selectStmt ← ofBuild E <| match opts.columns with
    | some cols => buildSelectColumns E.toDouble table cols opts extraCond primaryKey E.backend
    | none => buildSelectWithCondition E.toDouble table opts extraCond primaryKey E.backend
  let records := (E.select selectStmt rows).map (E.record opts.columns)
  let page := match opts.limit with
    | some limit => opts.offset.tdiv limit + 1
    | none => 1
  let totalCount := (countStmt.map fun s ↦ E.count s rows).getD records.length
  return { records, totalCount, page, pageSize := (opts.limit.map Nat.cast).getD totalCount }

/-! ## Filtered rows -/

mutual

def Engine.holds (row : Row) : FilterTree → Bool
  | .leaf f => E.satisfies (leafExpr E.toDouble f E.backend) row
  | .columnCompare f => E.satisfies (columnCompareExpr f) row
  | .all children => Engine.holdAll row children
  | .any children => Engine.holdAny row children

def Engine.holdAll (row : Row) : List FilterTree → Bool
  | [] => true
  | node :: nodes => Engine.holds row node && Engine.holdAll row nodes

def Engine.holdAny (row : Row) : List FilterTree → Bool
  | [] => false
  | node :: nodes => Engine.holds row node || Engine.holdAny row nodes

end

def Engine.filtered (opts : ListOptions) (rows : List Row) : List Row :=
  rows.filter fun row ↦
    (opts.filters.all fun f ↦ E.satisfies (leafExpr E.toDouble f E.backend) row) &&
      E.holdAll row (opts.filterTree.getD [])

variable {E}

/-! ## Both statements select the filtered rows -/

theorem meetsAll_eq_all (row : Row) (conds : List Cond) :
    E.meetsAll row conds = conds.all (E.meets row) := by
  induction conds with
  | nil => rfl
  | cons c conds ih => rw [Engine.meetsAll, ih, all_cons]

mutual

theorem meets_nodeToCond (row : Row) (node : FilterTree) :
    E.meets row (nodeToCond E.toDouble E.backend node) = E.holds row node := by
  match node with
  | .leaf f => exact Bool.and_true _
  | .columnCompare f => exact Bool.and_true _
  | .all children => exact meetsAll_nodesToConds row children
  | .any children => exact meetsAny_nodesToConds row children

theorem meetsAll_nodesToConds (row : Row) (nodes : List FilterTree) :
    E.meetsAll row (nodesToConds E.toDouble E.backend nodes) = E.holdAll row nodes := by
  match nodes with
  | [] => rfl
  | node :: nodes =>
    rw [nodesToConds, Engine.meetsAll, Engine.holdAll, meets_nodeToCond row node,
      meetsAll_nodesToConds row nodes]

theorem meetsAny_nodesToConds (row : Row) (nodes : List FilterTree) :
    E.meetsAny row (nodesToConds E.toDouble E.backend nodes) = E.holdAny row nodes := by
  match nodes with
  | [] => rfl
  | node :: nodes =>
    rw [nodesToConds, Engine.meetsAny, Engine.holdAny, meets_nodeToCond row node,
      meetsAny_nodesToConds row nodes]

end

theorem all_buildCondition (filters : List Filter) (row : Row) :
    (buildCondition E.toDouble filters E.backend).toList.all (E.meets row) =
      filters.all fun f ↦ E.satisfies (leafExpr E.toDouble f E.backend) row := by
  unfold buildCondition
  split
  · next hempty => rw [List.isEmpty_iff.mp hempty]; rfl
  · rw [toList_some, all_cons, all_nil, Bool.and_true, Engine.meets,
      meetsAll_eq_all, List.all_map]
    rfl

theorem all_buildConditionTree (tree : Option (List FilterTree)) (row : Row) :
    (tree.bind fun tree ↦ buildConditionTree E.toDouble tree E.backend).toList.all (E.meets row) =
      E.holdAll row (tree.getD []) := by
  rcases tree with - | nodes
  · rfl
  · rw [bind_some, getD_some, buildConditionTree]
    split
    · next hempty => rw [List.isEmpty_iff.mp hempty]; rfl
    · rw [toList_some, all_cons, all_nil, Bool.and_true, Engine.meets,
        meetsAll_nodesToConds]

theorem found_conditions (opts : ListOptions) (rows : List Row) :
    E.found (conditions E.toDouble opts.filters
      (opts.filterTree.bind fun tree ↦ buildConditionTree E.toDouble tree E.backend) E.backend) rows =
      E.filtered opts rows := by
  refine filter_congr fun row _ ↦ ?_
  rw [conditions, all_append, all_buildCondition, all_buildConditionTree]

/-! ## The order -/

theorem transCmp_termOrder (hcompare : ∀ column, Std.TransCmp (E.compare column)) (t : OrderTerm) :
    Std.TransCmp (E.termOrder t) := by
  have : Std.TransCmp (E.compare t.field) := hcompare t.field
  rcases hdesc : t.desc with - | -
  · have heq : E.termOrder t = E.compare t.field := by
      funext a b
      rw [Engine.termOrder, hdesc, if_neg Bool.false_ne_true]
    rw [heq]
    infer_instance
  · have heq : E.termOrder t = fun a b ↦ E.compare t.field b a := by
      funext a b
      rw [Engine.termOrder, hdesc, if_pos rfl]
    rw [heq]
    infer_instance

theorem transCmp_rowOrder (hcompare : ∀ column, Std.TransCmp (E.compare column))
    (order : List OrderTerm) : Std.TransCmp (E.rowOrder order) := by
  refine Paging.transCmp_lexOrder fun cmp hcmp ↦ ?_
  obtain ⟨t, -, rfl⟩ := List.mem_map.mp hcmp
  exact transCmp_termOrder hcompare t

theorem compare_eq_of_rowOrder_eq (hE : E.Lawful) {order : List OrderTerm} {a b : Row}
    (h : E.rowOrder order a b = .eq) {t : OrderTerm} (ht : t ∈ order) :
    E.compare t.field a b = .eq := by
  have hterm : E.termOrder t a b = .eq := Paging.lexOrder_eq_eq.mp h _ (List.mem_map_of_mem ht)
  rw [Engine.termOrder] at hterm
  split at hterm
  · have := hE.compare t.field
    rw [Std.OrientedCmp.eq_comm]
    exact hterm
  · exact hterm

theorem exists_mem_order {opts : ListOptions} (hopts : ordersRows opts = true) {key : List String}
    {column : String} (h : column ∈ key) :
    ∃ t ∈ applyOrderWithUniqueKey opts key, t.field = column := by
  rw [applyOrderWithUniqueKey, hopts, Bool.not_true, if_neg Bool.false_ne_true]
  by_cases hsort : ∃ s ∈ opts.sort, s.field = column
  · obtain ⟨s, hs, rfl⟩ := hsort
    exact ⟨⟨s.field, s.desc⟩, mem_append_left _ (List.mem_map.mpr ⟨s, hs, rfl⟩), rfl⟩
  · refine ⟨⟨column, _⟩, mem_append_right _ (List.mem_map.mpr ⟨column, ?_, rfl⟩), rfl⟩
    refine mem_filter.mpr ⟨h, ?_⟩
    rw [Bool.not_eq_true', List.any_eq_false]
    intro s hs heq
    exact hsort ⟨s, hs, of_decide_eq_true heq⟩

def UniqueKey (E : Engine Row Rec) (key : List String) (rows : List Row) : Prop :=
  rows.Pairwise fun a b ↦ ∃ column ∈ key, E.compare column a b ≠ .eq

theorem UniqueKey.eq_of_compare_eq (hE : E.Lawful) {key : List String} {rows : List Row}
    (h : UniqueKey E key rows) {a b : Row} (ha : a ∈ rows) (hb : b ∈ rows)
    (heq : ∀ column ∈ key, E.compare column a b = .eq) : a = b := by
  by_contra hne
  have hswap : ∀ column ∈ key, E.compare column b a = .eq := by
    intro column hcolumn
    have := hE.compare column
    rw [Std.OrientedCmp.eq_comm]
    exact heq column hcolumn
  obtain ⟨i, hi, rfl⟩ := mem_iff_getElem.mp ha
  obtain ⟨j, hj, rfl⟩ := mem_iff_getElem.mp hb
  rcases lt_trichotomy i j with hij | rfl | hij
  · obtain ⟨column, hcolumn, hdiff⟩ := pairwise_iff_getElem.mp h i j hi hj hij
    exact hdiff (heq column hcolumn)
  · exact hne rfl
  · obtain ⟨column, hcolumn, hdiff⟩ := pairwise_iff_getElem.mp h j i hj hi hij
    exact hdiff (hswap column hcolumn)

theorem eq_of_rowOrder_eq (hE : E.Lawful) {opts : ListOptions} (hopts : ordersRows opts = true)
    {key : List String} {rows : List Row} (hkey : UniqueKey E key rows) {a b : Row} (ha : a ∈ rows)
    (hb : b ∈ rows) (h : E.rowOrder (applyOrderWithUniqueKey opts key) a b = .eq) : a = b := by
  refine hkey.eq_of_compare_eq hE ha hb fun column hcolumn ↦ ?_
  obtain ⟨t, ht, rfl⟩ := exists_mem_order hopts hcolumn
  exact compare_eq_of_rowOrder_eq hE h ht

/-! ## Pages -/

def pageAt (opts : ListOptions) (offset : ℕ) : ListOptions := { opts with offset }

section Pages

variable {schema : TableView} {rows : List Row} {collection table : String} {opts : ListOptions}
  {n : ℕ}

theorem ordersRows_pageAt (hlimit : opts.limit = some n) (offset : ℕ) :
    ordersRows (pageAt opts offset) = true := by
  simp [ordersRows, pageAt, hlimit]

theorem applyOrderWithUniqueKey_pageAt (hlimit : opts.limit = some n) (key : List String)
    (offset : ℕ) : applyOrderWithUniqueKey (pageAt opts offset) key =
      applyOrderWithUniqueKey (pageAt opts 0) key := by
  rw [applyOrderWithUniqueKey, applyOrderWithUniqueKey, ordersRows_pageAt hlimit,
    ordersRows_pageAt hlimit]
  rfl

def pageSelect (E : Engine Row Rec) (schema : TableView) (table : String) (opts : ListOptions)
    (offset : ℕ) : SelectStatement where
  table := table
  columns := opts.columns
  conds := conditions E.toDouble opts.filters
    (opts.filterTree.bind fun tree ↦ buildConditionTree E.toDouble tree E.backend) E.backend
  order := applyOrderWithUniqueKey (pageAt opts 0) schema.primaryKey
  limit := opts.limit
  offset := if 0 < (offset : ℤ) then some offset else none

theorem checkPagination_pageAt (hlimit : opts.limit = some n) (hn : 0 < n) (offset : ℕ) :
    checkPagination (pageAt opts offset).limit (pageAt opts offset).offset = .ok () := by
  obtain ⟨n, rfl⟩ := Nat.exists_eq_succ_of_ne_zero hn.ne'
  simp only [pageAt, hlimit, checkPagination]

theorem selectWithProjection_pageAt (hlimit : opts.limit = some n) (hn : 0 < n) (offset : ℕ) :
    selectWithProjection E.toDouble table opts.columns (pageAt opts offset)
      (opts.filterTree.bind fun tree ↦ buildConditionTree E.toDouble tree E.backend)
      schema.primaryKey E.backend = .ok (pageSelect E schema table opts offset) := by
  obtain ⟨n, rfl⟩ := Nat.exists_eq_succ_of_ne_zero hn.ne'
  rw [selectWithProjection, applyOrderWithUniqueKey_pageAt hlimit, applyPagination]
  simp only [pageAt, hlimit, checkPagination, pageSelect, Int.toNat_natCast]
  rfl

theorem ofBuild_bind {α β : Type} {x : Except SqlBuildError α} {a : α} (h : x = .ok a)
    (k : α → Except DatabaseError β) : (ofBuild E x >>= k) = k a := by
  rw [h]
  rfl

/-- The answer to a page, if the names of the request are accepted. -/
theorem list_pageAt (hlimit : opts.limit = some n) (hn : 0 < n)
    (htable : sqlName E collection = .ok table)
    (hcolumns : requireColumns E schema table (queryColumns opts) = .ok ()) (offset : ℕ) :
    ∃ page pageSize, list E schema rows collection (pageAt opts offset) = .ok
      { records := (E.select (pageSelect E schema table opts offset) rows).map
          (E.record opts.columns)
        totalCount := if opts.skipCount then
            ((E.select (pageSelect E schema table opts offset) rows).length : ℤ)
          else (E.filtered opts rows).length
        page, pageSize } := by
  have hselect := @selectWithProjection_pageAt _ _ E schema table opts n hlimit hn offset
  have hcheck : checkPagination (pageAt opts offset).limit (pageAt opts offset).offset = .ok () :=
    checkPagination_pageAt hlimit hn offset
  have hcols : queryColumns (pageAt opts offset) = queryColumns opts := rfl
  have hcount : E.count (buildCountWithCondition E.toDouble table opts.filters
      (opts.filterTree.bind fun tree ↦ buildConditionTree E.toDouble tree E.backend) E.backend)
      rows = (E.filtered opts rows).length := by
    rw [Engine.count, buildCountWithCondition, found_conditions]
  have hbuild : (match opts.columns with
      | some cols => buildSelectColumns E.toDouble table cols (pageAt opts offset)
          (opts.filterTree.bind fun tree ↦ buildConditionTree E.toDouble tree E.backend)
          schema.primaryKey E.backend
      | none => buildSelectWithCondition E.toDouble table (pageAt opts offset)
          (opts.filterTree.bind fun tree ↦ buildConditionTree E.toDouble tree E.backend)
          schema.primaryKey E.backend) = .ok (pageSelect E schema table opts offset) := by
    rw [← hselect]
    rcases opts.columns with - | cols <;> rfl
  refine ⟨(offset : ℤ).tdiv n + 1, n, ?_⟩
  rw [list, htable]
  refine (ofBuild_bind hcheck _).trans ?_
  rw [hcols, hcolumns]
  simp only [ordersRows_pageAt hlimit, if_true]
  refine (ofBuild_bind hbuild _).trans ?_
  change Except.ok _ = Except.ok _
  simp only [pageAt, hlimit]
  rcases opts.skipCount with - | -
  · simp only [Bool.false_eq_true, if_false, map_some, getD_some, hcount]
  · simp only [if_true, map_none, getD_none, length_map]
    rfl

/-- The name of the collection and every column that is asked for are found. -/
def Accepted (E : Engine Row Rec) (schema : TableView) (collection : String) (opts : ListOptions) :
    Prop :=
  ∃ table, sqlName E collection = .ok table ∧
    requireColumns E schema table (queryColumns opts) = .ok ()

theorem accepted_or_refused (E : Engine Row Rec) (schema : TableView) (rows : List Row)
    (collection : String) (hlimit : opts.limit = some n) (hn : 0 < n) :
    Accepted E schema collection opts ∨ ¬Accepted E schema collection opts ∧
      ∃ e, ∀ offset, list E schema rows collection (pageAt opts offset) = .error e := by
  rcases htable : sqlName E collection with e | table
  · right
    refine ⟨fun ⟨_, hok, _⟩ ↦ (by rw [htable] at hok; cases hok), e, fun offset ↦ ?_⟩
    rw [Database.list, htable]
    rfl
  rcases hcolumns : requireColumns E schema table (queryColumns opts) with e | ⟨⟨⟩⟩
  · right
    refine ⟨fun ⟨_, hok, hfound⟩ ↦ ?_, e, fun offset ↦ ?_⟩
    · rw [htable] at hok
      cases hok
      rw [hcolumns] at hfound
      cases hfound
    rw [Database.list, htable]
    change (ofBuild E (checkPagination (pageAt opts offset).limit (pageAt opts offset).offset) >>=
      _) = _
    rw [checkPagination_pageAt hlimit hn]
    change (requireColumns E schema table (queryColumns opts) >>= _) = _
    rw [hcolumns]
    rfl
  · exact .inl ⟨table, htable, hcolumns⟩

theorem select_pageSelect (hlimit : opts.limit = some n) (offset : ℕ) :
    E.select (pageSelect E schema table opts offset) rows =
      ((E.arrange (pageSelect E schema table opts offset) (E.filtered opts rows)).drop offset).take
        n := by
  have hoffset : (pageSelect E schema table opts offset).offset.getD 0 = offset := by
    rw [pageSelect]
    split
    · rfl
    · next hle => rw [getD_none]; omega
  have hconds : E.found (pageSelect E schema table opts offset).conds rows =
      E.filtered opts rows := found_conditions opts rows
  have hlim : (pageSelect E schema table opts offset).limit = some n := hlimit
  rw [Engine.select, hlim, hoffset, hconds]

/-- The pages of a list are the filtered rows, each once, in the order of the sort and the key, and
every page tells their number; or a name or a column is not found, and every page is refused. -/
theorem pages_complete (hE : E.Lawful) (hkey : UniqueKey E schema.primaryKey rows)
    (hlimit : opts.limit = some n) (hn : 0 < n) :
    let order := E.rowOrder (applyOrderWithUniqueKey (pageAt opts 0) schema.primaryKey)
    Std.TransCmp order ∧ (∀ a ∈ rows, ∀ b ∈ rows, order a b = .eq → a = b) ∧
      ((¬Accepted E schema collection opts ∧
          ∃ e, ∀ offset, list E schema rows collection (pageAt opts offset) = .error e) ∨
        Accepted E schema collection opts ∧ ∃ (sorted : List Row) (page : ℕ → RecordList Rec),
          sorted.Perm (E.filtered opts rows) ∧ sorted.Pairwise (fun a b ↦ (order a b).isLE) ∧
          (∀ i, list E schema rows collection (pageAt opts (i * n)) = .ok (page i)) ∧
          (∀ m, (E.filtered opts rows).length ≤ m * n →
            ((List.range m).flatMap fun i ↦ (page i).records) =
              sorted.map (E.record opts.columns)) ∧
          (opts.skipCount = false →
            ∀ i, (page i).totalCount = (E.filtered opts rows).length)) := by
  intro order
  have horder : Std.TransCmp order := transCmp_rowOrder hE.compare _
  have hties : ∀ a ∈ rows, ∀ b ∈ rows, order a b = .eq → a = b := fun a ha b hb ↦
    eq_of_rowOrder_eq hE (ordersRows_pageAt hlimit 0) hkey ha hb
  refine ⟨horder, hties, ?_⟩
  obtain haccepted | hrefused :=
    accepted_or_refused E schema rows collection hlimit hn
  · right
    obtain ⟨table, htable, hcolumns⟩ := haccepted
    refine ⟨⟨table, htable, hcolumns⟩, ?_⟩
    -- Every select arranges the same rows by the same order, so the engine has no choice.
    have hfiltered : ∀ a ∈ E.filtered opts rows, ∀ b ∈ E.filtered opts rows, order a b = .eq →
        a = b := fun a ha b hb ↦
      hties a (mem_of_mem_filter ha) b (mem_of_mem_filter hb)
    let arranged (offset : ℕ) : List Row :=
      E.arrange (pageSelect E schema table opts offset) (E.filtered opts rows)
    have harranged (offset : ℕ) : arranged offset = arranged 0 :=
      Paging.eq_of_perm_of_sorted hfiltered (hE.perm _ _) (hE.perm _ _)
        (hE.sorted (pageSelect E schema table opts offset) _)
        (hE.sorted (pageSelect E schema table opts 0) _)
    choose page pageSize hpage using fun i ↦
      @list_pageAt _ _ E schema rows _ _ _ _ hlimit hn htable hcolumns (i * n)
    refine ⟨arranged 0, _, hE.perm _ _, hE.sorted (pageSelect E schema table opts 0) _, hpage,
      fun m hm ↦ ?_, fun hskip i ↦ ?_⟩
    · have hrecords (i : ℕ) : E.select (pageSelect E schema table opts (i * n)) rows =
          ((arranged 0).drop (i * n)).take n := by
        rw [select_pageSelect hlimit, ← harranged (i * n)]
      have hlength : (arranged 0).length ≤ m * n := by
        rw [(hE.perm _ _).length_eq]
        exact hm
      simp only [hrecords]
      rw [← map_flatMap, Paging.flatMap_pages, take_of_length_le hlength]
    · simp only [hskip, Bool.false_eq_true, if_false]
  · exact .inl hrefused

end Pages

/-! ### A table of scores -/

def scoreCompare (column : String) : ℕ × ℕ → ℕ × ℕ → Ordering :=
  if column = "id" then compareOn Prod.fst else compareOn Prod.snd

/-- An engine for rows with an `id` and a score, which sorts stably. -/
def scoreEngine : Engine (ℕ × ℕ) (ℕ × ℕ) where
  backend := .sqlite
  toDouble _ := 0
  satisfies _ _ := false
  compare := scoreCompare
  arrange s rows := rows.mergeSort fun a b ↦ (Paging.lexOrder (s.order.map fun t a b ↦
    if t.desc then scoreCompare t.field b a else scoreCompare t.field a b) a b).isLE
  record _ row := row
  quote name := "\"" ++ name ++ "\""

theorem scoreEngine_lawful : scoreEngine.Lawful := by
  have hcompare (column : String) : Std.TransCmp (scoreEngine.compare column) := by
    change Std.TransCmp (scoreCompare column)
    rw [scoreCompare]
    split
    · exact inferInstanceAs (Std.TransCmp (compareOn Prod.fst))
    · exact inferInstanceAs (Std.TransCmp (compareOn Prod.snd))
  refine ⟨hcompare, fun _ _ ↦ mergeSort_perm _ _, fun s rows ↦ ?_⟩
  have horder := transCmp_rowOrder hcompare s.order
  refine pairwise_mergeSort (fun a b c hab hbc ↦ ?_) (fun a b ↦ ?_) rows
  · exact horder.isLE_trans hab hbc
  · have hswap : scoreEngine.rowOrder s.order b a = (scoreEngine.rowOrder s.order a b).swap :=
      horder.eq_swap
    change ((scoreEngine.rowOrder s.order a b).isLE ||
      (scoreEngine.rowOrder s.order b a).isLE) = true
    rw [hswap]
    rcases scoreEngine.rowOrder s.order a b <;> rfl

def scoreTable : TableView where
  known := ["id", "score"]
  cached := true
  current := ["id", "score"]
  primaryKey := ["id"]

def scoreRows : List (ℕ × ℕ) := [(1, 50), (2, 70), (3, 50)]

def scoreOptions : ListOptions where
  filters := []
  sort := [⟨"score", true⟩]
  limit := some 2
  offset := 0
  skipCount := false
  filterTree := none
  columns := none

theorem pages_complete_scoreRows : ∃ page : ℕ → RecordList (ℕ × ℕ),
    (∀ i, list scoreEngine scoreTable scoreRows "scores" (pageAt scoreOptions (i * 2)) =
      .ok (page i)) ∧ ∀ i, (page i).totalCount = 3 := by
  have hkey : UniqueKey scoreEngine scoreTable.primaryKey scoreRows := by
    have hids : scoreRows.Pairwise fun a b ↦ scoreCompare "id" a b ≠ .eq := by decide
    exact hids.imp fun h ↦ ⟨"id", mem_singleton_self _, h⟩
  have haccepted : (list scoreEngine scoreTable scoreRows "scores"
      (pageAt scoreOptions 0)).toBool = true := by decide
  obtain ⟨-, -, ⟨-, e, hrefused⟩ | ⟨-, -, page, -, -, hpage, -, hcount⟩⟩ :=
    @pages_complete _ _ _ _ _ "scores" scoreOptions _ scoreEngine_lawful hkey rfl Nat.two_pos
  · rw [hrefused 0] at haccepted
    cases haccepted
  · exact ⟨page, hpage, hcount rfl⟩

end WaferRun.Database
