import WaferRun.Database.TextPatterns

/-!
# Catalog reads on SQLite

Four statements read the catalog: two listings, a test for existence, and the description of a
table. The first three select rows of `sqlite_master`; the last calls a table pragma, which resolves
its name without regard to case, to a view as well as to a table.

So the test for existence agrees with the listing on every name but the empty one, which it refuses
and a table may have (`tableExists_eq_one_iff`). The other two do not: a description may be of
something the listing leaves out or spells otherwise, and a listing by prefix ignores case, and the
wildcard after a NUL. `agrees_iff` says when they agree.
-/

open List

namespace WaferRun.Database

open Text Wildcards

/-! ## Catalogs -/

inductive EntryKind
  | table
  | view
  | index
deriving DecidableEq, Repr

/-- A row of `pragma_table_xinfo`. -/
structure XinfoRow where
  name : List Char
  declType : List Char
  notNull : Bool
  dfltValue : Option (List Char)
  pk : ℕ
  hidden : ℕ
deriving DecidableEq, Repr

structure CatalogEntry where
  kind : EntryKind
  name : List Char
  columns : List XinfoRow
deriving DecidableEq, Repr

/-- The catalog of a SQLite database. The engine also knows tables it does not record, such as the
catalog itself. -/
structure Catalog where
  entries : List CatalogEntry
  builtin : List CatalogEntry
  named : ∀ e ∈ entries, '\x00' ∉ e.name
  distinct : entries.Pairwise fun e e' ↦ asciiLower e.name ≠ asciiLower e'.name

/-- A condition on the rows of `sqlite_master`, with its parameter bound. -/
inductive MasterCond
  | typeIsTable
  | nameNotLike (pattern : List Char)
  | nameLike (pattern : List Char)
  | nameIs (name : List Char)

def MasterCond.holds (e : CatalogEntry) : MasterCond → Bool
  | typeIsTable => e.kind = .table
  | nameNotLike pattern => !sqlLike .sqlite pattern e.name
  | nameLike pattern => sqlLike .sqlite pattern e.name
  | nameIs name => e.name = name

namespace Catalog

variable (c : Catalog)

def rows (conds : List MasterCond) : List CatalogEntry :=
  c.entries.filter fun e ↦ conds.all (·.holds e)

/-- `SELECT name FROM sqlite_master WHERE … ORDER BY name`. -/
def names (conds : List MasterCond) : List (List Char) :=
  ((c.rows conds).map (·.name)).mergeSort fun a b ↦ decide (a ≤ b)

/-- `SELECT EXISTS(SELECT 1 FROM sqlite_master WHERE …)`. -/
def present (conds : List MasterCond) : ℕ := if (c.rows conds).isEmpty then 0 else 1

def resolve (name : List Char) : Option CatalogEntry :=
  (c.entries ++ c.builtin).find? fun e ↦ e.kind ≠ .index ∧ asciiLower e.name = asciiLower name

/-- `SELECT … FROM pragma_table_xinfo(?1) WHERE hidden <> 1 ORDER BY cid`. -/
def tableXinfo (name : List Char) : List XinfoRow :=
  match c.resolve name with
  | none => []
  | some e => e.columns.filter (·.hidden ≠ 1)

end Catalog

/-! ## The statements -/

def sqliteReservedTablePrefixes : List (List Char) := ["sqlite_".toList, "_cf_".toList]

def sqliteNotReserved : List MasterCond :=
  sqliteReservedTablePrefixes.map fun p ↦ .nameNotLike (escapeLike p ++ ['%'])

def buildListTables : List MasterCond := .typeIsTable :: sqliteNotReserved

def buildListTablesLike (p : List Char) : List MasterCond :=
  .typeIsTable :: sqliteNotReserved ++ [.nameLike (escapeLike p ++ ['%'])]

def validateCatalogName (table : List Char) : Except SqlBuildError (List Char) :=
  if table = [] ∨ '\x00' ∈ table then .error (.invalidIdentifier (String.ofList table))
  else .ok table

def buildCatalogTableExists (table : List Char) : Except SqlBuildError (List MasterCond) :=
  (validateCatalogName table).map fun name ↦ .typeIsTable :: sqliteNotReserved ++ [.nameIs name]

/-- The parameter of the pragma. -/
def buildTableInfo (table : List Char) : Except SqlBuildError (List Char) :=
  validateCatalogName table

namespace Catalog

variable (c : Catalog)

def listTables : List (List Char) := c.names buildListTables

def listTablesLike (p : List Char) : List (List Char) := c.names (buildListTablesLike p)

def tableExists (name : List Char) : Except SqlBuildError ℕ :=
  (buildCatalogTableExists name).map c.present

def tableInfo (name : List Char) : Except SqlBuildError (List XinfoRow) :=
  (buildTableInfo name).map c.tableXinfo

structure Agrees (name p : List Char) : Prop where
  tableExists : c.tableExists name = .ok 1 ↔ name ∈ c.listTables
  tableInfo : ∀ rows, c.tableInfo name = .ok rows → rows ≠ [] → name ∈ c.listTables
  listTablesLike : ∀ n, n ∈ c.listTablesLike p ↔ n ∈ c.listTables ∧ p <+: n

end Catalog

def Reserved (name : List Char) : Prop :=
  ∃ p ∈ sqliteReservedTablePrefixes, asciiLower p <+: asciiLower name

/-- A name that a search by prefix may take for one that starts with the prefix. -/
def Confusable (p name : List Char) : Prop :=
  if '\x00' ∈ p then asciiLower name = asciiLower (cString p)
  else asciiLower p <+: asciiLower name ∧ ¬p <+: name

/-! ## Patterns -/

theorem sqlLike_sqlite {p s : List Char} (h : '\x00' ∉ p) (hs : '\x00' ∉ s) :
    sqlLike .sqlite (escapeLike p ++ ['%']) s = true ↔ asciiLower p <+: asciiLower s := by
  have hread : cString (escapeLike p ++ ['%']) = escapeLike p ++ ['%'] := by
    rw [cString_append (nul_not_mem_escapeLike h)]
    rfl
  rw [sqlLike, hread, likePieces_escapeLike, cString_eq_self hs]
  change matchesAll (literal Char.toLower p ++ [.many]) s = true ↔ _
  exact matchesAll_literal_many

theorem sqlLike_sqlite_nul {p s : List Char} (h : '\x00' ∈ p) (hs : '\x00' ∉ s) :
    sqlLike .sqlite (escapeLike p ++ ['%']) s = true ↔ asciiLower s = asciiLower (cString p) := by
  obtain ⟨w, rest, rfl, hw⟩ := eq_append_cons_of_mem h
  have hread : cString (escapeLike (w ++ '\x00' :: rest) ++ ['%']) = escapeLike w ++ [] := by
    rw [escapeLike, flatMap_append, append_assoc, ← escapeLike,
      cString_append (nul_not_mem_escapeLike hw)]
    rfl
  rw [cString_append_nul hw, sqlLike, hread, likePieces_escapeLike, cString_eq_self hs]
  change matchesAll (literal Char.toLower w ++ []) s = true ↔ _
  rw [append_nil]
  exact matchesAll_literal

theorem confusable_iff {p name : List Char} (hname : '\x00' ∉ name) :
    Confusable p name ↔ sqlLike .sqlite (escapeLike p ++ ['%']) name = true ∧ ¬p <+: name := by
  by_cases h : '\x00' ∈ p
  · rw [Confusable, if_pos h, sqlLike_sqlite_nul h hname]
    exact (and_iff_left fun hpre ↦ hname (hpre.subset h)).symm
  · rw [Confusable, if_neg h, sqlLike_sqlite h hname]

/-! ## What the statements read -/

variable {c : Catalog}

theorem mem_rows {conds : List MasterCond} {e : CatalogEntry} :
    e ∈ c.rows conds ↔ e ∈ c.entries ∧ ∀ q ∈ conds, q.holds e = true := by
  rw [Catalog.rows, mem_filter, all_eq_true]

theorem mem_names {conds : List MasterCond} {n : List Char} :
    n ∈ c.names conds ↔ ∃ e ∈ c.entries, (∀ q ∈ conds, q.holds e = true) ∧ e.name = n := by
  rw [Catalog.names, mem_mergeSort, mem_map]
  simp only [mem_rows, and_assoc]

theorem sqliteNotReserved_holds {e : CatalogEntry} (he : e ∈ c.entries) :
    (∀ q ∈ sqliteNotReserved, q.holds e = true) ↔ ¬Reserved e.name := by
  have hnul : ∀ p ∈ sqliteReservedTablePrefixes, '\x00' ∉ p := by decide
  rw [sqliteNotReserved, forall_mem_map, Reserved]
  push Not
  refine forall₂_congr fun p hp ↦ ?_
  rw [MasterCond.holds, Bool.not_eq_true', ← Bool.not_eq_true, 
    sqlLike_sqlite (hnul p hp) (c.named e he)]

theorem listTables_holds {e : CatalogEntry} (he : e ∈ c.entries) :
    (∀ q ∈ buildListTables, q.holds e = true) ↔ e.kind = .table ∧ ¬Reserved e.name := by
  rw [buildListTables, forall_mem_cons, sqliteNotReserved_holds he, MasterCond.holds,
    decide_eq_true_iff]

theorem mem_listTables {n : List Char} :
    n ∈ c.listTables ↔ ∃ e ∈ c.entries, (e.kind = .table ∧ ¬Reserved e.name) ∧ e.name = n := by
  rw [Catalog.listTables, mem_names]
  exact exists_congr fun e ↦ and_congr_right fun he ↦ and_congr_left fun _ ↦ listTables_holds he

theorem nul_not_mem_of_mem_listTables {n : List Char} (h : n ∈ c.listTables) : '\x00' ∉ n := by
  obtain ⟨e, he, -, rfl⟩ := mem_listTables.mp h
  exact c.named e he

theorem mem_listTablesLike {p n : List Char} :
    n ∈ c.listTablesLike p ↔
      n ∈ c.listTables ∧ sqlLike .sqlite (escapeLike p ++ ['%']) n = true := by
  rw [Catalog.listTablesLike, buildListTablesLike, ← buildListTables, mem_names,
    Catalog.listTables, mem_names]
  constructor
  · rintro ⟨e, he, hconds, rfl⟩
    obtain ⟨hlist, hlike⟩ := List.forall_mem_append.mp hconds
    exact ⟨⟨e, he, hlist, rfl⟩, hlike _ mem_cons_self⟩
  · rintro ⟨⟨e, he, hlist, rfl⟩, hlike⟩
    exact ⟨e, he, List.forall_mem_append.mpr ⟨hlist, forall_mem_singleton.mpr hlike⟩, rfl⟩

theorem nil_mem_listTables_iff :
    [] ∈ c.listTables ↔ ∃ e ∈ c.entries, e.kind = .table ∧ e.name = [] := by
  have hnil : ¬Reserved [] := by
    rintro ⟨p, hp, hpre⟩
    have hne : ∀ p ∈ sqliteReservedTablePrefixes, asciiLower p ≠ [] := by decide
    exact hne p hp (prefix_nil.mp hpre)
  rw [mem_listTables]
  refine exists_congr fun e ↦ and_congr_right fun _ ↦ ?_
  constructor
  · exact fun h ↦ ⟨h.1.1, h.2⟩
  · exact fun h ↦ ⟨⟨h.1, h.2 ▸ hnil⟩, h.2⟩

/-- The test for existence agrees with the listing on every name but the empty one. -/
theorem tableExists_eq_one_iff {n : List Char} :
    c.tableExists n = .ok 1 ↔ n ≠ [] ∧ n ∈ c.listTables := by
  have hpresent : c.present (buildListTables ++ [.nameIs n]) = 1 ↔ n ∈ c.listTables := by
    rw [Catalog.present, ite_eq_right_iff, imp_iff_not Nat.zero_ne_one, Bool.not_eq_true,
      isEmpty_eq_false_iff_exists_mem, mem_listTables]
    refine exists_congr fun e ↦ ?_
    rw [mem_rows, List.forall_mem_append, forall_mem_singleton, MasterCond.holds,
      decide_eq_true_iff]
    exact and_congr_right fun he ↦ and_congr_left fun _ ↦ listTables_holds he
  constructor
  · intro h
    rw [Catalog.tableExists, buildCatalogTableExists] at h
    rcases hvalid : validateCatalogName n with err | m
    · rw [hvalid] at h
      cases h
    · have hm : n ≠ [] ∧ m = n := by
        rw [validateCatalogName] at hvalid
        split at hvalid
        · cases hvalid
        next hbad => exact ⟨fun hnil ↦ hbad (.inl hnil), (Except.ok.inj hvalid).symm⟩
      rw [hvalid, hm.2] at h
      exact ⟨hm.1, hpresent.mp (Except.ok.inj h)⟩
  · rintro ⟨hne, h⟩
    have hvalid : validateCatalogName n = .ok n :=
      if_neg (not_or.mpr ⟨hne, nul_not_mem_of_mem_listTables h⟩)
    rw [Catalog.tableExists, buildCatalogTableExists, hvalid]
    exact congrArg Except.ok (hpresent.mpr h)

theorem resolve_of_mem {n : List Char} (h : n ∈ c.listTables) :
    ∃ e, c.resolve n = some e ∧ e ∈ c.entries ∧ (e.kind = .table ∧ ¬Reserved e.name) ∧
      e.name = n := by
  obtain ⟨e, he, hlisted, rfl⟩ := mem_listTables.mp h
  obtain ⟨before, after, hentries⟩ := append_of_mem he
  refine ⟨e, ?_, he, hlisted, rfl⟩
  have hbefore : ∀ e' ∈ before,
      ¬decide (e'.kind ≠ .index ∧ asciiLower e'.name = asciiLower e.name) = true := by
    have hdistinct := c.distinct
    rw [hentries] at hdistinct
    intro e' he' hfound
    exact (pairwise_append.mp hdistinct).2.2 e' he' e mem_cons_self
      (of_decide_eq_true hfound).2
  have hkind : e.kind ≠ .index := by rw [hlisted.1]; exact EntryKind.noConfusion
  rw [Catalog.resolve, hentries, append_assoc, List.find?_append,
    List.find?_eq_none.mpr hbefore, cons_append, Option.none_or]
  exact List.find?_cons_of_pos (decide_eq_true ⟨hkind, rfl⟩)

/-- The reads agree with the listing exactly if the name is not the empty name of a table, is not
resolved to something with columns that is not listed under it, and no listed name is confused with
the prefix. -/
theorem agrees_iff (c : Catalog) (name p : List Char) :
    c.Agrees name p ↔
      (name = [] → ∀ e ∈ c.entries, e.kind = .table → e.name ≠ []) ∧
      (name ≠ [] → '\x00' ∉ name → ∀ e, c.resolve name = some e →
        (∃ row ∈ e.columns, row.hidden ≠ 1) →
          e ∈ c.entries ∧ (e.kind = .table ∧ ¬Reserved e.name) ∧ e.name = name) ∧
      ∀ n ∈ c.listTables, ¬Confusable p n := by
  have hinfo : name ≠ [] → '\x00' ∉ name → c.tableInfo name = .ok (c.tableXinfo name) :=
    fun hne hnul ↦ by rw [Catalog.tableInfo, buildTableInfo, validateCatalogName,
      if_neg (not_or.mpr ⟨hne, hnul⟩)]; rfl
  constructor
  · refine fun h ↦ ⟨fun hnil e he hkind hname ↦ ?_, fun hne hnul e he hvisible ↦ ?_,
      fun n hn hconf ↦ ?_⟩
    · have hlisted : name ∈ c.listTables := hnil ▸ nil_mem_listTables_iff.mpr ⟨e, he, hkind, hname⟩
      exact (tableExists_eq_one_iff.mp (h.tableExists.mpr hlisted)).1 hnil
    · have hrows : c.tableXinfo name ≠ [] := by
        obtain ⟨row, hrow, hhidden⟩ := hvisible
        rw [Catalog.tableXinfo, he]
        exact ne_nil_of_mem (mem_filter.mpr ⟨hrow, decide_eq_true hhidden⟩)
      obtain ⟨e', he', hlisted⟩ := resolve_of_mem (h.tableInfo _ (hinfo hne hnul) hrows)
      rw [he] at he'
      exact Option.some.inj he' ▸ hlisted
    · obtain ⟨hlike, hpre⟩ := (confusable_iff (nul_not_mem_of_mem_listTables hn)).mp hconf
      exact hpre ((h.listTablesLike n).mp (mem_listTablesLike.mpr ⟨hn, hlike⟩)).2
  · rintro ⟨hempty, hresolve, hconf⟩
    refine ⟨?_, fun rows hrows hne ↦ ?_, fun n ↦ ?_⟩
    · rw [tableExists_eq_one_iff]
      refine and_iff_right_of_imp fun hlisted hnil ↦ ?_
      obtain ⟨e, he, hkind, hname⟩ := nil_mem_listTables_iff.mp (hnil ▸ hlisted)
      exact hempty hnil e he hkind hname
    · have hvalid : name ≠ [] ∧ '\x00' ∉ name := by
        by_contra hinvalid
        rw [Catalog.tableInfo, buildTableInfo, validateCatalogName,
          if_pos (or_iff_not_and_not.mpr hinvalid)] at hrows
        cases hrows
      rw [hinfo hvalid.1 hvalid.2] at hrows
      rw [← Except.ok.inj hrows, Catalog.tableXinfo] at hne
      rcases he : c.resolve name with _ | e
      · rw [he] at hne
        exact absurd rfl hne
      · rw [he] at hne
        obtain ⟨row, hrow⟩ := exists_mem_of_ne_nil _ hne
        obtain ⟨hrow, hhidden⟩ := mem_filter.mp hrow
        have hlisted := hresolve hvalid.1 hvalid.2 e he ⟨row, hrow, of_decide_eq_true hhidden⟩
        exact mem_listTables.mpr ⟨e, hlisted⟩
    · rw [mem_listTablesLike]
      refine and_congr_right fun hn ↦ ⟨fun hlike ↦ ?_, fun hpre ↦ ?_⟩
      · by_contra hpre
        exact hconf n hn ((confusable_iff (nul_not_mem_of_mem_listTables hn)).mpr ⟨hlike, hpre⟩)
      · have hnul : '\x00' ∉ p := fun h ↦ nul_not_mem_of_mem_listTables hn (hpre.subset h)
        exact (sqlLike_sqlite hnul (nul_not_mem_of_mem_listTables hn)).mpr (hpre.map Char.toLower)

def users : CatalogEntry := ⟨.table, "users".toList, [⟨"id".toList, [], true, none, 1, 0⟩]⟩

theorem users_described_as_capitals :
    ¬∀ (c : Catalog) (name p : List Char), c.Agrees name p := by
  intro h
  let c : Catalog := ⟨[users], [], by decide, pairwise_singleton _ _⟩
  have hlisted : "USERS".toList ∈ c.listTables :=
    (h c "USERS".toList []).tableInfo users.columns rfl (cons_ne_nil _ _)
  obtain ⟨e, he, -, hname⟩ := mem_listTables.mp hlisted
  rw [mem_singleton.mp he] at hname
  exact absurd hname (by decide)

end WaferRun.Database
