import WaferRun.Database.Batches

/-!
# An update and what it answers

An update changes the rows of an id and then reads a row back by that id. What it answers is what
happened, unless what it writes is a new id: then the row has been changed, is not found by the id
it had, and the answer is that there is no such row. The batch, which has its rows from the
statement itself, answers with the row there.
-/

open List

namespace WaferRun.Database

namespace DbExec

variable {Row : Type}

/-- An update answers what happened. That nothing was found is answered only if no row had the id,
and then nothing is changed. A record that is answered is read from a row that had the id, as the
update has left it; a batch answers with such a row for the same write, and with the same one,
unless several have the id. -/
structure UpdateTruthful (E : DbExec Row) (m : Moment) (collection id : String) (data : RowData)
    (before : Tables Row) : Prop where
  notFound : ((E.update m collection id data).perform before).1 = .error .notFound →
    (∀ row ∈ before collection, E.hasId collection id row = false) ∧
      ((E.update m collection id data).perform before).2 = before
  stored : ∀ record, ((E.update m collection id data).perform before).1 = .ok record →
    ∃ json pairs f row, PlannedUpdate E m collection data json pairs ∧
      E.UpdatedById collection id pairs before
        ((E.update m collection id data).perform before).2 f ∧
      row ∈ before collection ∧ E.hasId collection id row = true ∧ record = E.readRow json (f row)
  batched : ∀ record, ((E.update m collection id data).perform before).1 = .ok record →
    ∃ other, (E.batch (fun _ ↦ m) [.update collection id data]).perform before =
        (.ok [.updated (some other)], ((E.update m collection id data).perform before).2) ∧
      Describes E m before (.update collection id data) (.updated (some other)) ∧
      ((before collection).countP (E.hasId collection id) ≤ 1 → other = record)

/-- An id that is written is still the id the update was given, if a row has that one and the
database refuses neither statement. -/
def KeyKept (E : DbExec Row) (m : Moment) (collection id : String) (data : RowData)
    (before : Tables Row) : Prop :=
  ∀ json pairs after rows v, PlannedUpdate E m collection data json pairs →
    E.exec (.updateById collection id pairs) before = .ok after →
      E.selectById collection id after = .ok rows → data.lookup "id" = some v →
        (∃ row ∈ before collection, E.hasId collection id row = true) →
          E.isId collection id
            (E.stored collection "id" (written E.toSqlEngine json "id" v)) = true

variable {E : DbExec Row} {m : Moment} {collection id : String} {data : RowData}
variable {before after : Tables Row} {json : List String} {pairs : List (String × Json)}

/-! ## What is written -/

theorem lookup_id_stampTimestamps_update (data : RowData) (now : String) :
    (stampTimestamps now false data).lookup "id" = data.lookup "id" := by
  rw [stampTimestamps, if_neg (by decide), lookup_fillColumn_of_ne (by decide)]

theorem PlannedUpdate.mem_id (h : PlannedUpdate E m collection data json pairs) {x : Json} :
    ("id", x) ∈ pairs ↔
      ∃ v, data.lookup "id" = some v ∧ x = written E.toSqlEngine json "id" v := by
  rw [(perm_of_sortedPairs h.sorted).mem_iff, mem_map,
    ← lookup_id_stampTimestamps_update data m.now]
  constructor
  · rintro ⟨⟨key, v⟩, he, heq⟩
    obtain ⟨rfl, rfl⟩ := Prod.mk.inj heq
    exact ⟨v, AList.mem_lookup_iff.mpr he, rfl⟩
  · rintro ⟨v, hv, rfl⟩
    exact ⟨⟨"id", v⟩, AList.mem_lookup_iff.mp hv, rfl⟩

theorem PlannedUpdate.nodup (h : PlannedUpdate E m collection data json pairs) :
    (pairs.map Prod.fst).Nodup := by
  rw [((perm_of_sortedPairs h.sorted).map Prod.fst).nodup_iff, map_map]
  exact (stampTimestamps m.now false data).nodupKeys

theorem sqlName_ne_notFound {name : String} : sqlName E.toEngine name ≠ .error .notFound := by
  rw [sqlName, ofBuild]
  rcases validateIdent name with e | v <;> exact nofun

theorem sortedPairs_ne_notFound {row : RowData} :
    sortedPairs E.toSqlEngine json row ≠ .error .notFound := by
  intro h
  rcases Fallible.bind_eq_error.mp h with hmap | ⟨_, -, h⟩
  · obtain ⟨entry, -, hentry⟩ := Fallible.exists_of_mapM_eq_error hmap
    rcases Fallible.bind_eq_error.mp hentry with hname | ⟨_, -, h⟩
    · exact sqlName_ne_notFound hname
    · exact absurd h nofun
  · exact absurd h nofun

theorem update_refused_or_ran (hE : E.Lawful)
    (hread : ∀ table, m.jsonColumns table ≠ .error .notFound) :
    (∃ e, e ≠ .notFound ∧ (E.update m collection id data).perform before = (.error e, before)) ∨
      ∃ json pairs after, PlannedUpdate E m collection data json pairs ∧
        E.exec (.updateById collection id pairs) before = .ok after := by
  rcases htable : sqlName E.toEngine collection with e | table
  · refine .inl ⟨e, fun he ↦ sqlName_ne_notFound (he ▸ htable), ?_⟩
    rw [update, Db.perform_ofExcept_bind_error htable]
  rw [sqlName_eq_ok htable] at htable
  rcases hjson : m.jsonColumns collection with e | json
  · refine .inl ⟨e, fun he ↦ hread collection (he ▸ hjson), ?_⟩
    rw [update, Db.perform_ofExcept_bind_ok htable]
    exact Db.perform_ofExcept_bind_error hjson _ _
  rcases hpairs : sortedPairs E.toSqlEngine json (stampTimestamps m.now false data) with e | pairs
  · refine .inl ⟨e, fun he ↦ sortedPairs_ne_notFound (he ▸ hpairs), ?_⟩
    rw [update, Db.perform_ofExcept_bind_ok htable]
    dsimp only
    rw [Db.perform_ofExcept_bind_ok hjson]
    exact Db.perform_ofExcept_bind_error hpairs _ _
  rcases hexec : E.exec (.updateById collection id pairs) before with e | after
  · refine .inl ⟨e, fun he ↦ hE.exec_ne _ _ (he ▸ hexec), ?_⟩
    rw [update, Db.perform_ofExcept_bind_ok htable]
    dsimp only
    rw [Db.perform_ofExcept_bind_ok hjson, Db.perform_ofExcept_bind_ok hpairs, Db.perform_bind,
      runBatch, Db.perform_bind, perform_runExecute_error hexec]
  · exact .inr ⟨json, pairs, after, ⟨htable, hjson, hpairs⟩, hexec⟩

/-! ## What is read back -/

theorem hasId_of_hasId_updated {f : Row → Row}
    (hupdated : E.UpdatedById collection id pairs before after f) {row : Row}
    (hrow : row ∈ before collection) (h : E.hasId collection id (f row) = true) :
    E.hasId collection id row = true := by
  by_contra hid
  have hid := Bool.eq_false_iff.mpr hid
  rw [hasId, hupdated.kept row hrow (.inl hid)] at h
  rw [hasId, h] at hid
  exact absurd hid nofun

theorem exists_of_mem_select (hE : E.Lawful) {rows : List Row} {f : Row → Row}
    (hupdated : E.UpdatedById collection id pairs before after f)
    (hrows : E.selectById collection id after = .ok rows) {stored : Row} (hstored : stored ∈ rows) :
    ∃ row ∈ before collection, E.hasId collection id row = true ∧ stored = f row ∧
      E.hasId collection id (f row) = true := by
  obtain ⟨hafter, hid⟩ := mem_filter.mp ((hE.select _ _ _ _ hrows).subset hstored)
  obtain ⟨row, hrow, rfl⟩ := mem_map.mp (hupdated.rows.subset hafter)
  exact ⟨row, hrow, hasId_of_hasId_updated hupdated hrow hid, rfl, hid⟩

theorem hasId_updated {f : Row → Row} (hplanned : PlannedUpdate E m collection data json pairs)
    (hupdated : E.UpdatedById collection id pairs before after f) {row : Row}
    (hrow : row ∈ before collection) (hid : E.hasId collection id row = true)
    (hkept : ∀ v, data.lookup "id" = some v → E.isId collection id
      (E.stored collection "id" (written E.toSqlEngine json "id" v)) = true) :
    E.hasId collection id (f row) = true := by
  rcases hdata : data.lookup "id" with - | v
  · -- no id is written, so the row has the one it had
    have hunnamed : ∀ p ∈ pairs, p.1 ≠ "id" := by
      rintro ⟨key, x⟩ hp rfl
      obtain ⟨v, hv, -⟩ := hplanned.mem_id.mp hp
      cases hdata.symm.trans hv
    rw [hasId, hupdated.kept row hrow (.inr hunnamed)]
    exact hid
  · rw [hasId, hupdated.renamed hplanned.nodup row hrow hid _ (hplanned.mem_id.mpr ⟨v, hdata, rfl⟩)]
    exact hkept v hdata

theorem select_eq_nil (hE : E.Lawful) {rows : List Row} {f : Row → Row}
    (hplanned : PlannedUpdate E m collection data json pairs)
    (hupdated : E.UpdatedById collection id pairs before after f)
    (hrows : E.selectById collection id after = .ok rows) {v : Json}
    (hdata : data.lookup "id" = some v)
    (hlost : E.isId collection id
      (E.stored collection "id" (written E.toSqlEngine json "id" v)) = false) : rows = [] := by
  refine eq_nil_iff_forall_not_mem.mpr fun stored hstored ↦ ?_
  obtain ⟨row, hrow, hid, rfl, hfound⟩ := exists_of_mem_select hE hupdated hrows hstored
  rw [hasId, hupdated.renamed hplanned.nodup row hrow hid _ (hplanned.mem_id.mpr ⟨v, hdata, rfl⟩),
    hlost] at hfound
  exact absurd hfound nofun

theorem affected_ne_zero {f : Row → Row}
    (hupdated : E.UpdatedById collection id pairs before after f)
    (h : ∃ row ∈ before collection, E.hasId collection id row = true) :
    E.affected (.updateById collection id pairs) before ≠ 0 := by
  obtain ⟨row, hrow, hid⟩ := h
  rw [hupdated.affected]
  have hpos := countP_pos_iff.mpr ⟨row, hrow, hid⟩
  omega

theorem perform_batch_update (hplanned : PlannedUpdate E m collection data json pairs)
    (hexec : E.exec (.updateById collection id pairs) before = .ok after) :
    (E.batch (fun _ ↦ m) [.update collection id data]).perform before =
      (.ok [.updated ((E.returned (.updateById collection id pairs) before).head?.map
        (E.readRow json))], after) := by
  have hplan : E.planOp m (.update collection id data) =
      .ok (.updated json, .updateById collection id pairs) :=
    Fallible.bind_eq_ok.mpr ⟨_, hplanned.named, Fallible.bind_eq_ok.mpr ⟨_, hplanned.read,
      Fallible.bind_eq_ok.mpr ⟨_, hplanned.sorted, rfl⟩⟩⟩
  have hplans : ([WriteOp.update collection id data].zipIdx.mapM
      fun p ↦ E.planOp m p.1) = .ok [(.updated json, .updateById collection id pairs)] := by
    rw [zipIdx_singleton, mapM_cons]
    exact Fallible.bind_eq_ok.mpr ⟨_, hplan, rfl⟩
  have hstep : E.stepTx (.returning (.updateById collection id pairs) json) before =
      .ok (.returning ((E.returned (.updateById collection id pairs) before).map (E.readRow json)),
        after) := Fallible.map_eq_ok.mpr ⟨after, hexec, rfl⟩
  have hrun : Statements.runInOrder (fun p : Planned × SqlStatement ↦ E.stepTx (txOp p.2 p.1))
      [(.updated json, .updateById collection id pairs)] before =
        .ok ([.returning ((E.returned (.updateById collection id pairs) before).map
          (E.readRow json))], after) :=
    Statements.runInOrder_cons_eq_ok_iff.mpr ⟨_, _, _, _, hstep, rfl, rfl⟩
  rw [perform_batch hplans, hrun]
  simp only [map_cons, map_nil, decodeAll, decode, List.head?_map]
  rfl

/-! ## When the answer is what happened -/

theorem keyKept_of_truthful (hE : E.Lawful)
    (h : UpdateTruthful E m collection id data before) :
    KeyKept E m collection id data before := by
  intro json pairs after rows v hplanned hexec hrows hdata hfound
  by_contra hlost
  obtain ⟨f, hupdated⟩ := hE.update _ _ _ _ _ hexec
  have hnil := select_eq_nil hE hplanned hupdated hrows hdata (Bool.eq_false_iff.mpr hlost)
  have hanswer : ((E.update m collection id data).perform before).1 = .error .notFound := by
    rw [perform_update_of_exec hplanned hexec, hrows, hnil]
    simp only [if_neg (affected_ne_zero hupdated hfound), List.head?_nil, Option.map_none,
      Option.elim_none]
  obtain ⟨row, hrow, hid⟩ := hfound
  rw [(h.notFound hanswer).1 row hrow] at hid
  exact absurd hid nofun

/-- The answer of an update whose statement has run, as long as rows are found by the id they
had. -/
theorem perform_update_cases (hE : E.Lawful) (hkept : KeyKept E m collection id data before)
    (hplanned : PlannedUpdate E m collection data json pairs)
    (hexec : E.exec (.updateById collection id pairs) before = .ok after) {f : Row → Row}
    (hupdated : E.UpdatedById collection id pairs before after f) :
    (E.update m collection id data).perform before = (.error .notFound, before) ∧
        (∀ row ∈ before collection, E.hasId collection id row = false) ∨
      (∃ e, e ≠ .notFound ∧ (E.update m collection id data).perform before = (.error e, after)) ∨
      ∃ row ∈ before collection, E.hasId collection id row = true ∧
        (E.update m collection id data).perform before = (.ok (E.readRow json (f row)), after) := by
  rw [perform_update_of_exec hplanned hexec]
  rcases hrows : E.selectById collection id after with e | rows
  · exact .inr (.inl ⟨e, fun he ↦ hE.select_ne _ _ _ (he ▸ hrows), rfl⟩)
  · dsimp only
    by_cases hfound : ∃ row ∈ before collection, E.hasId collection id row = true
    · rw [if_neg (affected_ne_zero hupdated hfound)]
      obtain ⟨row, hrow, hid⟩ := hfound
      -- the row is read back, since it is still found by the id
      have hfound := hasId_updated hplanned hupdated hrow hid fun v hv ↦
        hkept _ _ _ _ _ hplanned hexec hrows hv ⟨row, hrow, hid⟩
      have hmem : f row ∈ rows := (hE.select _ _ _ _ hrows).symm.subset
        (mem_filter.mpr ⟨hupdated.rows.symm.subset (mem_map_of_mem hrow), hfound⟩)
      obtain ⟨stored, hhead⟩ := Option.isSome_iff_exists.mp
        (List.isSome_head?.mpr (ne_nil_of_mem hmem))
      obtain ⟨row', hrow', hid', rfl, -⟩ :=
        exists_of_mem_select hE hupdated hrows (List.mem_of_head? hhead)
      exact .inr (.inr ⟨row', hrow', hid', by rw [hhead]; rfl⟩)
    · have hnone : ∀ row ∈ before collection, E.hasId collection id row = false :=
        fun row hrow ↦ Bool.eq_false_iff.mpr fun hid ↦ hfound ⟨row, hrow, hid⟩
      have haffected : E.affected (.updateById collection id pairs) before = 0 := by
        rw [hupdated.affected,
          countP_eq_zero.mpr fun row hrow ↦ Bool.eq_false_iff.mp (hnone row hrow)]
        rfl
      rw [if_pos haffected, hupdated.unmatched hnone]
      exact .inl ⟨rfl, hnone⟩

/-- What a batch answers to an update of which a row had the id: the same row, if only one had
it. -/
theorem exists_batched (hplanned : PlannedUpdate E m collection data json pairs)
    (hexec : E.exec (.updateById collection id pairs) before = .ok after) {f : Row → Row}
    (hupdated : E.UpdatedById collection id pairs before after f) {row : Row}
    (hrow : row ∈ before collection) (hid : E.hasId collection id row = true) :
    ∃ other, (E.batch (fun _ ↦ m) [.update collection id data]).perform before =
        (.ok [.updated (some (E.readRow json (f other)))], after) ∧
      other ∈ before collection ∧ E.hasId collection id other = true ∧
      ((before collection).countP (E.hasId collection id) ≤ 1 → other = row) := by
  have hfilter : row ∈ (before collection).filter (E.hasId collection id) :=
    mem_filter.mpr ⟨hrow, hid⟩
  have hmem := hupdated.returned.symm.subset (mem_map_of_mem hfilter)
  obtain ⟨stored, hhead⟩ := Option.isSome_iff_exists.mp
    (List.isSome_head?.mpr (ne_nil_of_mem hmem))
  obtain ⟨other, hother, rfl⟩ :=
    mem_map.mp (hupdated.returned.subset (List.mem_of_head? hhead))
  refine ⟨other, ?_, (mem_filter.mp hother).1, (mem_filter.mp hother).2, fun hone ↦ ?_⟩
  · rw [perform_batch_update hplanned hexec, hhead]
    rfl
  · rw [countP_eq_length_filter] at hone
    obtain ⟨only, honly⟩ := length_eq_one_iff.mp
      (le_antisymm hone (length_pos_of_mem hfilter))
    rw [honly] at hother hfilter
    rw [mem_singleton.mp hother, mem_singleton.mp hfilter]

theorem truthful_of_error {e : DatabaseError} (hne : e ≠ .notFound)
    (hperform : (E.update m collection id data).perform before = (.error e, after)) :
    UpdateTruthful E m collection id data before := by
  have hanswer := congrArg Prod.fst hperform
  refine ⟨fun h ↦ ?_, fun record h ↦ ?_, fun record h ↦ ?_⟩
  · exact absurd (Except.error.inj (hanswer.symm.trans h)) hne
  · exact absurd (hanswer.symm.trans h) nofun
  · exact absurd (hanswer.symm.trans h) nofun

theorem truthful_of_notFound
    (hperform : (E.update m collection id data).perform before = (.error .notFound, before))
    (hnone : ∀ row ∈ before collection, E.hasId collection id row = false) :
    UpdateTruthful E m collection id data before := by
  have hanswer := congrArg Prod.fst hperform
  refine ⟨fun _ ↦ ⟨hnone, congrArg Prod.snd hperform⟩, fun record h ↦ ?_, fun record h ↦ ?_⟩
  · exact absurd (hanswer.symm.trans h) nofun
  · exact absurd (hanswer.symm.trans h) nofun

theorem truthful_of_row (hplanned : PlannedUpdate E m collection data json pairs)
    (hexec : E.exec (.updateById collection id pairs) before = .ok after) {f : Row → Row}
    (hupdated : E.UpdatedById collection id pairs before after f) {row : Row}
    (hrow : row ∈ before collection) (hid : E.hasId collection id row = true)
    (hperform : (E.update m collection id data).perform before =
      (.ok (E.readRow json (f row)), after)) :
    UpdateTruthful E m collection id data before := by
  refine ⟨fun h ↦ ?_, fun record h ↦ ?_, fun record h ↦ ?_⟩
  · rw [hperform] at h
    exact absurd h nofun
  · rw [hperform] at h ⊢
    exact ⟨json, pairs, f, row, hplanned, hupdated, hrow, hid, (Except.ok.inj h).symm⟩
  · obtain ⟨other, hbatch, hother, hotherId, hone⟩ :=
      exists_batched hplanned hexec hupdated hrow hid
    have hop : E.performOp m (.update collection id data) before = after :=
      congrArg Prod.snd hperform
    rw [hperform] at h ⊢
    refine ⟨_, hbatch, ⟨json, pairs, f, other, hplanned, hop ▸ hupdated, hother, hotherId, rfl⟩,
      fun h1 ↦ ?_⟩
    rw [hone h1, ← Except.ok.inj h]

/-- **An update answers what happened, exactly when rows are still found by the id they had.** -/
theorem update_truthful_iff (E : DbExec Row) (hE : E.Lawful) (m : Moment)
    (hread : ∀ table, m.jsonColumns table ≠ .error .notFound) (collection id : String)
    (data : RowData) (before : Tables Row) :
    UpdateTruthful E m collection id data before ↔ KeyKept E m collection id data before := by
  refine ⟨keyKept_of_truthful hE, fun hkept ↦ ?_⟩
  rcases update_refused_or_ran hE hread with ⟨e, hne, hperform⟩ | ⟨json, pairs, after, hplanned, hexec⟩
  · exact truthful_of_error hne hperform
  · obtain ⟨f, hupdated⟩ := hE.update _ _ _ _ _ hexec
    rcases perform_update_cases hE hkept hplanned hexec hupdated with
      ⟨hperform, hnone⟩ | ⟨e, hne, hperform⟩ | ⟨row, hrow, hid, hperform⟩
    · exact truthful_of_notFound hperform hnone
    · exact truthful_of_error hne hperform
    · exact truthful_of_row hplanned hexec hupdated hrow hid hperform

end DbExec

/-! ## An id that is written -/

namespace Shelf

def oneBook : Tables (String → Json) := fun table ↦
  if table = "books" then [newRow [("id", .string "book-0"), ("title", .string "Emma")]] else []

end Shelf

/-- The title of a book is changed, and its id is left alone. -/
theorem DbExec.update_truthful_iff_title :
    DbExec.UpdateTruthful Shelf.books (Shelf.moment 0) "books" "book-0"
      (AList.insert "title" (.string "Persuasion") ∅) Shelf.oneBook :=
  (DbExec.update_truthful_iff Shelf.books Shelf.books_lawful (Shelf.moment 0) nofun "books" "book-0"
    (AList.insert "title" (.string "Persuasion") ∅) Shelf.oneBook).mpr
    fun _ _ _ _ _ _ _ _ hdata _ ↦
      have hnone : AList.lookup "id" (AList.insert "title" (Json.string "Persuasion") ∅ : RowData) =
        none := rfl
      (by cases hnone.symm.trans hdata)

/-- A book that is given a new id is changed, and the answer is that there is no such book. -/
theorem DbExec.update_renames_and_answers_notFound :
    ¬∀ (collection id : String) (data : RowData),
      DbExec.UpdateTruthful Shelf.books (Shelf.moment 0) collection id data Shelf.oneBook := by
  intro h
  have htruthful := h "books" "book-0" (AList.insert "id" (.string "book-1") ∅)
  have hnone := (htruthful.notFound rfl).1 _ mem_cons_self
  exact absurd hnone (by decide)

end WaferRun.Database
