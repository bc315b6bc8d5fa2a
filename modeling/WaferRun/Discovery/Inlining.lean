import WaferRun.Discovery.InlineClosure

/-!
# Documents with inlined references

Inlining a document returns, and what it returns without a report stands alone
(`inlineRefs_closed`). The two provisos are shown by documents that violate them: a `$ref` that is
no string passes unreported, and a keyword beside a reference can leave a kept definition without a
name. A third document shows that an output that outgrew the budget is not bounded by it.

The definitions that are kept are those on a cycle of references (`mem_definitionsOnACycle`), and
the name that the root is given is not in the table (`get_rootDefinitionName`).
-/

open List

namespace WaferRun.Discovery

open Relation

theorem mem_edges {table : List (String × Json)} {name target : String}
    (h : target ∈ edges table name) :
    name ∈ table.map Prod.fst ∧ target ∈ table.map Prod.fst := by
  have hkey : ∀ key, (table.lookup key).isSome = true → key ∈ table.map Prod.fst := by
    intro key hkey
    obtain ⟨f, hf, heq⟩ := lookup_isSome_iff.mp hkey
    exact mem_map.mpr ⟨f, hf, (beq_iff_eq.mp heq).symm⟩
  rw [edges] at h
  rcases hbody : table.lookup name with - | body
  · rw [hbody] at h
    exact absurd h not_mem_nil
  rw [hbody] at h
  obtain ⟨ref, -, href⟩ := mem_filterMap.mp h
  rcases ref with - | target'
  · cases href
  refine ⟨hkey name (by rw [hbody]; rfl), ?_⟩
  simp only at href
  split_ifs at href with hsome
  exact Option.some.inj href ▸ hkey target' hsome

/-- **A definition is kept as a reference exactly if it can reach itself.** -/
theorem mem_definitionsOnACycle {table : List (String × Json)} {name : String} :
    name ∈ definitionsOnACycle (.object table) ↔
      TransGen (fun a b ↦ b ∈ edges table a) name name := by
  have hexact := @Worklist.worklist_exact _ (edges table) name (searchTurns table name)
    (edges table name).reverse _ (table.map Prod.fst).toFinset
    (fun k _ k' hk' ↦ mem_toFinset.mpr (mem_edges hk').2)
    (fun k hk ↦ mem_toFinset.mpr (mem_edges (mem_reverse.mp hk)).2)
    (by rw [searchTurns, length_reverse]; exact Nat.lt_succ_self _)
  rw [definitionsOnACycle, mem_filter, decide_eq_true_eq, hexact]
  constructor
  · rintro ⟨-, k, hk, hreach⟩
    exact .head' (mem_reverse.mp hk) hreach
  · intro h
    obtain ⟨k, hstep, hreach⟩ := TransGen.head'_iff.mp h
    exact ⟨(mem_edges hstep).1, k, mem_reverse.mpr hstep, hreach⟩

/-! ## The name of the root -/

def underscored (name : String) (i : ℕ) : String :=
  String.ofList (name.toList ++ List.replicate i '_')

theorem underscored_push (name : String) (i : ℕ) :
    underscored (name.push '_') i = underscored name (i + 1) := by
  rw [underscored, underscored, String.toList_push, append_assoc, singleton_append,
    replicate_succ]

theorem underscored_inj {name : String} {i j : ℕ} (h : underscored name i = underscored name j) :
    i = j := by
  have hlen := congrArg (fun s : String ↦ s.toList.length) h
  simp only [underscored, String.toList_ofList, length_append, length_replicate] at hlen
  omega

theorem get_underscored_of_freeName {defs : Json} {n : ℕ} {name : String}
    (h : (defs.get (freeName defs n name)).isSome = true) :
    ∀ i ≤ n, (defs.get (underscored name i)).isSome = true := by
  have hzero : ∀ name, underscored name 0 = name := fun name ↦ by
    rw [underscored, replicate_zero, append_nil, String.ofList_toList]
  induction n generalizing name with
  | zero =>
    intro i hi
    obtain rfl := Nat.le_zero.mp hi
    rwa [hzero]
  | succ n ih =>
    rw [freeName] at h
    split_ifs at h with htaken
    · intro i hi
      rcases i with - | i
      · rwa [hzero]
      · rw [← underscored_push]
        exact ih h i (Nat.le_of_succ_le_succ hi)
    · exact absurd h htaken

/-- **The name of the root is not in the table.** -/
theorem get_rootDefinitionName (schema defs : Json) :
    defs.get (rootDefinitionName schema defs) = none := by
  rw [← Option.not_isSome_iff_eq_none]
  intro htaken
  have hall := get_underscored_of_freeName htaken
  rcases defs with - | b | n | s | items | table
  case object =>
    -- more different names than the table has entries
    have hsub : (List.range (table.length + 2)).map (underscored (rootTitle schema)) ⊆
        table.map Prod.fst := by
      intro name hname
      obtain ⟨i, hi, rfl⟩ := mem_map.mp hname
      obtain ⟨f, hf, heq⟩ := lookup_isSome_iff.mp
        (hall i (Nat.le_of_lt_succ (List.mem_range.mp hi)))
      exact mem_map.mpr ⟨f, hf, (beq_iff_eq.mp heq).symm⟩
    have hnodup : ((List.range (table.length + 2)).map (underscored (rootTitle schema))).Nodup :=
      nodup_range.map fun _ _ ↦ underscored_inj
    have hlen := (subperm_of_subset hnodup hsub).length_le
    rw [length_map, length_map, length_range] at hlen
    omega
  all_goals exact absurd (hall 0 (Nat.zero_le _)) Bool.false_ne_true

/-! ## The values that the walk reads -/

mutual

def KeysDistinct : Json → Prop
  | .object fields => (fields.map Prod.fst).Nodup ∧ FieldsDistinct fields
  | .array items => ItemsDistinct items
  | _ => True

def FieldsDistinct : List (String × Json) → Prop
  | [] => True
  | (_, value) :: fields => KeysDistinct value ∧ FieldsDistinct fields

def ItemsDistinct : List Json → Prop
  | [] => True
  | item :: items => KeysDistinct item ∧ ItemsDistinct items

end

theorem FieldsDistinct.of_mem {fields : List (String × Json)} (h : FieldsDistinct fields)
    {f : String × Json} (hf : f ∈ fields) : KeysDistinct f.2 := by
  induction fields with
  | nil => exact absurd hf not_mem_nil
  | cons g fields ih =>
    rw [FieldsDistinct] at h
    rcases mem_cons.mp hf with rfl | hf
    · exact h.1
    · exact ih h.2 hf

theorem ItemsDistinct.of_mem {items : List Json} (h : ItemsDistinct items) {v : Json}
    (hv : v ∈ items) : KeysDistinct v := by
  induction items with
  | nil => exact absurd hv not_mem_nil
  | cons w items ih =>
    rw [ItemsDistinct] at h
    rcases mem_cons.mp hv with rfl | hv
    · exact h.1
    · exact ih h.2 hv

theorem KeysDistinct.get {v w : Json} {key : String} (h : KeysDistinct v)
    (hget : v.get key = some w) : KeysDistinct w := by
  rcases v with - | b | n | s | items | fields
  case object =>
    rw [KeysDistinct] at h
    obtain ⟨l, r, hsplit, -⟩ := lookup_eq_some_iff.mp hget
    exact h.2.of_mem (f := (key, w)) (hsplit ▸ mem_append_right _ mem_cons_self)
  all_goals cases hget

inductive Visited (T : RefTable) (document : Json) : Reading → Json → Prop
  | document : Visited T document .schema document
  | item {r : Reading} {items : List Json} {v : Json} (h : Visited T document r (.array items))
    (hv : v ∈ items) : Visited T document .schema v
  | member {fields : List (String × Json)} {key : String} {value : Json} {r : Reading}
    (h : Visited T document .schema (.object fields)) (hmem : (key, value) ∈ fields)
    (href : key ≠ "$ref") (hdefs : key ≠ "$defs") (hr : keywordReading key = some r) :
    Visited T document r value
  | named {fields : List (String × Json)} {key : String} {value : Json}
    (h : Visited T document .names (.object fields)) (hmem : (key, value) ∈ fields) :
    Visited T document .schema value
  | target {fields : List (String × Json)} {name : String} {body : Json}
    (h : Visited T document .schema (.object fields)) (hbody : InlinedTo T fields name body) :
    Visited T document .schema body
  | schema {v : Json} (h : Visited T document .names v) (hobject : isObject v = false) :
    Visited T document .schema v

/-- Where a schema that the walk reads has a `$ref`, it is a string. -/
def StringRefs (schema : Json) : Prop :=
  ∀ fields, Visited (refTable schema) schema .schema (.object fields) →
    stringRef fields = none → "$ref" ∉ fields.map Prod.fst

/-- No keyword beside a reference replaces one under which the target leaves a reference. -/
def ReferencesApart (schema : Json) : Prop :=
  (∀ fields, Visited (refTable schema) schema .schema (.object fields) →
    SiblingsApart (refTable schema) false fields) ∧
  ∀ fields, schema = .object fields → SiblingsApart (refTable schema) true fields

theorem Visited.keysDistinct {schema : Json} (hkeys : KeysDistinct schema) {r : Reading} {v : Json}
    (h : Visited (refTable schema) schema r v) : KeysDistinct v := by
  induction h with
  | document => exact hkeys
  | item _ hv ih =>
    rw [KeysDistinct] at ih
    exact ih.of_mem hv
  | member _ hmem _ _ _ ih =>
    rw [KeysDistinct] at ih
    exact ih.2.of_mem hmem
  | named _ hmem ih =>
    rw [KeysDistinct] at ih
    exact ih.2.of_mem hmem
  | target _ hbody _ =>
    have hdefs : KeysDistinct (definitions schema) := by
      rw [definitions]
      rcases hget : schema.get "$defs" with - | defs
      · exact trivial
      · exact hkeys.get hget
    exact hdefs.get hbody.body
  | schema _ _ ih => exact ih

theorem survey_visited {schema : Json} (hkeys : KeysDistinct schema)
    (hstrings : StringRefs schema) : Survey (refTable schema) (Visited (refTable schema) schema) where
  item := .item
  member := .member
  named := .named
  target := .target
  schema := .schema
  distinct h := by
    have hdistinct := h.keysDistinct hkeys
    rw [KeysDistinct] at hdistinct
    exact hdistinct.1
  strings h := hstrings _ h

/-! ## Documents -/

def definedNames (document : Json) : List String :=
  match document.get "$defs" with
  | some (.object table) => table.map Prod.fst
  | _ => []

theorem issues_of_attachDefinitions {resolved out : Json} {kept : List (String × Json)}
    {issues : RefIssues} (h : attachDefinitions resolved kept issues = (out, {})) :
    issues = {} ∧ (kept = [] ∧ out = resolved ∨ kept ≠ [] ∧ ∃ fields, resolved = .object fields ∧
      out = .object (insertField "$defs" (.object kept) fields)) := by
  rw [attachDefinitions.eq_def] at h
  split_ifs at h with hkept
  · obtain ⟨rfl, rfl⟩ := Prod.mk.inj h
    exact ⟨rfl, .inl ⟨List.isEmpty_iff.mp hkept, rfl⟩⟩
  have hne : kept ≠ [] := fun heq ↦ hkept (List.isEmpty_iff.mpr heq)
  rcases resolved with - | b | n | s | items | fields
  case object =>
    obtain ⟨rfl, rfl⟩ := Prod.mk.inj h
    exact ⟨rfl, .inr ⟨hne, fields, rfl, rfl⟩⟩
  all_goals
    have hunresolved : true = false := congrArg RefIssues.unresolved (Prod.mk.inj h).2
    cases hunresolved

theorem lookup_of_not_mem_keys {fields : List (String × Json)} {key : String}
    (h : key ∉ fields.map Prod.fst) : fields.lookup key = none := by
  refine lookup_eq_none_iff.mpr fun f hf ↦ ?_
  exact bne_iff_ne.mpr fun heq ↦ h (mem_map.mpr ⟨f, hf, heq.symm⟩)

theorem definedNames_eq_nil {document : Json}
    (h : ∀ fields, document = .object fields → "$defs" ∉ fields.map Prod.fst) :
    definedNames document = [] := by
  rcases document with - | b | n | s | items | fields
  case object =>
    rw [definedNames, Json.get, lookup_of_not_mem_keys (h fields rfl)]
  all_goals rfl

theorem definedNames_insertField {fields kept : List (String × Json)}
    (h : "$defs" ∉ fields.map Prod.fst) :
    definedNames (.object (insertField "$defs" (.object kept) fields)) = kept.map Prod.fst := by
  rw [definedNames, Json.get, insertField_of_not_mem h, lookup_append,
    lookup_of_not_mem_keys h]
  rfl

theorem filter_not_defs {fields : List (String × Json)} (h : "$defs" ∉ fields.map Prod.fst) :
    (fields.filter fun field ↦ field.1 ≠ "$defs") = fields := by
  refine filter_eq_self.mpr fun f hf ↦ ?_
  rw [decide_eq_true_eq]
  exact fun heq ↦ h (heq ▸ mem_map_of_mem hf)

theorem keptDefinitions_eq_nil {T : RefTable} {resolved : Json} {walk : RefWalk}
    (h : keptDefinitions T resolved walk = []) : walk.rootRecursive = false ∧ walk.kept = [] := by
  rw [keptDefinitions] at h
  split_ifs at h with hroot
  · have hmem : T.rootName ∈
        (insertField T.rootName (resolved.remove "$defs") walk.kept).map Prod.fst :=
      mem_keys_insertField.mpr (.inl rfl)
    rw [h] at hmem
    exact absurd hmem not_mem_nil
  · exact ⟨Bool.eq_false_iff.mpr hroot, h⟩

theorem mem_keptDefinitions {T : RefTable} {V : Reading → Json → Prop} {top : Bool}
    {schema : Json} {fields : List (String × Json)} {walk : RefWalk} {A : Prop}
    (hfree : T.defs.get T.rootName = none)
    (h : Outcome T V A top .schema schema (.object fields) {} walk) (f : String × Json) :
    f ∈ keptDefinitions T (.object fields) walk ↔
      f ∈ walk.kept ∨ walk.rootRecursive = true ∧ f = (T.rootName, .object fields) := by
  have hnot : T.rootName ∉ walk.kept.map Prod.fst := by
    intro hmem
    obtain ⟨g, hg, hkey⟩ := mem_map.mp hmem
    rcases h.moves.fresh g hg with hold | ⟨-, hkept⟩
    · exact absurd hold not_mem_nil
    · obtain ⟨-, body, hbody, -⟩ := hkept _ fun _ ↦ id
      rw [hkey, hfree] at hbody
      cases hbody
  have hdefs := (h.rewrites _ fun _ ↦ id).not_mem_defs rfl rfl
  rw [keptDefinitions, Json.remove, filter_not_defs hdefs]
  split_ifs with hroot
  · rw [insertField_of_not_mem hnot, mem_append, mem_singleton, hroot,
      eq_self_iff_true, true_and]
  · rw [Bool.not_eq_true] at hroot
    rw [hroot, or_iff_left (fun h ↦ Bool.false_ne_true h.1)]

theorem mem_refsIn_insert_defs {fields kept : List (String × Json)}
    (hdefs : "$defs" ∉ fields.map Prod.fst) (x : Json) :
    x ∈ refsIn .schema (.object (insertField "$defs" (.object kept) fields)) ↔
      x ∈ refsIn .schema (.object fields) ∨ ∃ f ∈ kept, x ∈ refsIn .schema f.2 := by
  rw [insertField_of_not_mem hdefs, refsIn, mem_memberRefsIn, refsIn, mem_memberRefsIn,
    ← mem_namedRefsIn, ← memberRefs_defs]
  simp only [mem_append, mem_singleton, or_and_right, exists_or, exists_eq_left]

/-- **Inlining returns a bounded document that stands alone.** For every schema the walk returns,
and unless it reports that the schema is too large the document has at most twice the nodes of the
budget. If it reports nothing, and every `$ref` it reads is a string, every `$ref` of the document
is a pointer to a definition that the document has; and if no keyword beside a reference replaces
another reference, every definition of the document is named by one. -/
theorem inlineRefs_closed (schema : Json) (hkeys : KeysDistinct schema) :
    ∃ out issues, (∀ n > maxInlinedNodes, inlineRefs n schema = some (out, issues)) ∧
      (issues.oversized = false → walkNodes .schema out ≤ 2 * maxInlinedNodes) ∧
      (issues = {} → StringRefs schema →
        (∀ x ∈ refsIn .schema out, ∃ name ∈ definedNames out, x = pointerTo name) ∧
        (ReferencesApart schema →
          ∀ name ∈ definedNames out, pointerTo name ∈ refsIn .schema out)) := by
  obtain ⟨resolved, walk, hrun⟩ := exists_resolveDocument schema
  rcases hattach : attachDefinitions resolved
    (keptDefinitions (refTable schema) resolved walk) walk.issues with ⟨out, issues⟩
  have hinline : ∀ n > maxInlinedNodes, inlineRefs n schema = some (out, issues) := by
    intro n hn
    rw [inlineRefs_eq (hrun n hn), hattach]
  refine ⟨out, issues, hinline, fun hsize ↦ ?_, fun hissues hstrings ↦ ?_⟩
  · exact walkNodes_inlineRefs_le (hinline _ (Nat.lt_succ_self _)) hsize
  subst hissues
  have hsurvey := survey_visited hkeys hstrings
  obtain ⟨hclean, hout⟩ := issues_of_attachDefinitions hattach
  obtain ⟨top, h⟩ := outcome_resolveDocument (A := ReferencesApart schema) hsurvey .document
    (fun hA ↦ hA.1) (fun hA ↦ hA.2) (hrun _ (Nat.lt_succ_self _))
    ⟨fun f hf ↦ absurd hf not_mem_nil, nodup_nil⟩ ⟨by rw [hclean], by rw [hclean]⟩
  -- nothing was owed at the start, so what is owed at the end was kept, or is the root
  have howed : ∀ name, Owed (refTable schema) walk name → name ∈ walk.kept.map Prod.fst ∨
      walk.rootRecursive = true ∧ name = (refTable schema).rootName := by
    refine fun name hname ↦ hname.imp_left fun hstarted ↦ ?_
    exact (h.moves.finished name hstarted).resolve_left not_mem_nil
  have hrefs : ∀ x ∈ refsIn .schema resolved, ∃ name, Owed (refTable schema) walk name ∧
      x = pointerTo name := fun x hx ↦
    (h.rewrites _ fun _ ↦ id).exists_pointerTo hsurvey .document hx
  rcases hout with ⟨hempty, rfl⟩ | ⟨-, fields, rfl, rfl⟩
  · have ⟨hroot, hkept⟩ := keptDefinitions_eq_nil hempty
    have hnone : ∀ name, ¬Owed (refTable schema) walk name := by
      intro name hname
      rcases howed name hname with hmem | ⟨hrecursive, -⟩
      · rw [hkept] at hmem
        exact absurd hmem not_mem_nil
      · exact Bool.eq_false_iff.mp hroot hrecursive
    have hdefs : definedNames out = [] := definedNames_eq_nil fun fields heq ↦
      (h.rewrites _ fun _ ↦ id).not_mem_defs rfl heq
    refine ⟨fun x hx ↦ ?_, fun _ name hname ↦ ?_⟩
    · obtain ⟨name, hname, -⟩ := hrefs x hx
      exact absurd hname (hnone name)
    · rw [hdefs] at hname
      exact absurd hname not_mem_nil
  · have hdefs := (h.rewrites _ fun _ ↦ id).not_mem_defs rfl rfl
    have hmem := mem_keptDefinitions (get_rootDefinitionName schema (definitions schema)) h
    rw [definedNames_insertField hdefs]
    have hnamed : ∀ name, Owed (refTable schema) walk name →
        name ∈ (keptDefinitions (refTable schema) (.object fields) walk).map Prod.fst := by
      intro name hname
      rcases howed name hname with hold | ⟨hroot, rfl⟩
      · obtain ⟨f, hf, rfl⟩ := mem_map.mp hold
        exact mem_map_of_mem ((hmem f).mpr (.inl hf))
      · exact mem_map_of_mem (f := Prod.fst) ((hmem (_, _)).mpr (.inr ⟨hroot, rfl⟩))
    refine ⟨fun x hx ↦ ?_, fun hapart name hname ↦ ?_⟩
    · -- a reference of the document, of a kept body, or of the copy of the root
      have hx : ∃ name, Owed (refTable schema) walk name ∧ x = pointerTo name := by
        rcases (mem_refsIn_insert_defs hdefs x).mp hx with hx | ⟨f, hf, hx⟩
        · exact hrefs x hx
        rcases (hmem f).mp hf with hold | ⟨-, rfl⟩
        · rcases h.moves.fresh f hold with hnil | ⟨-, hkept⟩
          · exact absurd hnil not_mem_nil
          · obtain ⟨-, body, -, hV, hrewrites⟩ := hkept _ fun _ ↦ id
            exact hrewrites.exists_pointerTo hsurvey hV hx
        · exact hrefs x hx
      obtain ⟨name, howed, rfl⟩ := hx
      exact ⟨name, hnamed name howed, rfl⟩
    · obtain ⟨f, hf, rfl⟩ := mem_map.mp hname
      have howed : Owed (refTable schema) walk f.1 := by
        rcases (hmem f).mp hf with hold | ⟨hroot, rfl⟩
        · exact .inl (h.moves.orderly.started f hold)
        · exact .inr ⟨hroot, rfl⟩
      rcases h.named hapart f.1 howed with (hstart | ⟨hstart, -⟩) | hleft | ⟨g, hg, hleft⟩
      · exact absurd hstart not_mem_nil
      · cases hstart
      · exact (mem_refsIn_insert_defs hdefs _).mpr (.inl hleft)
      · exact (mem_refsIn_insert_defs hdefs _).mpr (.inr ⟨g, (hmem g).mpr (.inl hg), hleft⟩)

def nodeSchema : Json :=
  .object [("properties", .object [("next", .object [("$ref", .string "#")])])]

theorem inlineRefs_closed_node : ∃ out issues,
    (∀ n > maxInlinedNodes, inlineRefs n nodeSchema = some (out, issues)) ∧
      (issues.oversized = false → walkNodes .schema out ≤ 2 * maxInlinedNodes) ∧
      (issues = {} → StringRefs nodeSchema →
        (∀ x ∈ refsIn .schema out, ∃ name ∈ definedNames out, x = pointerTo name) ∧
        (ReferencesApart nodeSchema →
          ∀ name ∈ definedNames out, pointerTo name ∈ refsIn .schema out)) :=
  inlineRefs_closed nodeSchema (by simp [nodeSchema, KeysDistinct, FieldsDistinct])

/-! ## The provisos -/

theorem inlineRefs_below {n m : ℕ} {schema : Json} {result : Json × RefIssues} (h : n ≤ m)
    (hrun : inlineRefs n schema = some result) : inlineRefs m schema = some result := by
  rw [inlineRefs] at hrun
  rcases hdoc : resolveDocument (refTable schema) n schema {} with - | ⟨resolved, walk⟩
  · rw [hdoc] at hrun
    cases hrun
  · rw [hdoc] at hrun
    rw [inlineRefs_eq (resolveDocument_below _ h hdoc)]
    exact hrun

/-- A `$ref` that is no string. -/
def numberRef : Json := .object [("$ref", .number (.posInt 5))]

/-- A definition that refers to the root, and a reference to it. The keyword beside the reference
replaces the properties of the definition, and with them the only reference to the root. -/
def coveredRef : Json :=
  .object [("$ref", pointerTo "Entry"), ("properties", .object []),
    ("$defs", .object [("Entry",
      .object [("properties", .object [("parent", .object [("$ref", .string "#")])])])])]

/-- An array with more items than twice the nodes of the budget. -/
def wideArray : Json := .array (List.replicate 200001 .null)

theorem inlineRefs_numberRef : inlineRefs 5 numberRef = some (numberRef, {}) := rfl

theorem inlineRefs_coveredRef : inlineRefs 5 coveredRef =
    some (.object [("properties", .object []),
      ("$defs", .object [("Root", .object [("properties", .object [])])])], {}) := by
  have htarget : resolveRefTarget (refTable coveredRef) (resolve (refTable coveredRef) 5)
      (LocalRef.definition "Entry").pointer true { emitted := 1 } =
        some (.object [("properties", .object [("parent", referenceTo "Root")])],
          { emitted := 4, rootRecursive := true }) := by
    rw [resolveRefTarget, if_neg (pointer_ne_root _), definitionNamed_pointer]
    rfl
  have hdocument : resolveDocument (refTable coveredRef) 5 coveredRef {} =
      some (.object [("properties", .object [])], { emitted := 5, rootRecursive := true }) := by
    change resolveRefNode (refTable coveredRef) (resolve (refTable coveredRef) 5)
      (LocalRef.definition "Entry").pointer _ true { emitted := 1 } = _
    rw [resolveRefNode, htarget]
    rfl
  rw [inlineRefs_eq hdocument]
  rfl

theorem length_le_walkItems (items : List Json) : items.length ≤ walkItems items := by
  induction items with
  | nil => exact le_rfl
  | cons v items ih =>
    have hone : 1 ≤ walkNodes .schema v := by
      rcases v with - | b | n | s | items | fields
      all_goals first | exact le_rfl | exact Nat.le_add_right 1 _
    rw [walkItems, length_cons]
    omega

theorem length_lt_walkNodes_of_inlineRefs {n : ℕ} {items : List Json} {out : Json}
    {issues : RefIssues} (h : inlineRefs (n + 1) (.array items) = some (out, issues)) :
    items.length < walkNodes .schema out := by
  rw [inlineRefs] at h
  rcases hrun : resolveDocument (refTable (.array items)) (n + 1) (.array items) {} with
    - | ⟨resolved, walk⟩
  · rw [hrun] at h
    cases h
  rw [hrun] at h
  have hnode : (resolveItems (resolve (refTable (.array items)) n) items { emitted := 1 }).map
      (fun r ↦ (Json.array r.1, r.2)) = some (resolved, walk) := hrun
  obtain ⟨⟨out', walk'⟩, hitems, heq⟩ := Option.map_eq_some_iff.mp hnode
  obtain ⟨rfl, rfl⟩ := Prod.mk.inj heq
  have hlength : out'.length = items.length := by
    refine resolveItems_rule (I := fun done out _ ↦ out.length = done.length) hitems rfl ?_
    intro done item rest out walk v walk₁ _ hlength _
    rw [length_append, length_append, hlength]
    rfl
  -- there is no object to put a table into
  have hout : out = .array out' := by
    have hfst : _ = out := congrArg Prod.fst (Option.some.inj h)
    rw [← hfst, attachDefinitions.eq_def]
    split_ifs
    all_goals rfl
  have hle := length_le_walkItems out'
  rw [hout, ← hlength]
  change out'.length < 1 + walkItems out'
  omega

/-- **The provisos are needed.** A `$ref` that is no string is passed on unreported; a definition
is kept to which nothing refers; an output that outgrew the budget has more than twice its nodes. -/
theorem inlineRefs_not_closed :
    (∀ n > maxInlinedNodes, ∃ out, inlineRefs n numberRef = some (out, {}) ∧
      ∃ x ∈ refsIn .schema out, ∀ name, x ≠ pointerTo name) ∧
    (∀ n > maxInlinedNodes, ∃ out, inlineRefs n coveredRef = some (out, {}) ∧
      ∃ name ∈ definedNames out, pointerTo name ∉ refsIn .schema out) ∧
    ∀ n > maxInlinedNodes, ∃ out issues, inlineRefs n wideArray = some (out, issues) ∧
      2 * maxInlinedNodes < walkNodes .schema out := by
  have hfuel : ∀ n > maxInlinedNodes, 5 ≤ n := fun n hn ↦ by
    have : maxInlinedNodes = 100000 := rfl
    omega
  refine ⟨fun n hn ↦ ⟨_, inlineRefs_below (hfuel n hn) inlineRefs_numberRef, ?_⟩,
    fun n hn ↦ ⟨_, inlineRefs_below (hfuel n hn) inlineRefs_coveredRef, ?_⟩, fun n hn ↦ ?_⟩
  · exact ⟨.number (.posInt 5), mem_cons_self, fun _ ↦ nofun⟩
  · refine ⟨"Root", mem_cons_self, ?_⟩
    exact not_mem_nil
  · obtain ⟨resolved, walk, hrun⟩ := exists_resolveDocument wideArray
    have hinline := inlineRefs_eq (hrun n hn)
    obtain ⟨n, rfl⟩ : ∃ k, n = k + 1 := ⟨n - 1, by omega⟩
    have hlt := length_lt_walkNodes_of_inlineRefs hinline
    rw [length_replicate] at hlt
    have hmax : 2 * maxInlinedNodes < 200001 := by decide
    exact ⟨_, _, hinline, hmax.trans hlt⟩

end WaferRun.Discovery
