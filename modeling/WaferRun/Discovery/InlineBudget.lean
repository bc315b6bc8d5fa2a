import WaferRun.Discovery.InlineRefs

/-!
# The walk returns, within its budget

Every call of the walk charges the node it starts at, so the calls still open are no more than the
nodes emitted, and one level more than the budget has nodes is enough (`exists_resolveDocument`). What
the walk returns is paid for: the nodes of the result, and of the definitions kept on the way, were
charged (`Pays`). Only the copy of a recursive root is not, so the document has at most twice as
many nodes as the budget (`walkNodes_inlineRefs_le`).
-/

open List Option

namespace WaferRun.Discovery

variable {key reference : String} {v value : Json} {fields : List (String × Json)}
  {inlineCyclic : Bool}

/-! ## Objects -/

theorem insertField_of_not_mem (h : key ∉ fields.map Prod.fst) :
    insertField key value fields = fields ++ [(key, value)] := by
  induction fields with
  | nil => rfl
  | cons g fields ih =>
    rw [map_cons, mem_cons, not_or] at h
    rw [insertField, if_neg (Ne.symm h.1), ih h.2, cons_append]

theorem mem_keys_insertField {k : String} :
    k ∈ (insertField key value fields).map Prod.fst ↔ k = key ∨ k ∈ fields.map Prod.fst := by
  induction fields with
  | nil => simp [insertField]
  | cons g fields ih =>
    rw [insertField]
    split_ifs with hg
    · rw [map_cons, map_cons, mem_cons, mem_cons, hg, or_self_left]
    · rw [map_cons, map_cons, mem_cons, mem_cons, ih, or_left_comm]

theorem nodup_keys_insertField (h : (fields.map Prod.fst).Nodup) :
    ((insertField key value fields).map Prod.fst).Nodup := by
  induction fields with
  | nil => exact nodup_singleton key
  | cons g fields ih =>
    rw [map_cons, nodup_cons] at h
    rw [insertField]
    split_ifs with hg
    · rw [map_cons, nodup_cons]
      exact ⟨hg ▸ h.1, h.2⟩
    · rw [map_cons, nodup_cons, mem_keys_insertField, not_or]
      exact ⟨⟨hg, h.1⟩, ih h.2⟩

theorem mem_insertField_iff (h : (fields.map Prod.fst).Nodup) {f : String × Json} :
    f ∈ insertField key value fields ↔ f = (key, value) ∨ f ∈ fields ∧ f.1 ≠ key := by
  induction fields with
  | nil => simp [insertField]
  | cons g fields ih =>
    rw [map_cons, nodup_cons] at h
    rw [insertField]
    split_ifs with hg
    · subst hg
      have hne : f ∈ fields → f.1 ≠ g.1 := fun hf heq ↦ h.1 (heq ▸ List.mem_map_of_mem hf)
      rw [mem_cons, mem_cons]
      refine or_congr_right ⟨fun hf ↦ ⟨.inr hf, hne hf⟩, fun ⟨hf, hfg⟩ ↦ hf.resolve_left ?_⟩
      exact fun heq ↦ hfg (congrArg Prod.fst heq)
    · have hne : f = g → f.1 ≠ key := fun heq ↦ heq ▸ hg
      rw [mem_cons, mem_cons, ih h.2]
      tauto

/-! ## Nodes as the walk counts them -/

inductive Reading
  | schema
  | names
deriving DecidableEq

def keywordReading (key : String) : Option Reading :=
  match keywordValue key with
  | .literal => none
  | .subschemaMap => some .names
  | .subschema | .subschemaList | .other => some .schema

def isString : Json → Bool
  | .string _ => true
  | _ => false

mutual

/-- The nodes of an output. The text of a reference is part of the object that carries it, and the
table of definitions is charged for its bodies only. -/
def walkNodes : Reading → Json → ℕ
  | r, .object fields =>
    1 + match r with
      | .schema => walkMembers fields
      | .names => walkNamed fields
  | _, .array items => 1 + walkItems items
  | _, _ => 1

/-- The nodes behind the keywords of a schema object. -/
def walkMembers : List (String × Json) → ℕ
  | [] => 0
  | (key, value) :: fields =>
    (if key = "$ref" ∧ isString value = true then 0
      else if key = "$defs" then walkNodes .names value - 1
      else match keywordReading key with
        | none => countNodes value
        | some reading => walkNodes reading value) + walkMembers fields

/-- The nodes of the schemas in a map. -/
def walkNamed : List (String × Json) → ℕ
  | [] => 0
  | (_, value) :: fields => walkNodes .schema value + walkNamed fields

def walkItems : List Json → ℕ
  | [] => 0
  | item :: items => walkNodes .schema item + walkItems items

end

def memberNodes (key : String) (value : Json) : ℕ := walkMembers [(key, value)]

theorem walkMembers_cons (key : String) (value : Json) (fields : List (String × Json)) :
    walkMembers ((key, value) :: fields) = memberNodes key value + walkMembers fields := by
  rw [memberNodes, walkMembers, walkMembers, walkMembers, Nat.add_zero]

theorem memberNodes_le {reading : Reading} (h : keywordReading key = some reading)
    (hdefs : key ≠ "$defs") (value : Json) : memberNodes key value ≤ walkNodes reading value := by
  rw [memberNodes, walkMembers, walkMembers, Nat.add_zero, if_neg hdefs, h]
  split_ifs
  · exact Nat.zero_le _
  · exact le_rfl

theorem memberNodes_literal (h : keywordReading key = none) (value : Json) :
    memberNodes key value = countNodes value := by
  have href : key ≠ "$ref" := by
    rintro rfl
    revert h
    decide
  have hdefs : key ≠ "$defs" := by
    rintro rfl
    revert h
    decide
  rw [memberNodes, walkMembers, walkMembers, Nat.add_zero, if_neg fun hr ↦ href hr.1,
    if_neg hdefs, h]

theorem walkMembers_insertField_le (key : String) (value : Json) (fields : List (String × Json)) :
    walkMembers (insertField key value fields) ≤ memberNodes key value + walkMembers fields := by
  induction fields with
  | nil => rfl
  | cons g fields ih =>
    rw [insertField]
    split_ifs with hg
    · rw [walkMembers_cons, walkMembers_cons]
      omega
    · rw [walkMembers_cons, walkMembers_cons]
      omega

theorem walkNamed_insertField_le (key : String) (value : Json) (fields : List (String × Json)) :
    walkNamed (insertField key value fields) ≤ walkNodes .schema value + walkNamed fields := by
  induction fields with
  | nil => rfl
  | cons g fields ih =>
    rw [insertField]
    split_ifs with hg
    · rw [walkNamed, walkNamed]
      omega
    · rw [walkNamed, walkNamed]
      omega

def isObject : Json → Bool
  | .object _ => true
  | _ => false

theorem exists_object (h : isObject v = true) : ∃ fields, v = .object fields := by
  rcases v with - | b | n | s | items | fields
  all_goals first | exact ⟨_, rfl⟩ | cases h

theorem one_le_countNodes (v : Json) : 1 ≤ countNodes v := by
  rcases v with - | b | n | s | items | fields
  all_goals first | exact le_refl 1 | exact Nat.le_add_right 1 _

theorem walkNodes_eq_of_not_object (h : isObject v = false) (r : Reading) :
    walkNodes r v = walkNodes .schema v := by
  rcases r with - | -
  · rfl
  · rcases v with - | b | n | s | items | fields
    all_goals first | rfl | cases h

section Loops

variable {member : String → Resolver} {rec : Resolver}

theorem resolveEach_rule {I : List (String × Json) → List (String × Json) → RefWalk → Prop}
    {base out : List (String × Json)} {walk walk' : RefWalk}
    (hrun : resolveEach member fields base walk = some (out, walk')) (hbase : I [] base walk)
    (hstep : ∀ done key value rest out walk resolved walk',
      fields = done ++ (key, value) :: rest → I done out walk →
        member key value walk = some (resolved, walk') →
          I (done ++ [(key, value)]) (insertField key resolved out) walk') :
    I fields out walk' := by
  -- the entries already walked are a prefix of all of them
  have hsuffix : ∀ (rest done base : List (String × Json)) (walk : RefWalk),
      fields = done ++ rest → I done base walk →
        resolveEach member rest base walk = some (out, walk') → I fields out walk' := by
    intro rest
    induction rest with
    | nil =>
      intro done base walk hsplit hI hrun
      obtain ⟨rfl, rfl⟩ := Prod.mk.inj (some.inj hrun)
      rwa [hsplit, append_nil]
    | cons f rest ih =>
      intro done base walk hsplit hI hrun
      rw [resolveEach] at hrun
      rcases hmember : member f.1 f.2 walk with - | ⟨resolved, walk₁⟩
      · rw [hmember] at hrun
        cases hrun
      · rw [hmember] at hrun
        refine ih (done ++ [f]) _ walk₁ ?_ ?_ hrun
        · rw [hsplit, append_assoc, singleton_append]
        · exact hstep done f.1 f.2 rest base walk resolved walk₁ hsplit hI hmember
  exact hsuffix fields [] base walk rfl hbase hrun

theorem resolveItems_rule {I : List Json → List Json → RefWalk → Prop} {items out : List Json}
    {walk walk' : RefWalk} (hrun : resolveItems rec items walk = some (out, walk'))
    (hbase : I [] [] walk)
    (hstep : ∀ done item rest out walk resolved walk', items = done ++ item :: rest →
      I done out walk → rec item walk = some (resolved, walk') →
        I (done ++ [item]) (out ++ [resolved]) walk') :
    I items out walk' := by
  have hsuffix : ∀ (rest done acc out : List Json) (walk : RefWalk), items = done ++ rest →
      I done acc walk → resolveItems rec rest walk = some (out, walk') →
        I items (acc ++ out) walk' := by
    intro rest
    induction rest with
    | nil =>
      intro done acc out walk hsplit hI hrun
      obtain ⟨rfl, rfl⟩ := Prod.mk.inj (some.inj hrun)
      rwa [hsplit, append_nil, append_nil]
    | cons item rest ih =>
      intro done acc out walk hsplit hI hrun
      rw [resolveItems] at hrun
      rcases hitem : rec item walk with - | ⟨resolved, walk₁⟩
      · rw [hitem] at hrun
        cases hrun
      rw [hitem] at hrun
      rcases hrest : resolveItems rec rest walk₁ with - | ⟨out₁, walk₂⟩
      · simp only [hrest] at hrun
        cases hrun
      simp only [hrest] at hrun
      obtain ⟨rfl, rfl⟩ := Prod.mk.inj (some.inj hrun)
      have := ih (done ++ [item]) (acc ++ [resolved]) out₁ walk₁
        (by rw [hsplit, append_assoc, singleton_append])
        (hstep done item rest acc walk resolved walk₁ hsplit hI hitem) hrest
      rwa [append_assoc, singleton_append] at this
  exact hsuffix items [] [] out walk rfl hbase hrun

end Loops

/-! ## The budget -/

namespace RefWalk

/-- A walk that has reported nothing has kept within its budget. -/
def Fits (walk : RefWalk) : Prop := walk.issues.oversized = false → walk.emitted ≤ maxInlinedNodes

theorem spend_cases (nodes : ℕ) (walk : RefWalk) :
    (walk.emitted + nodes ≤ maxInlinedNodes ∧
      walk.spend nodes = (true, { walk with emitted := walk.emitted + nodes })) ∨
    (maxInlinedNodes < walk.emitted + nodes ∧
      walk.spend nodes =
        (false, { walk with emitted := walk.emitted + nodes,
                            issues := { walk.issues with oversized := true } })) := by
  by_cases h : maxInlinedNodes < walk.emitted + nodes
  · exact .inr ⟨h, by rw [spend, if_pos h]⟩
  · exact .inl ⟨Nat.le_of_not_lt h, by rw [spend, if_neg h]⟩

end RefWalk

/-- From one state to another at least `nodes` nodes were charged, beside those of the definitions
kept in between, and what was reported stays reported. -/
structure Pays (walk walk' : RefWalk) (nodes : ℕ) : Prop where
  le : walk.emitted ≤ walk'.emitted
  charged : walk.emitted + nodes + walkNamed walk'.kept ≤ walk'.emitted + walkNamed walk.kept
  fits : walk.Fits → walk'.Fits
  unresolved : walk.issues.unresolved = true → walk'.issues.unresolved = true
  oversized : walk.issues.oversized = true → walk'.issues.oversized = true

namespace Pays

variable {walk walk₁ walk₂ : RefWalk} {m n : ℕ}

theorem refl (walk : RefWalk) : Pays walk walk 0 := ⟨le_rfl, le_rfl, id, id, id⟩

theorem trans (h₁ : Pays walk walk₁ m) (h₂ : Pays walk₁ walk₂ n) : Pays walk walk₂ (m + n) where
  le := h₁.le.trans h₂.le
  charged := by
    have hm := h₁.charged
    have hn := h₂.charged
    omega
  fits := h₂.fits ∘ h₁.fits
  unresolved := h₂.unresolved ∘ h₁.unresolved
  oversized := h₂.oversized ∘ h₁.oversized

theorem mono (h : Pays walk walk₁ n) (hle : m ≤ n) : Pays walk walk₁ m where
  le := h.le
  charged := by
    have hn := h.charged
    omega
  fits := h.fits
  unresolved := h.unresolved
  oversized := h.oversized

theorem spend {b : Bool} (h : walk.spend n = (b, walk₁)) : Pays walk walk₁ n := by
  rcases walk.spend_cases n with ⟨hle, heq⟩ | ⟨hlt, heq⟩
  · obtain ⟨-, rfl⟩ := Prod.mk.inj (heq.symm.trans h)
    exact ⟨Nat.le_add_right _ _, le_rfl, fun _ _ ↦ hle, id, id⟩
  · obtain ⟨-, rfl⟩ := Prod.mk.inj (heq.symm.trans h)
    refine ⟨Nat.le_add_right _ _, le_rfl, fun _ hfits ↦ ?_, id, fun _ ↦ rfl⟩
    cases hfits

theorem of_eq (hissues : walk₁.issues = walk.issues) (hemitted : walk₁.emitted = walk.emitted)
    (hkept : walk₁.kept = walk.kept) : Pays walk walk₁ 0 where
  le := hemitted.ge
  charged := by rw [hemitted, hkept, Nat.add_zero]
  fits h := by rwa [RefWalk.Fits, hissues, hemitted]
  unresolved h := by rwa [hissues]
  oversized h := by rwa [hissues]

theorem setUnresolved (walk : RefWalk) : Pays walk walk.setUnresolved 0 :=
  ⟨le_rfl, le_rfl, id, fun _ ↦ rfl, id⟩

end Pays

structure Paying (rec : Resolver) : Prop where
  pays : ∀ {node : Json} {walk : RefWalk} {v : Json} {walk' : RefWalk},
    rec node walk = some (v, walk') → Pays walk walk' (walkNodes .schema v)
  shape : ∀ {node : Json} {walk : RefWalk} {v : Json} {walk' : RefWalk},
    rec node walk = some (v, walk') → isObject node = false →
      v = unconstrained ∨ isObject v = false

section Layer

variable {T : RefTable} {rec : Resolver} {walk walk' : RefWalk}

theorem resolveSchemaMap_of_not_object {node : Json} (h : isObject node = false) :
    resolveSchemaMap rec node walk = rec node walk := by
  rcases node with - | b | n | s | items | fields
  all_goals first | rfl | cases h

theorem resolveRefNode_of_not_object
    (htarget : resolveRefTarget T rec reference inlineCyclic walk = some (v, walk'))
    (h : isObject v = false) :
    resolveRefNode T rec reference fields inlineCyclic walk = some (v, walk') := by
  rw [resolveRefNode, htarget]
  rcases v with - | b | n | s | items | fields
  all_goals first | rfl | cases h

theorem Pays.of_resolveEach {member : String → Resolver} {count : List (String × Json) → ℕ}
    (cost : String → Json → ℕ)
    (hcount : ∀ key value fields,
      count (insertField key value fields) ≤ cost key value + count fields)
    {base out : List (String × Json)}
    (hrun : resolveEach member fields base walk = some (out, walk'))
    (hmember : ∀ f ∈ fields, ∀ {walk resolved walk'},
      member f.1 f.2 walk = some (resolved, walk') → Pays walk walk' (cost f.1 resolved)) :
    ∃ n, Pays walk walk' n ∧ count out ≤ n + count base := by
  refine resolveEach_rule
    (I := fun _ out walk₁ ↦ ∃ n, Pays walk walk₁ n ∧ count out ≤ n + count base) hrun ⟨0, .refl walk, (Nat.zero_add _).ge⟩ ?_
  rintro done key value rest out walk₁ resolved walk₂ hsplit ⟨n, hpays, hout⟩ hrun
  have hmem : (key, value) ∈ fields := by
    rw [hsplit]
    exact mem_append_right _ mem_cons_self
  have hcost := hcount key resolved out
  exact ⟨n + cost key resolved, hpays.trans (hmember _ hmem hrun), by omega⟩

theorem Pays.of_resolveItems (hrec : Paying rec) {items out : List Json}
    (hrun : resolveItems rec items walk = some (out, walk')) :
    Pays walk walk' (walkItems out) := by
  have happend : ∀ (out : List Json) (v : Json),
      walkItems (out ++ [v]) = walkItems out + walkNodes .schema v := by
    intro out v
    induction out with
    | nil => rw [nil_append, walkItems, walkItems, walkItems, Nat.add_comm]
    | cons w out ih => rw [cons_append, walkItems, walkItems, ih, Nat.add_assoc]
  refine resolveItems_rule (I := fun _ out walk₁ ↦ Pays walk walk₁ (walkItems out)) hrun
    (.refl walk) ?_
  intro done item rest out walk₁ resolved walk₂ _ hpays hrun
  rw [happend]
  exact hpays.trans (hrec.pays hrun)

theorem Pays.of_resolveSchemaMap (hrec : Paying rec) {node : Json}
    (hrun : resolveSchemaMap rec node walk = some (v, walk')) :
    Pays walk walk' (walkNodes .names v) := by
  by_cases hobject : isObject node = true
  · obtain ⟨fields, rfl⟩ := exists_object hobject
    rw [resolveSchemaMap.eq_def] at hrun
    rcases hspend : walk.spend 1 with ⟨- | -, walk₁⟩
    · rw [hspend] at hrun
      obtain ⟨rfl, rfl⟩ := Prod.mk.inj (some.inj hrun)
      exact .spend hspend
    · rw [hspend] at hrun
      obtain ⟨⟨out, walk₂⟩, heach, heq⟩ := map_eq_some_iff.mp hrun
      obtain ⟨rfl, rfl⟩ := Prod.mk.inj heq
      have ⟨n, hpays, hn⟩ := Pays.of_resolveEach (fun _ v ↦ walkNodes .schema v)
        walkNamed_insertField_le heach fun _ _ ↦ hrec.pays
      exact ((Pays.spend hspend).trans hpays).mono (Nat.add_le_add_left hn 1)
  · have hnot : isObject node = false := Bool.eq_false_iff.mpr hobject
    rw [resolveSchemaMap_of_not_object hnot] at hrun
    rcases hrec.shape hrun hnot with rfl | hv
    · exact hrec.pays hrun
    · rw [walkNodes_eq_of_not_object hv]
      exact hrec.pays hrun

theorem Pays.of_resolveMember (hrec : Paying rec) (hkey : key ≠ "$defs")
    (hrun : resolveMember rec key value walk = some (v, walk')) :
    Pays walk walk' (memberNodes key v) := by
  rw [resolveMember] at hrun
  rcases hkind : keywordValue key with - | - | - | - | -
  · rw [hkind] at hrun
    exact (hrec.pays hrun).mono (memberNodes_le (by rw [keywordReading, hkind]) hkey v)
  · rw [hkind] at hrun
    exact (hrec.pays hrun).mono (memberNodes_le (by rw [keywordReading, hkind]) hkey v)
  · rw [hkind] at hrun
    exact (Pays.of_resolveSchemaMap hrec hrun).mono
      (memberNodes_le (by rw [keywordReading, hkind]) hkey v)
  · rw [hkind] at hrun
    rw [memberNodes_literal (by rw [keywordReading, hkind])]
    rcases hspend : walk.spend (countNodes value) with ⟨- | -, walk₁⟩
    · simp only [hspend] at hrun
      obtain ⟨rfl, rfl⟩ := Prod.mk.inj (some.inj hrun)
      exact (Pays.spend hspend).mono (one_le_countNodes value)
    · simp only [hspend] at hrun
      obtain ⟨rfl, rfl⟩ := Prod.mk.inj (some.inj hrun)
      exact .spend hspend
  · rw [hkind] at hrun
    exact (hrec.pays hrun).mono (memberNodes_le (by rw [keywordReading, hkind]) hkey v)

theorem Pays.of_keep (hrec : Paying rec) {name : String} {body : Json}
    (hrun : keep rec name body walk = some walk') : Pays walk walk' 0 := by
  rw [keep] at hrun
  split_ifs at hrun with hstarted
  · obtain rfl := some.inj hrun
    exact .refl walk
  · obtain ⟨⟨resolved, walk₁⟩, hbody, rfl⟩ := map_eq_some_iff.mp hrun
    have hstart : Pays walk (walk.start name) 0 := .of_eq rfl rfl rfl
    have hpays := hstart.trans (hrec.pays hbody)
    -- the body was charged when it was resolved, and enters the table now
    have hkept := walkNamed_insertField_le name resolved walk₁.kept
    have hcharged := hpays.charged
    refine ⟨hpays.le, ?_, hpays.fits, hpays.unresolved, hpays.oversized⟩
    change walk.emitted + 0 + walkNamed (insertField name resolved walk₁.kept) ≤ _
    change _ ≤ walk₁.emitted + _
    omega

theorem Pays.of_resolveRefTarget (hrec : Paying rec)
    (hrun : resolveRefTarget T rec reference inlineCyclic walk = some (v, walk')) :
    Pays walk walk' (walkNodes .schema v - 1) := by
  rw [resolveRefTarget] at hrun
  split_ifs at hrun with hroot
  · obtain ⟨rfl, rfl⟩ := Prod.mk.inj (some.inj hrun)
    exact .of_eq rfl rfl rfl
  rcases hname : definitionNamed reference with - | name
  · rw [hname] at hrun
    obtain ⟨rfl, rfl⟩ := Prod.mk.inj (some.inj hrun)
    exact .setUnresolved walk
  rw [hname] at hrun
  rcases htarget : T.defs.get name with - | target
  · simp only [htarget] at hrun
    obtain ⟨rfl, rfl⟩ := Prod.mk.inj (some.inj hrun)
    exact .setUnresolved walk
  simp only [htarget] at hrun
  split_ifs at hrun with hcyclic
  · obtain ⟨walk₁, hkeep, heq⟩ := map_eq_some_iff.mp hrun
    obtain ⟨rfl, rfl⟩ := Prod.mk.inj heq
    exact .of_keep hrec hkeep
  · exact (hrec.pays hrun).mono (Nat.sub_le _ 1)

theorem Pays.of_resolveRefNode (hrec : Paying rec)
    (hrun : resolveRefNode T rec reference fields inlineCyclic walk = some (v, walk')) :
    Pays walk walk' (walkNodes .schema v - 1) := by
  rcases htarget : resolveRefTarget T rec reference inlineCyclic walk with - | ⟨resolved, walk₁⟩
  · rw [resolveRefNode, htarget] at hrun
    cases hrun
  have hpays := Pays.of_resolveRefTarget hrec htarget
  by_cases hobject : isObject resolved = true
  · obtain ⟨base, rfl⟩ := exists_object hobject
    rw [resolveRefNode, htarget] at hrun
    obtain ⟨⟨out, walk₂⟩, heach, heq⟩ := map_eq_some_iff.mp hrun
    obtain ⟨rfl, rfl⟩ := Prod.mk.inj heq
    have ⟨n, heachPays, hn⟩ := Pays.of_resolveEach memberNodes
      walkMembers_insertField_le heach fun f hf ↦ by
        have hkey := (mem_filter.mp hf).2
        rw [decide_eq_true_eq] at hkey
        intro walk resolved walk'
        exact Pays.of_resolveMember hrec hkey.2
    refine (hpays.trans heachPays).mono ?_
    rw [walkNodes, walkNodes]
    omega
  · have hnot : isObject resolved = false := Bool.eq_false_iff.mpr hobject
    rw [resolveRefNode_of_not_object htarget hnot] at hrun
    obtain ⟨rfl, rfl⟩ := Prod.mk.inj (some.inj hrun)
    exact hpays

theorem paying_resolveNode (hrec : Paying rec) : Paying (resolveNode T rec) := by
  refine ⟨@fun node walk v walk' hrun ↦ ?_, @fun node walk v walk' hrun hobject ↦ ?_⟩
  · rw [resolveNode] at hrun
    rcases hspend : walk.spend 1 with ⟨- | -, walk₁⟩
    · rw [hspend] at hrun
      obtain ⟨rfl, rfl⟩ := Prod.mk.inj (some.inj hrun)
      exact .spend hspend
    rw [hspend] at hrun
    have hone := Pays.spend hspend
    rcases node with - | b | n | s | items | fields
    case array =>
      obtain ⟨⟨out, walk₂⟩, hitems, heq⟩ := map_eq_some_iff.mp hrun
      obtain ⟨rfl, rfl⟩ := Prod.mk.inj heq
      exact hone.trans (Pays.of_resolveItems hrec hitems)
    case object =>
      rcases href : stringRef fields with - | reference
      · simp only [href] at hrun
        obtain ⟨⟨out, walk₂⟩, heach, heq⟩ := map_eq_some_iff.mp hrun
        obtain ⟨rfl, rfl⟩ := Prod.mk.inj heq
        have ⟨n, hpays, hn⟩ := Pays.of_resolveEach memberNodes
          walkMembers_insertField_le heach fun f hf ↦
            Pays.of_resolveMember hrec (of_decide_eq_true (mem_filter.mp hf).2)
        exact (hone.trans hpays).mono (Nat.add_le_add_left hn 1)
      · simp only [href] at hrun
        have hpays := hone.trans (Pays.of_resolveRefNode hrec hrun)
        exact hpays.mono (by omega)
    all_goals
      obtain ⟨rfl, rfl⟩ := Prod.mk.inj (some.inj hrun)
      exact hone
  · rw [resolveNode] at hrun
    rcases hspend : walk.spend 1 with ⟨- | -, walk₁⟩
    · rw [hspend] at hrun
      exact .inl (Prod.mk.inj (some.inj hrun)).1.symm
    rw [hspend] at hrun
    rcases node with - | b | n | s | items | fields
    case array =>
      obtain ⟨⟨out, walk₂⟩, -, heq⟩ := map_eq_some_iff.mp hrun
      obtain ⟨rfl, rfl⟩ := Prod.mk.inj heq
      exact .inr rfl
    case object => cases hobject
    all_goals
      obtain ⟨rfl, rfl⟩ := Prod.mk.inj (some.inj hrun)
      exact .inr rfl

end Layer

theorem paying_resolve (T : RefTable) (n : ℕ) : Paying (resolve T n) := by
  induction n with
  | zero => exact ⟨@fun _ _ _ _ hrun ↦ (nomatch hrun), @fun _ _ _ _ hrun ↦ (nomatch hrun)⟩
  | succ n ih => exact paying_resolveNode ih

/-- The document is one schema for the walk, unless it is a reference. That costs a node, if there is
one left, and is followed. -/
theorem resolveRoot_cases (T : RefTable) (schema : Json) (walk : RefWalk) :
    (∀ rec, resolveRoot T rec schema walk = rec schema walk) ∨
    ∃ fields reference walk₁, schema = .object fields ∧ stringRef fields = some reference ∧
      (walk.spend 1 = (false, walk₁) ∧
          (∀ rec, resolveRoot T rec schema walk = some (unconstrained, walk₁)) ∨
        walk.spend 1 = (true, walk₁) ∧
          ∀ rec, resolveRoot T rec schema walk =
            resolveRefNode T rec reference fields true walk₁) := by
  cases schema with
  | object fields =>
    rcases href : stringRef fields with - | reference
    · exact .inl fun rec ↦ by simp only [resolveRoot, href]
    rcases hspend : walk.spend 1 with ⟨- | -, walk₁⟩
    · exact .inr ⟨fields, reference, walk₁, rfl, href,
        .inl ⟨rfl, fun rec ↦ by simp only [resolveRoot, href, hspend]⟩⟩
    · exact .inr ⟨fields, reference, walk₁, rfl, href,
        .inr ⟨rfl, fun rec ↦ by simp only [resolveRoot, href, hspend]⟩⟩
  | null | bool | number | string | array => exact .inl fun _ ↦ rfl

theorem Pays.of_resolveDocument {T : RefTable} {n : ℕ} {schema : Json} {walk walk' : RefWalk}
    (hrun : resolveDocument T n schema walk = some (v, walk')) :
    Pays walk walk' (walkNodes .schema v) := by
  have hrec := paying_resolve T n
  rcases resolveRoot_cases T schema walk with hroot |
    ⟨fields, reference, walk₁, -, -, ⟨hspend, hroot⟩ | ⟨hspend, hroot⟩⟩
  all_goals rw [resolveDocument, hroot] at hrun
  · exact hrec.pays hrun
  · obtain ⟨rfl, rfl⟩ := Prod.mk.inj (some.inj hrun)
    exact .spend hspend
  · exact ((Pays.spend hspend).trans (Pays.of_resolveRefNode hrec hrun)).mono (by omega)

/-! ## The walk returns -/

/-- The result is there, and the budget spent is still at least `m`. -/
def Ends {α : Type} (m : ℕ) (result : Option (α × RefWalk)) : Prop :=
  ∃ a walk, result = some (a, walk) ∧ m ≤ walk.emitted

/-- A resolver that returns whenever at least `m` nodes have been emitted. -/
def Total (m : ℕ) (rec : Resolver) : Prop :=
  ∀ node walk, m ≤ walk.emitted → Ends m (rec node walk)

theorem Ends.map {α β : Type} {m : ℕ} {result : Option (α × RefWalk)} (h : Ends m result)
    (f : α → β) : Ends m (result.map fun (a, walk) ↦ (f a, walk)) := by
  obtain ⟨a, walk, rfl, hm⟩ := h
  exact ⟨f a, walk, rfl, hm⟩

theorem Ends.mono {α : Type} {m m' : ℕ} {result : Option (α × RefWalk)} (h : Ends m result)
    (hle : m' ≤ m) : Ends m' result := by
  obtain ⟨a, walk, heq, hm⟩ := h
  exact ⟨a, walk, heq, hle.trans hm⟩

section Total

variable {T : RefTable} {rec : Resolver} {m : ℕ}

theorem emitted_of_spend {nodes : ℕ} {walk walk' : RefWalk} {b : Bool}
    (h : walk.spend nodes = (b, walk')) : walk'.emitted = walk.emitted + nodes := by
  rcases walk.spend_cases nodes with ⟨-, heq⟩ | ⟨-, heq⟩
  all_goals
    rw [heq] at h
    rw [← (Prod.mk.inj h).2]

theorem ends_resolveEach {member : String → Resolver} (hmember : ∀ key, Total m (member key))
    (fields base : List (String × Json)) (walk : RefWalk) (hm : m ≤ walk.emitted) :
    Ends m (resolveEach member fields base walk) := by
  induction fields generalizing base walk with
  | nil => exact ⟨base, walk, rfl, hm⟩
  | cons f fields ih =>
    obtain ⟨v, walk₁, hrun, hm₁⟩ := hmember f.1 f.2 walk hm
    rw [resolveEach, hrun]
    exact ih _ walk₁ hm₁

theorem ends_resolveItems (hrec : Total m rec) (items : List Json) (walk : RefWalk)
    (hm : m ≤ walk.emitted) : Ends m (resolveItems rec items walk) := by
  induction items generalizing walk with
  | nil => exact ⟨[], walk, rfl, hm⟩
  | cons item items ih =>
    obtain ⟨v, walk₁, hrun, hm₁⟩ := hrec item walk hm
    obtain ⟨out, walk₂, hrest, hm₂⟩ := ih walk₁ hm₁
    exact ⟨v :: out, walk₂, by rw [resolveItems, hrun]; simp only [hrest], hm₂⟩

theorem total_resolveSchemaMap (hrec : Total m rec) : Total m (resolveSchemaMap rec) := by
  intro node walk hm
  by_cases hobject : isObject node = true
  · obtain ⟨fields, rfl⟩ := exists_object hobject
    rw [resolveSchemaMap.eq_def]
    rcases hspend : walk.spend 1 with ⟨- | -, walk₁⟩
    · have hspent := emitted_of_spend hspend
      exact ⟨_, walk₁, rfl, by omega⟩
    · have hspent := emitted_of_spend hspend
      exact (ends_resolveEach (fun _ ↦ hrec) fields [] walk₁ (by omega)).map Json.object
  · rw [resolveSchemaMap_of_not_object (Bool.eq_false_iff.mpr hobject)]
    exact hrec node walk hm

theorem total_resolveMember (hrec : Total m rec) (key : String) :
    Total m (resolveMember rec key) := by
  intro value walk hm
  rw [resolveMember]
  rcases keywordValue key with - | - | - | - | -
  · exact hrec value walk hm
  · exact hrec value walk hm
  · exact total_resolveSchemaMap hrec value walk hm
  · rcases hspend : walk.spend (countNodes value) with ⟨- | -, walk₁⟩
    all_goals
      have hspent := emitted_of_spend hspend
      exact ⟨_, walk₁, rfl, by omega⟩
  · exact hrec value walk hm

theorem ends_resolveRefTarget (hrec : Total m rec) (reference : String) (inlineCyclic : Bool)
    (walk : RefWalk) (hm : m ≤ walk.emitted) :
    Ends m (resolveRefTarget T rec reference inlineCyclic walk) := by
  rw [resolveRefTarget]
  split_ifs with hroot
  · exact ⟨_, _, rfl, hm⟩
  rcases definitionNamed reference with - | name
  · exact ⟨_, _, rfl, hm⟩
  rcases htarget : T.defs.get name with - | target
  · simp only [htarget]
    exact ⟨_, _, rfl, hm⟩
  simp only [htarget]
  split_ifs with hcyclic
  · rw [keep]
    split_ifs with hstarted
    · exact ⟨_, _, rfl, hm⟩
    · obtain ⟨v, walk₁, hrun, hm₁⟩ := hrec target (walk.start name) hm
      rw [hrun]
      exact ⟨_, _, rfl, hm₁⟩
  · exact hrec target walk hm

theorem ends_resolveRefNode (hrec : Total m rec) (reference : String)
    (fields : List (String × Json)) (inlineCyclic : Bool) (walk : RefWalk)
    (hm : m ≤ walk.emitted) :
    Ends m (resolveRefNode T rec reference fields inlineCyclic walk) := by
  obtain ⟨v, walk₁, htarget, hm₁⟩ :=
    ends_resolveRefTarget (T := T) hrec reference inlineCyclic walk hm
  by_cases hobject : isObject v = true
  · obtain ⟨base, rfl⟩ := exists_object hobject
    rw [resolveRefNode, htarget]
    exact (ends_resolveEach (total_resolveMember hrec) _ base walk₁ hm₁).map Json.object
  · rw [resolveRefNode_of_not_object htarget (Bool.eq_false_iff.mpr hobject)]
    exact ⟨v, walk₁, rfl, hm₁⟩

theorem total_resolveNode (hrec : Total (m + 1) rec) : Total m (resolveNode T rec) := by
  intro node walk hm
  rw [resolveNode]
  rcases hspend : walk.spend 1 with ⟨- | -, walk₁⟩
  · have hspent := emitted_of_spend hspend
    exact ⟨_, walk₁, rfl, by omega⟩
  have hspent := emitted_of_spend hspend
  have hm₁ : m + 1 ≤ walk₁.emitted := by omega
  rcases node with - | b | n | s | items | fields
  case array => exact ((ends_resolveItems hrec items walk₁ hm₁).map Json.array).mono (Nat.le_succ m)
  case object =>
    rcases href : stringRef fields with - | reference
    · simp only [href]
      exact ((ends_resolveEach (total_resolveMember hrec) _ [] walk₁ hm₁).map Json.object).mono
        (Nat.le_succ m)
    · simp only [href]
      exact (ends_resolveRefNode hrec reference fields false walk₁ hm₁).mono (Nat.le_succ m)
  all_goals exact ⟨_, walk₁, rfl, by omega⟩

theorem total_resolve (T : RefTable) (n : ℕ) : Total (maxInlinedNodes - n) (resolve T (n + 1)) := by
  induction n with
  | zero =>
    intro node walk hm
    rcases walk.spend_cases 1 with ⟨hle, -⟩ | ⟨-, heq⟩
    · omega
    · rw [resolve, resolveNode, heq]
      exact ⟨_, _, rfl, Nat.le_succ_of_le hm⟩
  | succ n ih =>
    intro node walk hm
    refine total_resolveNode (m := maxInlinedNodes - (n + 1)) ?_ node walk hm
    by_cases hn : n < maxInlinedNodes
    · have hsucc : maxInlinedNodes - (n + 1) + 1 = maxInlinedNodes - n := by omega
      rwa [hsucc]
    · intro node walk hm
      obtain ⟨v, walk₁, hrun, -⟩ := ih node walk (by omega)
      have hpays := ((paying_resolve T (n + 1)).pays hrun).le
      exact ⟨v, walk₁, hrun, hm.trans hpays⟩

end Total

/-! ## More levels change nothing -/

/-- `rec'` returns what `rec` returns, and may return more often. -/
def Below (rec rec' : Resolver) : Prop :=
  ∀ ⦃node walk result⦄, rec node walk = some result → rec' node walk = some result

section Below

variable {T : RefTable} {rec rec' : Resolver}

theorem resolveEach_below {member member' : String → Resolver}
    (h : ∀ key, Below (member key) (member' key)) {base out : List (String × Json)}
    {walk walk' : RefWalk} (hrun : resolveEach member fields base walk = some (out, walk')) :
    resolveEach member' fields base walk = some (out, walk') := by
  induction fields generalizing base walk with
  | nil => exact hrun
  | cons f fields ih =>
    rw [resolveEach] at hrun ⊢
    rcases hmember : member f.1 f.2 walk with - | ⟨v, walk₁⟩
    · rw [hmember] at hrun
      cases hrun
    · rw [hmember] at hrun
      rw [h f.1 hmember]
      exact ih hrun

theorem resolveItems_below (h : Below rec rec') {items out : List Json} {walk walk' : RefWalk}
    (hrun : resolveItems rec items walk = some (out, walk')) :
    resolveItems rec' items walk = some (out, walk') := by
  induction items generalizing out walk walk' with
  | nil => exact hrun
  | cons item items ih =>
    rw [resolveItems] at hrun ⊢
    rcases hitem : rec item walk with - | ⟨v, walk₁⟩
    · rw [hitem] at hrun
      cases hrun
    rw [hitem] at hrun
    rw [h hitem]
    rcases hrest : resolveItems rec items walk₁ with - | ⟨out₁, walk₂⟩
    · simp only [hrest] at hrun
      cases hrun
    · simp only [hrest] at hrun
      simp only [ih hrest]
      exact hrun

theorem resolveMember_below (h : Below rec rec') (key : String) :
    Below (resolveMember rec key) (resolveMember rec' key) := by
  intro value walk result hrun
  rw [resolveMember] at hrun ⊢
  rcases hkind : keywordValue key with - | - | - | - | -
  · rw [hkind] at hrun
    exact h hrun
  · rw [hkind] at hrun
    exact h hrun
  · rw [hkind] at hrun
    by_cases hobject : isObject value = true
    · obtain ⟨fields, rfl⟩ := exists_object hobject
      change resolveSchemaMap rec (.object fields) walk = some result at hrun
      change resolveSchemaMap rec' (.object fields) walk = some result
      rw [resolveSchemaMap.eq_def] at hrun ⊢
      rcases hspend : walk.spend 1 with ⟨- | -, walk₁⟩
      · rwa [hspend] at hrun
      · rw [hspend] at hrun
        obtain ⟨⟨out, walk₂⟩, heach, rfl⟩ := map_eq_some_iff.mp hrun
        exact map_eq_some_iff.mpr ⟨_, resolveEach_below (fun _ ↦ h) heach, rfl⟩
    · have hnot : isObject value = false := Bool.eq_false_iff.mpr hobject
      change resolveSchemaMap rec value walk = some result at hrun
      change resolveSchemaMap rec' value walk = some result
      rw [resolveSchemaMap_of_not_object hnot] at hrun ⊢
      exact h hrun
  · rwa [hkind] at hrun
  · rw [hkind] at hrun
    exact h hrun

theorem resolveRefTarget_below (h : Below rec rec') {walk : RefWalk} {result : Json × RefWalk}
    (hrun : resolveRefTarget T rec reference inlineCyclic walk = some result) :
    resolveRefTarget T rec' reference inlineCyclic walk = some result := by
  rw [resolveRefTarget] at hrun ⊢
  split_ifs at hrun ⊢ with hroot
  · exact hrun
  rcases hname : definitionNamed reference with - | name
  · rwa [hname] at hrun
  rw [hname] at hrun
  rcases htarget : T.defs.get name with - | target
  · simpa only [htarget] using hrun
  simp only [htarget] at hrun ⊢
  split_ifs at hrun ⊢ with hcyclic
  · obtain ⟨walk₁, hkeep, rfl⟩ := map_eq_some_iff.mp hrun
    refine map_eq_some_iff.mpr ⟨walk₁, ?_, rfl⟩
    rw [keep] at hkeep ⊢
    split_ifs at hkeep ⊢ with hstarted
    · exact hkeep
    · obtain ⟨⟨v, walk₂⟩, hbody, rfl⟩ := map_eq_some_iff.mp hkeep
      exact map_eq_some_iff.mpr ⟨_, h hbody, rfl⟩
  · exact h hrun

theorem resolveRefNode_below (h : Below rec rec') {walk : RefWalk} {result : Json × RefWalk}
    (hrun : resolveRefNode T rec reference fields inlineCyclic walk = some result) :
    resolveRefNode T rec' reference fields inlineCyclic walk = some result := by
  rcases htarget : resolveRefTarget T rec reference inlineCyclic walk with - | ⟨v, walk₁⟩
  · rw [resolveRefNode, htarget] at hrun
    cases hrun
  have htarget' := resolveRefTarget_below h htarget
  by_cases hobject : isObject v = true
  · obtain ⟨base, rfl⟩ := exists_object hobject
    rw [resolveRefNode, htarget] at hrun
    rw [resolveRefNode, htarget']
    obtain ⟨⟨out, walk₂⟩, heach, rfl⟩ := map_eq_some_iff.mp hrun
    exact map_eq_some_iff.mpr ⟨_, resolveEach_below (resolveMember_below h) heach, rfl⟩
  · have hnot : isObject v = false := Bool.eq_false_iff.mpr hobject
    rw [resolveRefNode_of_not_object htarget hnot] at hrun
    rw [resolveRefNode_of_not_object htarget' hnot, hrun]

theorem resolveNode_below (h : Below rec rec') :
    Below (resolveNode T rec) (resolveNode T rec') := by
  intro node walk result hrun
  rw [resolveNode] at hrun ⊢
  rcases hspend : walk.spend 1 with ⟨- | -, walk₁⟩
  · rwa [hspend] at hrun
  rw [hspend] at hrun
  rcases node with - | b | n | s | items | fields
  case array =>
    obtain ⟨⟨out, walk₂⟩, hitems, rfl⟩ := map_eq_some_iff.mp hrun
    exact map_eq_some_iff.mpr ⟨_, resolveItems_below h hitems, rfl⟩
  case object =>
    rcases href : stringRef fields with - | reference
    · simp only [href] at hrun ⊢
      obtain ⟨⟨out, walk₂⟩, heach, rfl⟩ := map_eq_some_iff.mp hrun
      exact map_eq_some_iff.mpr ⟨_, resolveEach_below (resolveMember_below h) heach, rfl⟩
    · simp only [href] at hrun ⊢
      exact resolveRefNode_below h hrun
  all_goals exact hrun

theorem resolve_below (T : RefTable) {n m : ℕ} (h : n ≤ m) : Below (resolve T n) (resolve T m) := by
  induction n generalizing m with
  | zero =>
    intro node walk result hrun
    cases hrun
  | succ n ih =>
    obtain ⟨m, rfl⟩ : ∃ k, m = k + 1 := ⟨m - 1, by omega⟩
    exact resolveNode_below (ih (Nat.le_of_succ_le_succ h))

theorem resolveDocument_below (T : RefTable) {n m : ℕ} (h : n ≤ m) :
    Below (resolveDocument T n) (resolveDocument T m) := by
  intro schema walk result hrun
  have hrec := resolve_below T h
  rcases resolveRoot_cases T schema walk with hroot |
    ⟨fields, reference, walk₁, -, -, ⟨-, hroot⟩ | ⟨-, hroot⟩⟩
  all_goals rw [resolveDocument, hroot] at hrun ⊢
  · exact hrec hrun
  · exact hrun
  · exact resolveRefNode_below hrec hrun

end Below

/-! ## Documents -/

theorem ends_resolveDocument (T : RefTable) (schema : Json) (walk : RefWalk) :
    Ends 0 (resolveDocument T (maxInlinedNodes + 1) schema walk) := by
  have hrec : Total 0 (resolve T (maxInlinedNodes + 1)) := by
    have := total_resolve T maxInlinedNodes
    rwa [Nat.sub_self] at this
  rcases resolveRoot_cases T schema walk with hroot |
    ⟨fields, reference, walk₁, -, -, ⟨-, hroot⟩ | ⟨-, hroot⟩⟩
  all_goals rw [resolveDocument, hroot]
  · exact hrec _ walk (Nat.zero_le _)
  · exact ⟨_, walk₁, rfl, Nat.zero_le _⟩
  · exact ends_resolveRefNode hrec reference fields true walk₁ (Nat.zero_le _)

theorem exists_resolveDocument (schema : Json) : ∃ resolved walk, ∀ n > maxInlinedNodes,
    resolveDocument (refTable schema) n schema {} = some (resolved, walk) := by
  obtain ⟨resolved, walk, hrun, -⟩ := ends_resolveDocument (refTable schema) schema {}
  exact ⟨resolved, walk, fun n hn ↦ resolveDocument_below _ hn hrun⟩

theorem inlineRefs_eq {n : ℕ} {schema resolved : Json} {walk : RefWalk}
    (h : resolveDocument (refTable schema) n schema {} = some (resolved, walk)) :
    inlineRefs n schema = some (attachDefinitions resolved
      (keptDefinitions (refTable schema) resolved walk) walk.issues) := by
  rw [inlineRefs, h]

theorem walkMembers_filter_le (fields : List (String × Json)) (p : String × Json → Bool) :
    walkMembers (fields.filter p) ≤ walkMembers fields := by
  induction fields with
  | nil => exact le_rfl
  | cons f fields ih =>
    rw [walkMembers_cons, filter_cons]
    split_ifs
    · rw [walkMembers_cons]
      omega
    · omega

theorem walkNodes_remove_le (v : Json) (key : String) :
    walkNodes .schema (v.remove key) ≤ walkNodes .schema v := by
  by_cases hobject : isObject v = true
  · obtain ⟨fields, rfl⟩ := exists_object hobject
    exact Nat.add_le_add_left (walkMembers_filter_le fields _) 1
  · rcases v with - | b | n | s | items | fields
    case object => exact absurd rfl hobject
    all_goals exact le_rfl

theorem oversized_attachDefinitions (resolved : Json) (kept : List (String × Json))
    (issues : RefIssues) :
    (attachDefinitions resolved kept issues).2.oversized = issues.oversized := by
  rw [attachDefinitions.eq_def]
  split_ifs
  · rfl
  rcases resolved with - | b | n | s | items | fields
  all_goals rfl

theorem walkNodes_attachDefinitions_le (resolved : Json) (kept : List (String × Json))
    (issues : RefIssues) : walkNodes .schema (attachDefinitions resolved kept issues).1 ≤
      walkNodes .schema resolved + walkNamed kept := by
  rw [attachDefinitions.eq_def]
  split_ifs with hkept
  · exact Nat.le_add_right _ _
  by_cases hobject : isObject resolved = true
  · obtain ⟨fields, rfl⟩ := exists_object hobject
    have hput := walkMembers_insertField_le "$defs" (.object kept) fields
    have htable : memberNodes "$defs" (.object kept) = walkNamed kept := by
      have hne : ("$defs" : String) ≠ "$ref" := by decide
      rw [memberNodes, walkMembers, walkMembers, if_neg fun h ↦ hne h.1, if_pos rfl, walkNodes,
        Nat.add_zero, Nat.add_sub_cancel_left]
    rw [htable] at hput
    change 1 + walkMembers _ ≤ 1 + walkMembers fields + _
    omega
  · rcases resolved with - | b | n | s | items | fields
    case object => exact absurd rfl hobject
    all_goals exact Nat.le_add_right _ _

/-- **A document that did not outgrow the budget has at most twice as many nodes.** -/
theorem walkNodes_inlineRefs_le {n : ℕ} {schema out : Json} {issues : RefIssues}
    (h : inlineRefs n schema = some (out, issues)) (hsize : issues.oversized = false) :
    walkNodes .schema out ≤ 2 * maxInlinedNodes := by
  rw [inlineRefs] at h
  rcases hrun : resolveDocument (refTable schema) n schema {} with - | ⟨resolved, walk⟩
  · rw [hrun] at h
    cases h
  rw [hrun] at h
  have hpays := Pays.of_resolveDocument hrun
  have hissues : issues.oversized = walk.issues.oversized := by
    have hsnd : _ = issues := congrArg Prod.snd (some.inj h)
    rw [← hsnd]
    exact oversized_attachDefinitions _ _ _
  have hfits : walk.emitted ≤ maxInlinedNodes :=
    hpays.fits (fun _ ↦ Nat.zero_le _) (hissues ▸ hsize)
  have hcharged : 0 + walkNodes .schema resolved + walkNamed walk.kept ≤ walk.emitted + 0 :=
    hpays.charged
  have hkept : walkNamed (keptDefinitions (refTable schema) resolved walk) ≤
      walkNodes .schema resolved + walkNamed walk.kept := by
    rw [keptDefinitions]
    split_ifs
    · exact (walkNamed_insertField_le _ _ _).trans
        (Nat.add_le_add_right (walkNodes_remove_le resolved "$defs") _)
    · exact Nat.le_add_left _ _
  have hattach := walkNodes_attachDefinitions_le resolved
    (keptDefinitions (refTable schema) resolved walk) walk.issues
  have hout : (attachDefinitions resolved (keptDefinitions (refTable schema) resolved walk)
      walk.issues).1 = out := congrArg Prod.fst (some.inj h)
  rw [hout] at hattach
  omega

end WaferRun.Discovery
