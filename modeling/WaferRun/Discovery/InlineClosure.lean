import WaferRun.Discovery.InlineBudget

/-!
# What inlining leaves is closed

A walk that reports nothing rewrites its schema (`Rewrites`): literals are copied, references to
cyclic definitions stay, every other reference is replaced by its target with the keywords beside it
laid on top. The definitions kept on the way are rewritten in the same sense, and every reference
that is left names one of them.

The converse, that every kept definition is named, needs a proviso. The keywords beside a reference
win over those of its target, so a keyword can replace the only one under which a reference was
left; `SiblingsApart` says that it does not.
-/

open List

namespace WaferRun.Discovery

variable {x : Json} {base fields out : List (String × Json)} {key : String} {f : String × Json}
  {n : ℕ}

/-! ## The references of an output -/

mutual

/-- What stands under `$ref` in the schema positions of a value. -/
def refsIn : Reading → Json → List Json
  | r, .object fields =>
    match r with
    | .schema => memberRefsIn fields
    | .names => namedRefsIn fields
  | _, .array items => itemRefsIn items
  | _, _ => []

def memberRefsIn : List (String × Json) → List Json
  | [] => []
  | (key, value) :: fields =>
    (if key = "$ref" then [value]
      else if key = "$defs" then refsIn .names value
      else match keywordReading key with
        | none => []
        | some reading => refsIn reading value) ++ memberRefsIn fields

def namedRefsIn : List (String × Json) → List Json
  | [] => []
  | (_, value) :: fields => refsIn .schema value ++ namedRefsIn fields

def itemRefsIn : List Json → List Json
  | [] => []
  | item :: items => refsIn .schema item ++ itemRefsIn items

end

/-- The references behind one keyword. -/
def memberRefs (key : String) (value : Json) : List Json := memberRefsIn [(key, value)]

theorem mem_memberRefsIn : x ∈ memberRefsIn fields ↔ ∃ f ∈ fields, x ∈ memberRefs f.1 f.2 := by
  induction fields with
  | nil => simp [memberRefsIn]
  | cons f fields ih =>
    have hcons : memberRefsIn (f :: fields) = memberRefs f.1 f.2 ++ memberRefsIn fields := by
      rw [memberRefs, memberRefsIn, memberRefsIn, memberRefsIn, append_nil]
    rw [hcons, mem_append, ih, exists_mem_cons_iff]

theorem mem_namedRefsIn : x ∈ namedRefsIn fields ↔ ∃ f ∈ fields, x ∈ refsIn .schema f.2 := by
  induction fields with
  | nil => simp [namedRefsIn]
  | cons f fields ih => rw [namedRefsIn, mem_append, ih, exists_mem_cons_iff]

theorem mem_itemRefsIn {items : List Json} :
    x ∈ itemRefsIn items ↔ ∃ item ∈ items, x ∈ refsIn .schema item := by
  induction items with
  | nil => simp [itemRefsIn]
  | cons item items ih => rw [itemRefsIn, mem_append, ih, exists_mem_cons_iff]

theorem memberRefs_ref (value : Json) : memberRefs "$ref" value = [value] := rfl

theorem memberRefs_of_reading {r : Reading} (href : key ≠ "$ref") (hdefs : key ≠ "$defs")
    (h : keywordReading key = some r) (value : Json) : memberRefs key value = refsIn r value := by
  rw [memberRefs, memberRefsIn, memberRefsIn, append_nil, if_neg href, if_neg hdefs, h]

theorem memberRefs_literal (h : keywordReading key = none) (value : Json) :
    memberRefs key value = [] := by
  have href : key ≠ "$ref" := by
    rintro rfl
    revert h
    decide
  have hdefs : key ≠ "$defs" := by
    rintro rfl
    revert h
    decide
  rw [memberRefs, memberRefsIn, memberRefsIn, append_nil, if_neg href, if_neg hdefs, h]

theorem memberRefs_defs (table : List (String × Json)) :
    memberRefs "$defs" (.object table) = namedRefsIn table := by
  have hne : ("$defs" : String) ≠ "$ref" := by decide
  rw [memberRefs, memberRefsIn, memberRefsIn, append_nil, if_neg hne, if_pos rfl, refsIn]

/-! ## Pointers -/

def pointerTo (name : String) : Json := .string (LocalRef.definition name).pointer

theorem pointer_ne_root (name : String) : (LocalRef.definition name).pointer ≠ "#" := by
  intro heq
  have hlen := congrArg (fun s : String ↦ s.toList.length) heq
  simp only [LocalRef.pointer, String.toList_ofList, length_append] at hlen
  have hprefix : defsPrefix.length = 8 := rfl
  have hhash : "#".toList.length = 1 := rfl
  omega

theorem definitionNamed_pointer (name : String) :
    definitionNamed (LocalRef.definition name).pointer = some name := by
  have hlist : (LocalRef.definition name).pointer.toList =
      defsPrefix ++ (encodeRefName name).toList := by
    rw [LocalRef.pointer, String.toList_ofList]
  rw [definitionNamed, hlist, if_pos (prefix_append _ _), drop_left,
    String.ofList_toList, decodeRefName_encode]

theorem pointerTo_inj {name name' : String} (h : pointerTo name = pointerTo name') :
    name = name' := by
  have hread := definitionNamed_pointer name
  rw [Json.string.inj h, definitionNamed_pointer] at hread
  exact (Option.some.inj hread).symm

/-- A value leaves a reference to a definition. -/
def LeftIn (r : Reading) (v : Json) (name : String) : Prop := pointerTo name ∈ refsIn r v

/-! ## Rewriting -/

/-- Members laid over the entries of an object: what is under a key of theirs is theirs, and
literals are copied. -/
structure Overlaid (base members out : List (String × Json)) : Prop where
  keys : ∀ k, k ∈ out.map Prod.fst ↔ k ∈ base.map Prod.fst ∨ k ∈ members.map Prod.fst
  nodup : (out.map Prod.fst).Nodup
  kept : ∀ f ∈ out, f.1 ∉ members.map Prod.fst → f ∈ base

/-- What a schema object that is not inlined starts from, and the members laid over it. -/
inductive Origin (T : RefTable) (S : String → Prop) (fields : List (String × Json)) :
    List (String × Json) → List (String × Json) → Prop
  | plain (href : stringRef fields = none) : Origin T S fields [] (keywords fields)
  | root (href : stringRef fields = some "#") (hname : S T.rootName) :
    Origin T S fields [("$ref", pointerTo T.rootName)] (siblings fields)
  | cyclic {reference name : String} {body : Json} (href : stringRef fields = some reference)
    (hroot : reference ≠ "#") (hname : definitionNamed reference = some name)
    (hbody : T.defs.get name = some body) (hcyclic : name ∈ T.cyclic) (hS : S name) :
    Origin T S fields [("$ref", pointerTo name)] (siblings fields)

/-- What the walk makes of a value, if it reports nothing. The references it leaves name definitions
in `S`; at the top of a document a reference is inlined even if its target is cyclic. -/
inductive Rewrites (T : RefTable) (S : String → Prop) : Bool → Reading → Json → Json → Prop
  | scalar {top : Bool} {r : Reading} {v : Json} (hobject : isObject v = false)
    (harray : ∀ items, v ≠ .array items) : Rewrites T S top r v v
  | array {top : Bool} {r : Reading} {items out : List Json} (hlength : out.length = items.length)
    (h : ∀ p ∈ items.zip out, Rewrites T S false .schema p.1 p.2) :
    Rewrites T S top r (.array items) (.array out)
  | names {top : Bool} {fields out : List (String × Json)} (hover : Overlaid [] fields out)
    (h : ∀ k v x, (k, v) ∈ fields → (k, x) ∈ out → Rewrites T S false .schema v x) :
    Rewrites T S top .names (.object fields) (.object out)
  | object {top : Bool} {fields base members out : List (String × Json)}
    (horigin : Origin T S fields base members) (hover : Overlaid base members out)
    (hliteral : ∀ k v x, (k, v) ∈ members → (k, x) ∈ out → keywordReading k = none → x = v)
    (h : ∀ k v x r, (k, v) ∈ members → (k, x) ∈ out → keywordReading k = some r →
      Rewrites T S false r v x) :
    Rewrites T S top .schema (.object fields) (.object out)
  | inlined {top : Bool} {fields base out : List (String × Json)} {reference name : String}
    {body : Json} (href : stringRef fields = some reference) (hroot : reference ≠ "#")
    (hname : definitionNamed reference = some name) (hbody : T.defs.get name = some body)
    (hcyclic : top = true ∨ name ∉ T.cyclic)
    (hbase : Rewrites T S false .schema body (.object base))
    (hover : Overlaid base (siblings fields) out)
    (hliteral : ∀ k v x, (k, v) ∈ siblings fields → (k, x) ∈ out → keywordReading k = none → x = v)
    (h : ∀ k v x r, (k, v) ∈ siblings fields → (k, x) ∈ out → keywordReading k = some r →
      Rewrites T S false r v x) :
    Rewrites T S top .schema (.object fields) (.object out)
  | replaced {top : Bool} {fields : List (String × Json)} {reference name : String} {body v : Json}
    (href : stringRef fields = some reference) (hroot : reference ≠ "#")
    (hname : definitionNamed reference = some name) (hbody : T.defs.get name = some body)
    (hcyclic : top = true ∨ name ∉ T.cyclic) (h : Rewrites T S false .schema body v)
    (hobject : isObject v = false) : Rewrites T S top .schema (.object fields) v

theorem mem_siblings : f ∈ siblings fields ↔ f ∈ fields ∧ f.1 ≠ "$ref" ∧ f.1 ≠ "$defs" := by
  rw [siblings, mem_filter, decide_eq_true_eq]

theorem mem_keywords : f ∈ keywords fields ↔ f ∈ fields ∧ f.1 ≠ "$defs" := by
  rw [keywords, mem_filter, decide_eq_true_eq]

theorem not_defs_of_mem_keys_siblings {k : String} (h : k ∈ (siblings fields).map Prod.fst) :
    k ≠ "$ref" ∧ k ≠ "$defs" := by
  obtain ⟨f, hf, rfl⟩ := mem_map.mp h
  exact (mem_siblings.mp hf).2

theorem Rewrites.not_mem_defs {T : RefTable} {S : String → Prop} {top : Bool} {r : Reading}
    {node v : Json} (h : Rewrites T S top r node v) (hr : r = .schema) (hv : v = .object out) :
    "$defs" ∉ out.map Prod.fst := by
  have hsiblings : ∀ fields, "$defs" ∉ (siblings fields).map Prod.fst := fun fields h ↦
    (not_defs_of_mem_keys_siblings h).2 rfl
  induction h generalizing out with
  | scalar hobject => exact absurd hobject (by rw [hv]; exact Bool.noConfusion)
  | array => cases hv
  | names => cases hr
  | object horigin hover =>
    obtain rfl := Json.object.inj hv
    rw [hover.keys, not_or]
    rcases horigin with href | ⟨href, -⟩ | ⟨href, -⟩
    · refine ⟨not_mem_nil, fun h ↦ ?_⟩
      obtain ⟨f, hf, heq⟩ := mem_map.mp h
      exact (mem_keywords.mp hf).2 heq
    · exact ⟨by simp, hsiblings _⟩
    · exact ⟨by simp, hsiblings _⟩
  | inlined _ _ _ _ _ _ hover _ _ ihbase =>
    obtain rfl := Json.object.inj hv
    rw [hover.keys, not_or]
    exact ⟨ihbase rfl rfl, hsiblings _⟩
  | replaced _ _ _ _ _ _ hobject => exact absurd hobject (by rw [hv]; exact Bool.noConfusion)

theorem Rewrites.nodup {T : RefTable} {S : String → Prop} {top : Bool} {r : Reading} {node v : Json}
    (h : Rewrites T S top r node v) (hv : v = .object out) : (out.map Prod.fst).Nodup := by
  rcases h with ⟨hobject, -⟩ | - | ⟨hover, -⟩ | ⟨-, hover, -⟩ | ⟨-, -, -, -, -, -, hover, -⟩ |
    ⟨-, -, -, -, -, -, hobject⟩
  · exact absurd hobject (by rw [hv]; exact Bool.noConfusion)
  · cases hv
  · exact Json.object.inj hv ▸ hover.nodup
  · exact Json.object.inj hv ▸ hover.nodup
  · exact Json.object.inj hv ▸ hover.nodup
  · exact absurd hobject (by rw [hv]; exact Bool.noConfusion)

/-! ## The states of a walk -/

def Owed (T : RefTable) (walk : RefWalk) (name : String) : Prop :=
  name ∈ walk.started ∨ walk.rootRecursive = true ∧ name = T.rootName

structure Orderly (walk : RefWalk) : Prop where
  started : ∀ f ∈ walk.kept, f.1 ∈ walk.started
  nodup : (walk.kept.map Prod.fst).Nodup

/-- A kept definition is the rewritten body of a cyclic one. -/
def Kept (T : RefTable) (V : Reading → Json → Prop) (S : String → Prop) (f : String × Json) :
    Prop :=
  f.1 ∈ T.cyclic ∧ ∃ body, T.defs.get f.1 = some body ∧ V .schema body ∧
    Rewrites T S false .schema body f.2

/-- From one state to another names are started and their definitions kept; nothing is forgotten. -/
structure Moves (T : RefTable) (V : Reading → Json → Prop) (walk walk' : RefWalk) : Prop where
  orderly : Orderly walk'
  started : ∀ name ∈ walk.started, name ∈ walk'.started
  root : walk.rootRecursive = true → walk'.rootRecursive = true
  kept : ∀ f ∈ walk.kept, f ∈ walk'.kept
  finished : ∀ name ∈ walk'.started, name ∈ walk.started ∨ name ∈ walk'.kept.map Prod.fst
  fresh : ∀ f ∈ walk'.kept, f ∈ walk.kept ∨
    f.1 ∉ walk.started ∧ ∀ S, (∀ name, Owed T walk' name → S name) → Kept T V S f

namespace Moves

variable {T : RefTable} {V : Reading → Json → Prop} {walk walk₁ walk₂ : RefWalk}

theorem refl (h : Orderly walk) : Moves T V walk walk :=
  ⟨h, fun _ ↦ id, id, fun _ ↦ id, fun _ ↦ .inl, fun _ ↦ .inl⟩

theorem owed (h : Moves T V walk walk₁) {name : String} (hname : Owed T walk name) :
    Owed T walk₁ name :=
  hname.imp (h.started name) (And.imp_left h.root)

theorem trans (h₁ : Moves T V walk walk₁) (h₂ : Moves T V walk₁ walk₂) : Moves T V walk walk₂ where
  orderly := h₂.orderly
  started name hname := h₂.started name (h₁.started name hname)
  root := h₂.root ∘ h₁.root
  kept f hf := h₂.kept f (h₁.kept f hf)
  finished name hname := by
    rcases h₂.finished name hname with h | h
    · refine (h₁.finished name h).imp_right fun h ↦ ?_
      obtain ⟨f, hf, rfl⟩ := mem_map.mp h
      exact mem_map_of_mem (h₂.kept f hf)
    · exact .inr h
  fresh f hf := by
    rcases h₂.fresh f hf with h | ⟨hstarted, hkept⟩
    · refine (h₁.fresh f h).imp_right (And.imp_right fun hkept S hS ↦ ?_)
      exact hkept S fun name hname ↦ hS name (h₂.owed hname)
    · exact .inr ⟨fun h ↦ hstarted (h₁.started f.1 h), hkept⟩

theorem of_eq (h : Orderly walk) (hstarted : walk₁.started = walk.started)
    (hkept : walk₁.kept = walk.kept)
    (hroot : walk.rootRecursive = true → walk₁.rootRecursive = true) : Moves T V walk walk₁ where
  orderly := ⟨by rw [hstarted, hkept]; exact h.started, by rw [hkept]; exact h.nodup⟩
  started name := by rw [hstarted]; exact id
  root := hroot
  kept f := by rw [hkept]; exact id
  finished name hname := .inl (by rwa [hstarted] at hname)
  fresh f hf := .inl (by rwa [hkept] at hf)

theorem spend {b : Bool} (h : Orderly walk) (hspend : walk.spend n = (b, walk₁)) :
    Moves T V walk walk₁ := by
  rcases walk.spend_cases n with ⟨-, heq⟩ | ⟨-, heq⟩
  all_goals
    obtain ⟨-, rfl⟩ := Prod.mk.inj (heq.symm.trans hspend)
    exact .of_eq h rfl rfl id

theorem kept_insertKept {name : String} {resolved : Json} (h : Orderly walk)
    (hnot : name ∉ walk.started) (hmoves : Moves T V (walk.start name) walk₁) :
    (walk₁.insertKept name resolved).kept = walk₁.kept ++ [(name, resolved)] := by
  refine insertField_of_not_mem fun hmem ↦ ?_
  obtain ⟨f, hf, rfl⟩ := mem_map.mp hmem
  rcases hmoves.fresh f hf with hold | ⟨hfresh, -⟩
  · exact hnot (h.started f hold)
  · exact hfresh mem_cons_self

theorem keep {name : String} {body resolved : Json} (h : Orderly walk)
    (hnot : name ∉ walk.started) (hcyclic : name ∈ T.cyclic) (hbody : T.defs.get name = some body)
    (hV : V .schema body) (hmoves : Moves T V (walk.start name) walk₁)
    (hrewrites : ∀ S, (∀ name, Owed T walk₁ name → S name) →
      Rewrites T S false .schema body resolved) :
    Moves T V walk (walk₁.insertKept name resolved) := by
  have hstart : name ∈ walk₁.started := hmoves.started name mem_cons_self
  have hkept : (walk₁.insertKept name resolved).kept = walk₁.kept ++ [(name, resolved)] :=
    kept_insertKept h hnot hmoves
  refine ⟨⟨?_, ?_⟩, ?_, hmoves.root, ?_, ?_, ?_⟩
  · intro f hf
    rw [hkept] at hf
    rcases mem_append.mp hf with hf | hf
    · exact hmoves.orderly.started f hf
    · rw [mem_singleton.mp hf]
      exact hstart
  · exact nodup_keys_insertField hmoves.orderly.nodup
  · exact fun n hn ↦ hmoves.started n (mem_cons_of_mem name hn)
  · intro f hf
    rw [hkept]
    exact mem_append_left _ (hmoves.kept f hf)
  · intro n hn
    have hmem : ∀ k, k = name ∨ k ∈ walk₁.kept.map Prod.fst →
        k ∈ (walk₁.insertKept name resolved).kept.map Prod.fst := fun k ↦
      mem_keys_insertField.mpr
    rcases hmoves.finished n hn with hold | hold
    · rcases mem_cons.mp hold with rfl | hold
      · exact .inr (hmem n (.inl rfl))
      · exact .inl hold
    · exact .inr (hmem n (.inr hold))
  · intro f hf
    rw [hkept] at hf
    rcases mem_append.mp hf with hf | hf
    · refine (hmoves.fresh f hf).imp_right (And.imp_left fun hfresh hmem ↦ ?_)
      exact hfresh (mem_cons_of_mem name hmem)
    · obtain rfl := mem_singleton.mp hf
      exact .inr ⟨hnot, fun S hS ↦ ⟨hcyclic, body, hbody, hV, hrewrites S hS⟩⟩

end Moves

/-! ## References lost to siblings -/

inductive RefersTo (T : RefTable) (fields : List (String × Json)) : String → Prop
  | root (href : stringRef fields = some "#") : RefersTo T fields T.rootName
  | cyclic {reference name : String} (href : stringRef fields = some reference)
    (hroot : reference ≠ "#") (hname : definitionNamed reference = some name)
    (hcyclic : name ∈ T.cyclic) : RefersTo T fields name

/-- A schema object is replaced by a definition. -/
structure InlinedTo (T : RefTable) (fields : List (String × Json)) (name : String) (body : Json) :
    Prop where
  ref : ∃ reference, stringRef fields = some reference ∧ reference ≠ "#" ∧
    definitionNamed reference = some name
  body : T.defs.get name = some body

inductive Leaves (T : RefTable) : Reading → Json → String → Prop
  | refers {fields : List (String × Json)} {name : String} (h : RefersTo T fields name) :
    Leaves T .schema (.object fields) name
  | inlined {fields : List (String × Json)} {target name : String} {body : Json}
    (hbody : InlinedTo T fields target body) (hcyclic : target ∉ T.cyclic)
    (h : Leaves T .schema body name) : Leaves T .schema (.object fields) name
  | member {fields : List (String × Json)} {key name : String} {value : Json} {r : Reading}
    (hmem : (key, value) ∈ fields) (href : key ≠ "$ref") (hdefs : key ≠ "$defs")
    (hr : keywordReading key = some r) (h : Leaves T r value name) :
    Leaves T .schema (.object fields) name
  | named {fields : List (String × Json)} {key name : String} {value : Json}
    (hmem : (key, value) ∈ fields) (h : Leaves T .schema value name) :
    Leaves T .names (.object fields) name
  | item {r : Reading} {items : List Json} {value : Json} {name : String} (hmem : value ∈ items)
    (h : Leaves T .schema value name) : Leaves T r (.array items) name

/-- Inlining a schema leaves a reference to a definition behind one of its keywords. -/
inductive LeavesUnder (T : RefTable) : Json → String → String → Prop
  | member {fields : List (String × Json)} {key name : String} {value : Json} {r : Reading}
    (hmem : (key, value) ∈ fields) (href : key ≠ "$ref") (hdefs : key ≠ "$defs")
    (hr : keywordReading key = some r) (h : Leaves T r value name) :
    LeavesUnder T (.object fields) key name
  | inlined {fields : List (String × Json)} {target key name : String} {body : Json}
    (hbody : InlinedTo T fields target body) (hcyclic : target ∉ T.cyclic)
    (h : LeavesUnder T body key name) : LeavesUnder T (.object fields) key name

/-- No keyword beside a reference replaces one under which the target leaves a reference. -/
def SiblingsApart (T : RefTable) (top : Bool) (fields : List (String × Json)) : Prop :=
  ∀ target body, InlinedTo T fields target body → (top = true ∨ target ∉ T.cyclic) →
    ∀ key ∈ (siblings fields).map Prod.fst, ∀ name, ¬LeavesUnder T body key name

/-- A set of values that the walk does not leave: objects have each key once, and what stands under
`$ref` is a string. -/
structure Survey (T : RefTable) (V : Reading → Json → Prop) : Prop where
  item : ∀ {r items v}, V r (.array items) → v ∈ items → V .schema v
  member : ∀ {fields key value r}, V .schema (.object fields) → (key, value) ∈ fields →
    key ≠ "$ref" → key ≠ "$defs" → keywordReading key = some r → V r value
  named : ∀ {fields key value}, V .names (.object fields) → (key, value) ∈ fields → V .schema value
  target : ∀ {fields name body}, V .schema (.object fields) → InlinedTo T fields name body →
    V .schema body
  schema : ∀ {v}, V .names v → isObject v = false → V .schema v
  distinct : ∀ {r fields}, V r (.object fields) → (fields.map Prod.fst).Nodup
  strings : ∀ {fields}, V .schema (.object fields) → stringRef fields = none →
    "$ref" ∉ fields.map Prod.fst

section Survey

variable {T : RefTable} {V : Reading → Json → Prop} {S : String → Prop}

theorem exists_reading_of_mem_memberRefs {v : Json} (href : key ≠ "$ref") (hdefs : key ≠ "$defs")
    (h : x ∈ memberRefs key v) : ∃ r, keywordReading key = some r ∧ x ∈ refsIn r v := by
  rcases hr : keywordReading key with - | r
  · rw [memberRefs_literal hr] at h
    exact absurd h not_mem_nil
  · rw [memberRefs_of_reading href hdefs hr] at h
    exact ⟨r, rfl, h⟩

theorem mem_members_of_origin (hV : Survey T V) {members : List (String × Json)}
    (hnode : V .schema (.object fields)) (h : Origin T S fields base members) (hf : f ∈ members) :
    f ∈ fields ∧ f.1 ≠ "$ref" ∧ f.1 ≠ "$defs" := by
  rcases h with href | ⟨href, -⟩ | ⟨href, -⟩
  · have hmem := mem_keywords.mp hf
    refine ⟨hmem.1, fun heq ↦ ?_, hmem.2⟩
    exact hV.strings hnode href (heq ▸ mem_map_of_mem hmem.1)
  · exact mem_siblings.mp hf
  · exact mem_siblings.mp hf

theorem Overlaid.mem_or_mem {members : List (String × Json)} (h : Overlaid base members out)
    (hf : f ∈ out) : f ∈ base ∨ ∃ value, (f.1, value) ∈ members := by
  by_cases hkey : f.1 ∈ members.map Prod.fst
  · obtain ⟨g, hg, heq⟩ := mem_map.mp hkey
    exact .inr ⟨g.2, heq ▸ hg⟩
  · exact .inl (h.kept f hf hkey)

/-- **The references that a rewritten schema holds name definitions that are owed.** -/
theorem Rewrites.exists_pointerTo (hV : Survey T V) {top : Bool} {r : Reading} {node v : Json}
    (h : Rewrites T S top r node v) (hnode : V r node) (hx : x ∈ refsIn r v) :
    ∃ name, S name ∧ x = pointerTo name := by
  induction h with
  | @scalar top r v hobject harray =>
    rcases v with - | b | n | s | items | fields
    case array => exact absurd rfl (harray items)
    case object => cases hobject
    all_goals exact absurd hx not_mem_nil
  | @array top r items out hlength h ih =>
    obtain ⟨o, ho, hx⟩ := mem_itemRefsIn.mp hx
    obtain ⟨i, hi, rfl⟩ := mem_iff_getElem.mp ho
    have hi' : i < items.length := hlength ▸ hi
    have hzip : (items[i], out[i]) ∈ items.zip out :=
      mem_iff_getElem.mpr ⟨i, by rw [length_zip]; omega, getElem_zip⟩
    exact ih _ hzip (hV.item hnode (getElem_mem hi')) hx
  | @names top fields out hover h ih =>
    obtain ⟨f, hf, hx⟩ := mem_namedRefsIn.mp hx
    rcases hover.mem_or_mem hf with hbase | ⟨value, hvalue⟩
    · exact absurd hbase not_mem_nil
    · exact ih f.1 value f.2 hvalue hf (hV.named hnode hvalue) hx
  | @object top fields base members out horigin hover hliteral h ih =>
    obtain ⟨f, hf, hx⟩ := mem_memberRefsIn.mp hx
    rcases hover.mem_or_mem hf with hbase | ⟨value, hvalue⟩
    · rcases horigin with href | ⟨href, hS⟩ | ⟨href, hroot, hname, hbody, hcyclic, hS⟩
      · exact absurd hbase not_mem_nil
      · rw [mem_singleton.mp hbase, memberRefs_ref] at hx
        exact ⟨_, hS, mem_singleton.mp hx⟩
      · rw [mem_singleton.mp hbase, memberRefs_ref] at hx
        exact ⟨_, hS, mem_singleton.mp hx⟩
    · have ⟨hmem, href, hdefs⟩ := mem_members_of_origin hV hnode horigin hvalue
      obtain ⟨r, hr, hx⟩ := exists_reading_of_mem_memberRefs href hdefs hx
      exact ih f.1 value f.2 r hvalue hf hr (hV.member hnode hmem href hdefs hr) hx
  | @inlined top fields base out reference name body href hroot hname hbody hcyclic hbase hover
      hliteral h ihbase ih =>
    have hinlined : InlinedTo T fields name body := ⟨⟨reference, href, hroot, hname⟩, hbody⟩
    obtain ⟨f, hf, hx⟩ := mem_memberRefsIn.mp hx
    rcases hover.mem_or_mem hf with hmem | ⟨value, hvalue⟩
    · exact ihbase (hV.target hnode hinlined) (mem_memberRefsIn.mpr ⟨f, hmem, hx⟩)
    · have ⟨hmem, href, hdefs⟩ := mem_siblings.mp hvalue
      obtain ⟨r, hr, hx⟩ := exists_reading_of_mem_memberRefs href hdefs hx
      exact ih f.1 value f.2 r hvalue hf hr (hV.member hnode hmem href hdefs hr) hx
  | @replaced top fields reference name body v href hroot hname hbody hcyclic h hobject ih =>
    exact ih (hV.target hnode ⟨⟨reference, href, hroot, hname⟩, hbody⟩) hx

theorem LeavesUnder.leaves {schema : Json} {name : String} (h : LeavesUnder T schema key name) :
    Leaves T .schema schema name := by
  induction h with
  | member hmem href hdefs hr h => exact .member hmem href hdefs hr h
  | inlined hbody hcyclic _ ih => exact .inlined hbody hcyclic ih

theorem leavesUnder_of_member {value : Json} {name : String}
    (h : (f.1, value) ∈ fields ∧ f.1 ≠ "$ref" ∧ f.1 ≠ "$defs")
    (hx : pointerTo name ∈ memberRefs f.1 f.2)
    (hvalue : ∀ r, keywordReading f.1 = some r → pointerTo name ∈ refsIn r f.2 →
      Leaves T r value name) :
    LeavesUnder T (.object fields) f.1 name := by
  obtain ⟨hmem, href, hdefs⟩ := h
  obtain ⟨r, hr, hx⟩ := exists_reading_of_mem_memberRefs href hdefs hx
  exact .member hmem href hdefs hr (hvalue r hr hx)

/-- **Where the references of a rewritten schema come from**: the schema leaves them, and leaves
them behind the keyword under which they stand. -/
theorem Rewrites.leaves (hV : Survey T V) {top : Bool} {r : Reading} {node v : Json}
    (h : Rewrites T S top r node v) (htop : top = false) (hnode : V r node) {name : String} :
    (LeftIn r v name → Leaves T r node name) ∧
      ∀ out, r = .schema → v = .object out → ∀ f ∈ out, f.1 ≠ "$ref" →
        pointerTo name ∈ memberRefs f.1 f.2 → LeavesUnder T node f.1 name := by
  induction h with
  | @scalar top r v hobject harray =>
    refine ⟨fun hx ↦ ?_, fun out _ hv ↦ absurd hobject (by rw [hv]; exact Bool.noConfusion)⟩
    rcases v with - | b | n | s | items | fields
    case array => exact absurd rfl (harray items)
    case object => cases hobject
    all_goals exact absurd hx not_mem_nil
  | @array top r items out hlength h ih =>
    refine ⟨fun hx ↦ ?_, fun out _ hv ↦ nomatch hv⟩
    obtain ⟨o, ho, hx⟩ := mem_itemRefsIn.mp hx
    obtain ⟨i, hi, rfl⟩ := mem_iff_getElem.mp ho
    have hi' : i < items.length := hlength ▸ hi
    have hzip : (items[i], out[i]) ∈ items.zip out :=
      mem_iff_getElem.mpr ⟨i, by rw [length_zip]; omega, getElem_zip⟩
    have hitem := getElem_mem hi'
    exact .item hitem ((ih _ hzip rfl (hV.item hnode hitem)).1 hx)
  | @names top fields out hover h ih =>
    refine ⟨fun hx ↦ ?_, fun out hr ↦ nomatch hr⟩
    obtain ⟨f, hf, hx⟩ := mem_namedRefsIn.mp hx
    rcases hover.mem_or_mem hf with hbase | ⟨value, hvalue⟩
    · exact absurd hbase not_mem_nil
    · exact .named hvalue ((ih f.1 value f.2 hvalue hf rfl (hV.named hnode hvalue)).1 hx)
  | @object top fields base members out horigin hover hliteral h ih =>
    have hmember : ∀ f ∈ out, ∀ value, (f.1, value) ∈ members →
        pointerTo name ∈ memberRefs f.1 f.2 → LeavesUnder T (.object fields) f.1 name := by
      intro f hf value hvalue hx
      have hmem := mem_members_of_origin hV hnode horigin hvalue
      refine leavesUnder_of_member hmem hx fun r hr hx ↦ ?_
      exact (ih f.1 value f.2 r hvalue hf hr rfl (hV.member hnode hmem.1 hmem.2.1 hmem.2.2 hr)).1 hx
    have hbase : ∀ f ∈ base, f.1 = "$ref" ∧
        (pointerTo name ∈ memberRefs f.1 f.2 → RefersTo T fields name) := by
      intro f hf
      rcases horigin with href | ⟨href, hS⟩ | ⟨href, hroot, hname, hbody, hcyclic, hS⟩
      · exact absurd hf not_mem_nil
      · rw [mem_singleton.mp hf, memberRefs_ref]
        exact ⟨rfl, fun hx ↦ pointerTo_inj (mem_singleton.mp hx) ▸ .root href⟩
      · rw [mem_singleton.mp hf, memberRefs_ref]
        exact ⟨rfl, fun hx ↦
          pointerTo_inj (mem_singleton.mp hx) ▸ .cyclic href hroot hname hcyclic⟩
    refine ⟨fun hx ↦ ?_, fun o _ hv f hf href hx ↦ ?_⟩
    · obtain ⟨f, hf, hx⟩ := mem_memberRefsIn.mp hx
      rcases hover.mem_or_mem hf with hmem | ⟨value, hvalue⟩
      · exact .refers ((hbase f hmem).2 hx)
      · exact (hmember f hf value hvalue hx).leaves
    · obtain rfl := Json.object.inj hv
      rcases hover.mem_or_mem hf with hmem | ⟨value, hvalue⟩
      · exact absurd (hbase f hmem).1 href
      · exact hmember f hf value hvalue hx
  | @inlined top fields base out reference target body href hroot hname hbody hcyclic hbase hover
      hliteral h ihbase ih =>
    have hinlined : InlinedTo T fields target body := ⟨⟨reference, href, hroot, hname⟩, hbody⟩
    have hacyclic : target ∉ T.cyclic := hcyclic.resolve_left (by rw [htop]; exact Bool.noConfusion)
    have ihbase := ihbase rfl (hV.target hnode hinlined)
    have hmember : ∀ f ∈ out, ∀ value, (f.1, value) ∈ siblings fields →
        pointerTo name ∈ memberRefs f.1 f.2 → LeavesUnder T (.object fields) f.1 name := by
      intro f hf value hvalue hx
      have hmem := mem_siblings.mp hvalue
      refine leavesUnder_of_member hmem hx fun r hr hx ↦ ?_
      exact (ih f.1 value f.2 r hvalue hf hr rfl (hV.member hnode hmem.1 hmem.2.1 hmem.2.2 hr)).1 hx
    refine ⟨fun hx ↦ ?_, fun o _ hv f hf href hx ↦ ?_⟩
    · obtain ⟨f, hf, hx⟩ := mem_memberRefsIn.mp hx
      rcases hover.mem_or_mem hf with hmem | ⟨value, hvalue⟩
      · exact .inlined hinlined hacyclic (ihbase.1 (mem_memberRefsIn.mpr ⟨f, hmem, hx⟩))
      · exact (hmember f hf value hvalue hx).leaves
    · obtain rfl := Json.object.inj hv
      rcases hover.mem_or_mem hf with hmem | ⟨value, hvalue⟩
      · exact .inlined hinlined hacyclic (ihbase.2 base rfl rfl f hmem href hx)
      · exact hmember f hf value hvalue hx
  | @replaced top fields reference target body v href hroot hname hbody hcyclic h hobject ih =>
    have hinlined : InlinedTo T fields target body := ⟨⟨reference, href, hroot, hname⟩, hbody⟩
    have hacyclic : target ∉ T.cyclic := hcyclic.resolve_left (by rw [htop]; exact Bool.noConfusion)
    refine ⟨fun hx ↦ .inlined hinlined hacyclic ((ih rfl (hV.target hnode hinlined)).1 hx), ?_⟩
    exact fun out _ hv ↦ absurd hobject (by rw [hv]; exact Bool.noConfusion)

end Survey

/-! ## The walk rewrites -/

/-- Nothing was reported. -/
def Clean (walk : RefWalk) : Prop :=
  walk.issues.unresolved = false ∧ walk.issues.oversized = false

theorem Pays.clean {walk walk' : RefWalk} (h : Pays walk walk' n) (hclean : Clean walk') :
    Clean walk := by
  refine ⟨Bool.eq_false_iff.mpr fun hu ↦ ?_, Bool.eq_false_iff.mpr fun ho ↦ ?_⟩
  · exact Bool.eq_false_iff.mp hclean.1 (h.unresolved hu)
  · exact Bool.eq_false_iff.mp hclean.2 (h.oversized ho)

theorem spend_of_clean {walk walk' : RefWalk} (h : walk.spend n = (false, walk')) :
    ¬Clean walk' := by
  rcases walk.spend_cases n with ⟨-, heq⟩ | ⟨-, heq⟩
  · cases heq.symm.trans h
  · obtain ⟨-, rfl⟩ := Prod.mk.inj (heq.symm.trans h)
    exact fun hclean ↦ Bool.noConfusion hclean.2

def Named (T : RefTable) (walk walk' : RefWalk) (left : String → Prop) : Prop :=
  ∀ name, Owed T walk' name →
    Owed T walk name ∨ left name ∨ ∃ f ∈ walk'.kept, LeftIn .schema f.2 name

theorem Named.refl {T : RefTable} {walk : RefWalk} {left : String → Prop} :
    Named T walk walk left := fun _ ↦ .inl

theorem Named.of_owed {T : RefTable} {walk walk' : RefWalk} {left : String → Prop}
    (h : ∀ name, Owed T walk' name → Owed T walk name) : Named T walk walk' left :=
  fun name hname ↦ .inl (h name hname)

theorem Named.trans {T : RefTable} {walk walk₁ walk₂ : RefWalk} {left₁ left₂ left : String → Prop}
    (h₁ : Named T walk walk₁ left₁) (h₂ : Named T walk₁ walk₂ left₂)
    (hkept : ∀ f ∈ walk₁.kept, f ∈ walk₂.kept)
    (hleft₁ : ∀ name, left₁ name → left name) (hleft₂ : ∀ name, left₂ name → left name) :
    Named T walk walk₂ left := by
  intro name hname
  rcases h₂ name hname with h | h | h
  · rcases h₁ name h with h | h | ⟨f, hf, h⟩
    · exact .inl h
    · exact .inr (.inl (hleft₁ name h))
    · exact .inr (.inr ⟨f, hkept f hf, h⟩)
  · exact .inr (.inl (hleft₂ name h))
  · exact .inr (.inr h)

/-- What a call that reported nothing has done. The last part assumes `A`, that no reference is lost
to a sibling. -/
structure Outcome (T : RefTable) (V : Reading → Json → Prop) (A : Prop) (top : Bool) (r : Reading)
    (node v : Json) (walk walk' : RefWalk) : Prop where
  moves : Moves T V walk walk'
  rewrites : ∀ S, (∀ name, Owed T walk' name → S name) → Rewrites T S top r node v
  named : A → Named T walk walk' (LeftIn r v)

def Rewriting (T : RefTable) (V : Reading → Json → Prop) (A : Prop) (rec : Resolver) : Prop :=
  ∀ ⦃r node walk v walk'⦄, rec node walk = some (v, walk') → V r node →
    (isObject node = true → r = .schema) → Orderly walk → Clean walk' →
      Outcome T V A false r node v walk walk'

section Run

variable {T : RefTable} {V : Reading → Json → Prop} {A : Prop} {rec : Resolver}
  {walk walk' : RefWalk}

/-- A loop lays its results over what it starts from. -/
theorem outcome_resolveEach {member : String → Resolver}
    (R : (String → Prop) → String → Json → Json → Prop) (left : String → Json → String → Prop)
    (hrun : resolveEach member fields base walk = some (out, walk'))
    (hdistinct : (fields.map Prod.fst).Nodup) (hbase : (base.map Prod.fst).Nodup)
    (horderly : Orderly walk) (hclean : Clean walk')
    (hback : ∀ f ∈ fields, ∀ {walk v walk'}, member f.1 f.2 walk = some (v, walk') →
      Clean walk' → Clean walk)
    (hmember : ∀ f ∈ fields, ∀ {walk v walk'}, member f.1 f.2 walk = some (v, walk') →
      Orderly walk → Clean walk' → Moves T V walk walk' ∧
        (∀ S, (∀ name, Owed T walk' name → S name) → R S f.1 f.2 v) ∧
          (A → Named T walk walk' (left f.1 v))) :
    Moves T V walk walk' ∧ Overlaid base fields out ∧
      (∀ S, (∀ name, Owed T walk' name → S name) →
        ∀ k v x, (k, v) ∈ fields → (k, x) ∈ out → R S k v x) ∧
      (A → Named T walk walk' fun name ↦
        ∃ f ∈ out, f.1 ∈ fields.map Prod.fst ∧ left f.1 f.2 name) := by
  refine resolveEach_rule (I := fun done out walk₁ ↦ Clean walk₁ →
    Moves T V walk walk₁ ∧ Overlaid base done out ∧
      (∀ S, (∀ name, Owed T walk₁ name → S name) →
        ∀ k v x, (k, v) ∈ done → (k, x) ∈ out → R S k v x) ∧
      (A → Named T walk walk₁ fun name ↦
        ∃ f ∈ out, f.1 ∈ done.map Prod.fst ∧ left f.1 f.2 name)) hrun ?_ ?_ hclean
  · intro _
    refine ⟨.refl horderly, ⟨fun k ↦ ?_, hbase, fun f hf _ ↦ hf⟩, fun S _ k v x hk ↦ ?_,
      fun _ ↦ .refl⟩
    · rw [map_nil, or_iff_left not_mem_nil]
    · exact absurd hk not_mem_nil
  · intro done key value rest out walk₁ v walk₂ hsplit hI hcall hclean₂
    have hmem : (key, value) ∈ fields := by
      rw [hsplit]
      exact mem_append_right _ mem_cons_self
    -- the key is new, since the entries have different keys
    have hnew : key ∉ done.map Prod.fst := by
      rw [hsplit, map_append, map_cons, nodup_append] at hdistinct
      exact fun hkey ↦ hdistinct.2.2 key hkey key mem_cons_self rfl
    have ⟨hmoves, hover, hR, hnamed⟩ := hI (hback _ hmem hcall hclean₂)
    have ⟨hmoves₂, hR₂, hnamed₂⟩ := hmember _ hmem hcall hmoves.orderly hclean₂
    have hput : ∀ f, f ∈ insertField key v out ↔ f = (key, v) ∨ f ∈ out ∧ f.1 ≠ key := fun f ↦
      mem_insertField_iff hover.nodup
    have hdone : ∀ k, k ∈ (done ++ [(key, value)]).map Prod.fst ↔
        k ∈ done.map Prod.fst ∨ k = key := by
      intro k
      rw [map_append, mem_append, map_singleton, mem_singleton]
    refine ⟨hmoves.trans hmoves₂, ⟨fun k ↦ ?_, nodup_keys_insertField hover.nodup, ?_⟩, ?_, ?_⟩
    · rw [mem_keys_insertField, hover.keys, hdone]
      tauto
    · intro f hf hnot
      rw [hdone, not_or] at hnot
      rcases (hput f).mp hf with rfl | ⟨hf, -⟩
      · exact absurd rfl hnot.2
      · exact hover.kept f hf hnot.1
    · intro S hS k w x hk hx
      rcases mem_append.mp hk with hk | hk
      · have hkey : k ≠ key := fun heq ↦ hnew (heq ▸ mem_map_of_mem hk)
        rcases (hput _).mp hx with heq | ⟨hx, -⟩
        · exact absurd (congrArg Prod.fst heq) hkey
        · exact hR S (fun name hname ↦ hS name (hmoves₂.owed hname)) k w x hk hx
      · obtain ⟨rfl, rfl⟩ := Prod.mk.inj (mem_singleton.mp hk)
        rcases (hput _).mp hx with heq | ⟨-, hne⟩
        · rw [(Prod.mk.inj heq).2]
          exact hR₂ S hS
        · exact absurd rfl hne
    · intro hA
      refine (hnamed hA).trans (hnamed₂ hA) hmoves₂.kept ?_ ?_
      · rintro name ⟨f, hf, hkey, hleft⟩
        exact ⟨f, (hput f).mpr (.inr ⟨hf, fun heq ↦ hnew (heq ▸ hkey)⟩),
          (hdone _).mpr (.inl hkey), hleft⟩
      · intro name hleft
        exact ⟨(key, v), (hput _).mpr (.inl rfl), (hdone _).mpr (.inr rfl), hleft⟩

theorem outcome_resolveItems (hpay : Paying rec) (hrec : Rewriting T V A rec)
    {items out : List Json} (hrun : resolveItems rec items walk = some (out, walk'))
    (hV : ∀ v ∈ items, V .schema v)
    (horderly : Orderly walk) (hclean : Clean walk') (r : Reading) :
    Outcome T V A false r (.array items) (.array out) walk walk' := by
  have hloop : Moves T V walk walk' ∧ out.length = items.length ∧
      (∀ S, (∀ name, Owed T walk' name → S name) →
        ∀ p ∈ items.zip out, Rewrites T S false .schema p.1 p.2) ∧
      (A → Named T walk walk' fun name ↦ ∃ v ∈ out, LeftIn .schema v name) := by
    refine resolveItems_rule (I := fun done out walk₁ ↦ Clean walk₁ →
      Moves T V walk walk₁ ∧ out.length = done.length ∧
        (∀ S, (∀ name, Owed T walk₁ name → S name) →
          ∀ p ∈ done.zip out, Rewrites T S false .schema p.1 p.2) ∧
        (A → Named T walk walk₁ fun name ↦ ∃ v ∈ out, LeftIn .schema v name)) hrun ?_ ?_ hclean
    · exact fun _ ↦ ⟨.refl horderly, rfl, fun S _ p hp ↦ absurd hp not_mem_nil, fun _ ↦ .refl⟩
    · intro done item rest out walk₁ v walk₂ hsplit hI hcall hclean₂
      have hmem : item ∈ items := by
        rw [hsplit]
        exact mem_append_right _ mem_cons_self
      have ⟨hmoves, hlength, hR, hnamed⟩ := hI ((hpay.pays hcall).clean hclean₂)
      have hitem := hrec hcall (hV item hmem) (fun _ ↦ rfl) hmoves.orderly hclean₂
      refine ⟨hmoves.trans hitem.moves, ?_, fun S hS p hp ↦ ?_, fun hA ↦ ?_⟩
      · rw [length_append, length_append, hlength]
        rfl
      · rw [zip_append hlength.symm] at hp
        rcases mem_append.mp hp with hp | hp
        · exact hR S (fun name hname ↦ hS name (hitem.moves.owed hname)) p hp
        · obtain rfl := mem_singleton.mp hp
          exact hitem.rewrites S hS
      · refine (hnamed hA).trans (hitem.named hA) hitem.moves.kept ?_ ?_
        · rintro name ⟨w, hw, hleft⟩
          exact ⟨w, mem_append_left _ hw, hleft⟩
        · exact fun name hleft ↦ ⟨v, mem_append_right _ (mem_singleton.mpr rfl), hleft⟩
  have ⟨hmoves, hlength, hR, hnamed⟩ := hloop
  refine ⟨hmoves, fun S hS ↦ .array hlength (hR S hS), fun hA ↦ ?_⟩
  exact (hnamed hA).trans .refl (fun _ ↦ id)
    (fun _ ⟨v, hv, hleft⟩ ↦ mem_itemRefsIn.mpr ⟨v, hv, hleft⟩) fun _ ↦ id

theorem owed_of_spend {walk₁ : RefWalk} {b : Bool} (hspend : walk.spend n = (b, walk₁))
    (name : String) : Owed T walk₁ name → Owed T walk name := by
  rcases walk.spend_cases n with ⟨-, heq⟩ | ⟨-, heq⟩
  all_goals
    obtain ⟨-, rfl⟩ := Prod.mk.inj (heq.symm.trans hspend)
    exact id

theorem Outcome.of_spend {top : Bool} {r : Reading} {node v : Json} {walk₁ : RefWalk} {b : Bool}
    (horderly : Orderly walk) (hspend : walk.spend n = (b, walk₁))
    (h : Orderly walk₁ → Outcome T V A top r node v walk₁ walk') :
    Outcome T V A top r node v walk walk' := by
  have hmoves : Moves T V walk walk₁ := .spend horderly hspend
  have h := h hmoves.orderly
  refine ⟨hmoves.trans h.moves, h.rewrites, fun hA ↦ ?_⟩
  have hnone : Named T walk walk₁ (LeftIn r v) := .of_owed (owed_of_spend hspend)
  exact hnone.trans (h.named hA) h.moves.kept (fun _ ↦ id) fun _ ↦ id

structure MemberRewrites (T : RefTable) (S : String → Prop) (key : String) (value v : Json) :
    Prop where
  literal : keywordReading key = none → v = value
  read : ∀ r, keywordReading key = some r → Rewrites T S false r value v

theorem outcome_resolveSchemaMap (hsurvey : Survey T V) (hpay : Paying rec)
    (hrec : Rewriting T V A rec) {node v : Json}
    (hrun : resolveSchemaMap rec node walk = some (v, walk')) (hV : V .names node)
    (horderly : Orderly walk) (hclean : Clean walk') :
    Outcome T V A false .names node v walk walk' := by
  by_cases hobject : isObject node = true
  · obtain ⟨fields, rfl⟩ := exists_object hobject
    rw [resolveSchemaMap.eq_def] at hrun
    rcases hspend : walk.spend 1 with ⟨- | -, walk₁⟩
    · rw [hspend] at hrun
      obtain ⟨-, rfl⟩ := Prod.mk.inj (Option.some.inj hrun)
      exact absurd hclean (spend_of_clean hspend)
    rw [hspend] at hrun
    obtain ⟨⟨out, walk₂⟩, heach, heq⟩ := Option.map_eq_some_iff.mp hrun
    obtain ⟨rfl, rfl⟩ := Prod.mk.inj heq
    refine .of_spend horderly hspend fun horderly ↦ ?_
    obtain ⟨hmoves, hover, hR, hnamed⟩ := outcome_resolveEach (T := T) (V := V) (A := A)
      (fun S _ value v ↦ Rewrites T S false .schema value v) (fun _ v name ↦ LeftIn .schema v name)
      heach (hsurvey.distinct hV) nodup_nil horderly hclean
      (fun f _ {_ _ _} hcall ↦ (hpay.pays hcall).clean)
      fun f hf {_ _ _} hcall horderly hclean ↦ by
        have hmember := hrec hcall (hsurvey.named hV hf) (fun _ ↦ rfl) horderly hclean
        exact ⟨hmember.moves, hmember.rewrites, hmember.named⟩
    refine ⟨hmoves, fun S hS ↦ .names hover (hR S hS), fun hA ↦ ?_⟩
    refine (hnamed hA).trans .refl (fun _ ↦ id) ?_ fun _ ↦ id
    rintro _ ⟨f, hf, -, hleft⟩
    exact mem_namedRefsIn.mpr ⟨f, hf, hleft⟩
  · have hnot : isObject node = false := Bool.eq_false_iff.mpr hobject
    rw [resolveSchemaMap_of_not_object hnot] at hrun
    exact hrec hrun hV (fun h ↦ absurd h hobject) horderly hclean

theorem outcome_resolveMember (hsurvey : Survey T V) (hpay : Paying rec)
    (hrec : Rewriting T V A rec) {value v : Json}
    (hrun : resolveMember rec key value walk = some (v, walk')) (href : key ≠ "$ref")
    (hdefs : key ≠ "$defs") (hV : ∀ r, keywordReading key = some r → V r value)
    (horderly : Orderly walk) (hclean : Clean walk') :
    Moves T V walk walk' ∧
      (∀ S, (∀ name, Owed T walk' name → S name) → MemberRewrites T S key value v) ∧
      (A → Named T walk walk' fun name ↦ pointerTo name ∈ memberRefs key v) := by
  -- a keyword that is read keeps what reading its value gives
  have hread : ∀ r, keywordReading key = some r → Outcome T V A false r value v walk walk' →
      Moves T V walk walk' ∧
        (∀ S, (∀ name, Owed T walk' name → S name) → MemberRewrites T S key value v) ∧
        (A → Named T walk walk' fun name ↦ pointerTo name ∈ memberRefs key v) := by
    intro r hr h
    refine ⟨h.moves, fun S hS ↦ ⟨fun hnone ↦ ?_, fun r' hr' ↦ ?_⟩, fun hA ↦ ?_⟩
    · cases hr.symm.trans hnone
    · obtain rfl := Option.some.inj (hr.symm.trans hr')
      exact h.rewrites S hS
    · rw [memberRefs_of_reading href hdefs hr]
      exact h.named hA
  rw [resolveMember] at hrun
  rcases hkind : keywordValue key with - | - | - | - | -
  case literal =>
    rw [hkind] at hrun
    have hnone : keywordReading key = none := by rw [keywordReading, hkind]
    rcases hspend : walk.spend (countNodes value) with ⟨- | -, walk₁⟩
    · simp only [hspend] at hrun
      obtain ⟨-, rfl⟩ := Prod.mk.inj (Option.some.inj hrun)
      exact absurd hclean (spend_of_clean hspend)
    simp only [hspend] at hrun
    obtain ⟨rfl, rfl⟩ := Prod.mk.inj (Option.some.inj hrun)
    refine ⟨.spend horderly hspend, fun S _ ↦ ⟨fun _ ↦ rfl, fun r hr ↦ ?_⟩, fun _ ↦ ?_⟩
    · cases hnone.symm.trans hr
    · exact .of_owed (owed_of_spend hspend)
  case subschemaMap =>
    rw [hkind] at hrun
    have hr : keywordReading key = some .names := by rw [keywordReading, hkind]
    exact hread _ hr (outcome_resolveSchemaMap hsurvey hpay hrec hrun (hV _ hr) horderly hclean)
  all_goals
    rw [hkind] at hrun
    have hr : keywordReading key = some .schema := by rw [keywordReading, hkind]
    exact hread _ hr (hrec hrun (hV _ hr) (fun _ ↦ rfl) horderly hclean)

theorem outcome_resolveMembers (hsurvey : Survey T V) (hpay : Paying rec)
    (hrec : Rewriting T V A rec) {members : List (String × Json)}
    (hrun : resolveEach (resolveMember rec) members base walk = some (out, walk'))
    (hV : V .schema (.object fields)) (hsub : members.Sublist fields)
    (hkeys : ∀ f ∈ members, f.1 ≠ "$ref" ∧ f.1 ≠ "$defs") (hbase : (base.map Prod.fst).Nodup)
    (horderly : Orderly walk) (hclean : Clean walk') :
    Moves T V walk walk' ∧ Overlaid base members out ∧
      (∀ S, (∀ name, Owed T walk' name → S name) →
        ∀ k v x, (k, v) ∈ members → (k, x) ∈ out → MemberRewrites T S k v x) ∧
      (A → Named T walk walk' fun name ↦
        ∃ f ∈ out, f.1 ∈ members.map Prod.fst ∧ pointerTo name ∈ memberRefs f.1 f.2) := by
  refine outcome_resolveEach (MemberRewrites T) (fun key v name ↦ pointerTo name ∈ memberRefs key v)
    hrun ((hsurvey.distinct hV).sublist (hsub.map Prod.fst)) hbase horderly hclean
    (fun f hf {_ _ _} hcall ↦ (Pays.of_resolveMember hpay (hkeys f hf).2 hcall).clean)
    fun f hf {_ _ _} hcall horderly hclean ↦ ?_
  have ⟨href, hdefs⟩ := hkeys f hf
  exact outcome_resolveMember hsurvey hpay hrec hcall href hdefs
    (fun r hr ↦ hsurvey.member hV (hsub.subset hf) href hdefs hr) horderly hclean

theorem Orderly.start (h : Orderly walk) (name : String) : Orderly (walk.start name) :=
  ⟨fun f hf ↦ mem_cons_of_mem name (h.started f hf), h.nodup⟩

theorem outcome_keep (hrec : Rewriting T V A rec) {name : String} {body : Json}
    (hrun : keep rec name body walk = some walk') (hV : V .schema body) (hcyclic : name ∈ T.cyclic)
    (hbody : T.defs.get name = some body) (horderly : Orderly walk) (hclean : Clean walk') :
    Moves T V walk walk' ∧ name ∈ walk'.started ∧ (A → Named T walk walk' (· = name)) := by
  rw [keep] at hrun
  split_ifs at hrun with hstarted
  · obtain rfl := Option.some.inj hrun
    exact ⟨.refl horderly, hstarted, fun _ ↦ .refl⟩
  obtain ⟨⟨resolved, walk₁⟩, hcall, rfl⟩ := Option.map_eq_some_iff.mp hrun
  have hout := hrec hcall hV (fun _ ↦ rfl) (horderly.start name) hclean
  refine ⟨.keep horderly hstarted hcyclic hbody hV hout.moves hout.rewrites,
    hout.moves.started name mem_cons_self, fun hA n hn ↦ ?_⟩
  rw [Moves.kept_insertKept horderly hstarted hout.moves]
  -- what the body owes it names itself, or one of the definitions below it does
  rcases hout.named hA n hn with howed | hleft | ⟨f, hf, hleft⟩
  · rcases howed with hstart | hroot
    · rcases mem_cons.mp hstart with rfl | hstart
      · exact .inr (.inl rfl)
      · exact .inl (.inl hstart)
    · exact .inl (.inr hroot)
  · exact .inr (.inr ⟨_, mem_append_right _ (mem_singleton.mpr rfl), hleft⟩)
  · exact .inr (.inr ⟨f, mem_append_left _ hf, hleft⟩)

/-- A reference stays or is inlined. -/
theorem outcome_resolveRefTarget (hsurvey : Survey T V) (hrec : Rewriting T V A rec)
    {reference : String} {top : Bool} {v : Json} (href : stringRef fields = some reference)
    (hrun : resolveRefTarget T rec reference top walk = some (v, walk'))
    (hV : V .schema (.object fields)) (horderly : Orderly walk) (hclean : Clean walk') :
    (∃ name, v = referenceTo name ∧ Moves T V walk walk' ∧
      (∀ S, (∀ name, Owed T walk' name → S name) →
        Origin T S fields [("$ref", pointerTo name)] (siblings fields)) ∧
      (A → Named T walk walk' (· = name))) ∨
    (∃ name body, reference ≠ "#" ∧ definitionNamed reference = some name ∧
      T.defs.get name = some body ∧ (top = true ∨ name ∉ T.cyclic) ∧
      Outcome T V A false .schema body v walk walk') := by
  rw [resolveRefTarget] at hrun
  split_ifs at hrun with hroot
  · subst hroot
    obtain ⟨rfl, rfl⟩ := Prod.mk.inj (Option.some.inj hrun)
    refine .inl ⟨T.rootName, rfl, .of_eq horderly rfl rfl fun _ ↦ rfl, fun S hS ↦ ?_,
      fun _ n hn ↦ ?_⟩
    · exact .root href (hS _ (.inr ⟨rfl, rfl⟩))
    · exact hn.imp .inl fun hn ↦ .inl hn.2
  rcases hname : definitionNamed reference with - | name
  · rw [hname] at hrun
    obtain ⟨-, rfl⟩ := Prod.mk.inj (Option.some.inj hrun)
    exact Bool.noConfusion hclean.1
  rw [hname] at hrun
  rcases hbody : T.defs.get name with - | body
  · simp only [hbody] at hrun
    obtain ⟨-, rfl⟩ := Prod.mk.inj (Option.some.inj hrun)
    exact Bool.noConfusion hclean.1
  simp only [hbody] at hrun
  have hVbody : V .schema body := hsurvey.target hV ⟨⟨reference, href, hroot, hname⟩, hbody⟩
  split_ifs at hrun with hcyclic
  · obtain ⟨walk₁, hkeep, heq⟩ := Option.map_eq_some_iff.mp hrun
    obtain ⟨rfl, rfl⟩ := Prod.mk.inj heq
    obtain ⟨hmoves, hstarted, hnamed⟩ :=
      outcome_keep hrec hkeep hVbody hcyclic.1 hbody horderly hclean
    exact .inl ⟨name, rfl, hmoves, fun S hS ↦
      .cyclic href hroot hname hbody hcyclic.1 (hS name (.inl hstarted)), hnamed⟩
  · refine .inr ⟨name, body, hroot, rfl, hbody, ?_,
      hrec hrun hVbody (fun _ ↦ rfl) horderly hclean⟩
    rw [not_and_or, Bool.not_eq_false] at hcyclic
    exact hcyclic.symm

/-- The names left in an object laid over another one, if no sibling replaces a reference. -/
theorem outcome_resolveRefNode (hsurvey : Survey T V) (hpay : Paying rec)
    (hrec : Rewriting T V A rec) {reference : String} {top : Bool} {v : Json}
    (href : stringRef fields = some reference)
    (hrun : resolveRefNode T rec reference fields top walk = some (v, walk'))
    (hV : V .schema (.object fields)) (hapart : A → SiblingsApart T top fields)
    (horderly : Orderly walk) (hclean : Clean walk') :
    Outcome T V A top .schema (.object fields) v walk walk' := by
  rcases htarget : resolveRefTarget T rec reference top walk with - | ⟨resolved, walk₁⟩
  · rw [resolveRefNode, htarget] at hrun
    cases hrun
  by_cases hobject : isObject resolved = true
  · obtain ⟨base, rfl⟩ := exists_object hobject
    rw [resolveRefNode, htarget] at hrun
    obtain ⟨⟨out, walk₂⟩, heach, heq⟩ := Option.map_eq_some_iff.mp hrun
    obtain ⟨rfl, rfl⟩ := Prod.mk.inj heq
    have hkeys : ∀ f ∈ siblings fields, f.1 ≠ "$ref" ∧ f.1 ≠ "$defs" := fun f hf ↦
      (mem_siblings.mp hf).2
    have hclean₁ : Clean walk₁ := by
      obtain ⟨n, hpays, -⟩ := Pays.of_resolveEach memberNodes walkMembers_insertField_le heach
        fun f hf {_ _ _} ↦ Pays.of_resolveMember hpay (hkeys f hf).2
      exact hpays.clean hclean
    have hmembers := fun (hbase : (base.map Prod.fst).Nodup) (horderly : Orderly walk₁) ↦
      outcome_resolveMembers (A := A) hsurvey hpay hrec heach hV filter_sublist hkeys hbase
        horderly hclean
    rcases outcome_resolveRefTarget hsurvey hrec href htarget hV horderly hclean₁ with
      ⟨name, hv, hmoves, horigin, hnamed⟩ | ⟨name, body, hroot, hname, hbody, hcyclic, hout⟩
    · obtain rfl := Json.object.inj hv
      obtain ⟨hmoves₂, hover, hR, hnamed₂⟩ := hmembers (nodup_singleton _) hmoves.orderly
      refine ⟨hmoves.trans hmoves₂, fun S hS ↦ ?_, fun hA ↦ ?_⟩
      · exact .object (horigin S fun n hn ↦ hS n (hmoves₂.owed hn)) hover
          (fun k v x hk hx ↦ (hR S hS k v x hk hx).literal)
          fun k v x r hk hx ↦ (hR S hS k v x hk hx).read r
      · refine (hnamed hA).trans (hnamed₂ hA) hmoves₂.kept ?_ ?_
        · -- the reference itself is not replaced: no sibling is a `$ref`
          rintro n rfl
          have hmem : "$ref" ∈ out.map Prod.fst := (hover.keys _).mpr (.inl mem_cons_self)
          obtain ⟨f, hf, hkey⟩ := mem_map.mp hmem
          have hnot : f.1 ∉ (siblings fields).map Prod.fst := fun h ↦
            (not_defs_of_mem_keys_siblings h).1 hkey
          have hbase := mem_singleton.mp (hover.kept f hf hnot)
          refine mem_memberRefsIn.mpr ⟨f, hf, ?_⟩
          rw [hbase, memberRefs_ref]
          exact mem_cons_self
        · rintro n ⟨f, hf, -, hleft⟩
          exact mem_memberRefsIn.mpr ⟨f, hf, hleft⟩
    · have hinlined : InlinedTo T fields name body := ⟨⟨reference, href, hroot, hname⟩, hbody⟩
      have hnodup := (hout.rewrites _ fun _ ↦ id).nodup rfl
      obtain ⟨hmoves₂, hover, hR, hnamed₂⟩ := hmembers hnodup hout.moves.orderly
      refine ⟨hout.moves.trans hmoves₂, fun S hS ↦ ?_, fun hA ↦ ?_⟩
      · exact .inlined href hroot hname hbody hcyclic
          (hout.rewrites S fun n hn ↦ hS n (hmoves₂.owed hn)) hover
          (fun k v x hk hx ↦ (hR S hS k v x hk hx).literal)
          fun k v x r hk hx ↦ (hR S hS k v x hk hx).read r
      · refine (hout.named hA).trans (hnamed₂ hA) hmoves₂.kept ?_ ?_
        · -- what the target leaves stays: no sibling replaces it
          intro n hleft
          obtain ⟨f, hf, hx⟩ := mem_memberRefsIn.mp hleft
          have hnot : f.1 ∉ (siblings fields).map Prod.fst := by
            intro hkey
            have hleaves := @Rewrites.leaves _ _ _ hsurvey _ _ _ _ (hout.rewrites _ fun _ ↦ id) rfl
              (hsurvey.target hV hinlined) n
            exact hapart hA name body hinlined hcyclic f.1 hkey n
              (hleaves.2 base rfl rfl f hf (not_defs_of_mem_keys_siblings hkey).1 hx)
          obtain ⟨g, hg, hkey⟩ :=
            mem_map.mp ((hover.keys f.1).mpr (.inl (mem_map_of_mem hf)))
          have hgbase := hover.kept g hg (hkey ▸ hnot)
          have hsame : g = f := inj_on_of_nodup_map hnodup hgbase hf hkey
          exact mem_memberRefsIn.mpr ⟨f, hsame ▸ hg, hx⟩
        · rintro n ⟨f, hf, -, hleft⟩
          exact mem_memberRefsIn.mpr ⟨f, hf, hleft⟩
  · have hnot : isObject resolved = false := Bool.eq_false_iff.mpr hobject
    rw [resolveRefNode_of_not_object htarget hnot] at hrun
    obtain ⟨rfl, rfl⟩ := Prod.mk.inj (Option.some.inj hrun)
    rcases outcome_resolveRefTarget hsurvey hrec href htarget hV horderly hclean with
      ⟨name, rfl, -⟩ | ⟨name, body, hroot, hname, hbody, hcyclic, hout⟩
    · cases hnot
    · exact ⟨hout.moves, fun S hS ↦
        .replaced href hroot hname hbody hcyclic (hout.rewrites S hS) hnot, hout.named⟩

/-- **One layer of the walk rewrites.** -/
theorem rewriting_resolveNode (hsurvey : Survey T V) (hpay : Paying rec)
    (hrec : Rewriting T V A rec)
    (hapart : A → ∀ fields, V .schema (.object fields) → SiblingsApart T false fields) :
    Rewriting T V A (resolveNode T rec) := by
  intro r node walk v walk' hrun hV hr horderly hclean
  rw [resolveNode] at hrun
  rcases hspend : walk.spend 1 with ⟨- | -, walk₁⟩
  · rw [hspend] at hrun
    obtain ⟨-, rfl⟩ := Prod.mk.inj (Option.some.inj hrun)
    exact absurd hclean (spend_of_clean hspend)
  rw [hspend] at hrun
  refine .of_spend horderly hspend fun horderly ↦ ?_
  rcases node with - | b | n | s | items | fields
  case array =>
    obtain ⟨⟨out, walk₂⟩, hitems, heq⟩ := Option.map_eq_some_iff.mp hrun
    obtain ⟨rfl, rfl⟩ := Prod.mk.inj heq
    exact outcome_resolveItems hpay hrec hitems (fun v hv ↦ hsurvey.item hV hv) horderly hclean r
  case object =>
    obtain rfl := hr rfl
    rcases href : stringRef fields with - | reference
    · simp only [href] at hrun
      obtain ⟨⟨out, walk₂⟩, heach, heq⟩ := Option.map_eq_some_iff.mp hrun
      obtain ⟨rfl, rfl⟩ := Prod.mk.inj heq
      have hkeys : ∀ f ∈ keywords fields, f.1 ≠ "$ref" ∧ f.1 ≠ "$defs" := by
        intro f hf
        obtain ⟨hmem, hdefs⟩ := mem_keywords.mp hf
        exact ⟨fun heq ↦ hsurvey.strings hV href (heq ▸ mem_map_of_mem hmem), hdefs⟩
      obtain ⟨hmoves, hover, hR, hnamed⟩ := outcome_resolveMembers (A := A) hsurvey hpay hrec heach
        hV filter_sublist hkeys nodup_nil horderly hclean
      refine ⟨hmoves, fun S hS ↦ ?_, fun hA ↦ ?_⟩
      · exact .object (.plain href) hover (fun k v x hk hx ↦ (hR S hS k v x hk hx).literal)
          fun k v x r hk hx ↦ (hR S hS k v x hk hx).read r
      · refine (hnamed hA).trans .refl (fun _ ↦ id) ?_ fun _ ↦ id
        rintro _ ⟨f, hf, _, hleft⟩
        exact mem_memberRefsIn.mpr ⟨f, hf, hleft⟩
    · simp only [href] at hrun
      exact outcome_resolveRefNode hsurvey hpay hrec href hrun hV (fun hA ↦ hapart hA fields hV)
        horderly hclean
  all_goals
    obtain ⟨rfl, rfl⟩ := Prod.mk.inj (Option.some.inj hrun)
    exact ⟨.refl horderly, fun _ _ ↦ .scalar rfl (by rintro _ ⟨⟩), fun _ ↦ .refl⟩

end Run

theorem rewriting_resolve {T : RefTable} {V : Reading → Json → Prop} {A : Prop}
    (hsurvey : Survey T V)
    (hapart : A → ∀ fields, V .schema (.object fields) → SiblingsApart T false fields) (n : ℕ) :
    Rewriting T V A (resolve T n) := by
  induction n with
  | zero => exact fun _ _ _ _ _ hrun ↦ nomatch hrun
  | succ n ih => exact rewriting_resolveNode hsurvey (paying_resolve T n) ih hapart

theorem outcome_resolveDocument {T : RefTable} {V : Reading → Json → Prop} {A : Prop}
    {schema v : Json} {walk walk' : RefWalk} (hsurvey : Survey T V) (hV : V .schema schema)
    (hapart : A → ∀ fields, V .schema (.object fields) → SiblingsApart T false fields)
    (htop : A → ∀ fields, schema = .object fields → SiblingsApart T true fields)
    (hrun : resolveDocument T n schema walk = some (v, walk')) (horderly : Orderly walk)
    (hclean : Clean walk') : ∃ top, Outcome T V A top .schema schema v walk walk' := by
  have hrec := rewriting_resolve hsurvey hapart n
  rcases resolveRoot_cases T schema walk with hroot |
    ⟨fields, reference, walk₁, rfl, href, ⟨hspend, hroot⟩ | ⟨hspend, hroot⟩⟩
  all_goals rw [resolveDocument, hroot] at hrun
  · exact ⟨false, hrec hrun hV (fun _ ↦ rfl) horderly hclean⟩
  · obtain ⟨-, rfl⟩ := Prod.mk.inj (Option.some.inj hrun)
    exact absurd hclean (spend_of_clean hspend)
  · exact ⟨true, .of_spend horderly hspend fun horderly ↦
      outcome_resolveRefNode hsurvey (paying_resolve T n) hrec href hrun hV
        (fun hA ↦ htop hA fields rfl) horderly hclean⟩

end WaferRun.Discovery
