import WaferRun.Discovery.Hoist

/-!
# What an identity says

Two positions of two documents agree if the same stands at them and at all that they reach, target
by target (`Agree`). Schemas with the same identity agree (`agree_of_componentIdentity`). Rewriting
the references of a schema changes no step within it (`inner_rewrite`).
-/

open List Option

namespace WaferRun.Discovery

open Relation

/-! ## Pointers -/

theorem pointer_injective : Function.Injective LocalRef.pointer := by
  rintro (- | name) (- | name') h
  · rfl
  · exact absurd h.symm (pointer_ne_root name')
  · exact absurd h (pointer_ne_root name)
  · have hname := congrArg definitionNamed h
    rw [definitionNamed_pointer, definitionNamed_pointer] at hname
    rw [some.inj hname]

theorem hash_of_readLocalRef {reference : String} {t : LocalRef}
    (h : readLocalRef reference = some t) : ['#'] <+: reference.toList := by
  unfold readLocalRef at h
  split at h
  · rename_i hroot
    exact ⟨[], by rw [hroot]; rfl⟩
  · obtain ⟨name, hname, -⟩ := map_eq_some_iff.mp h
    unfold definitionNamed at hname
    split at hname
    · rename_i hprefix
      exact List.IsPrefix.trans (⟨_, rfl⟩ : ['#'] <+: defsPrefix) hprefix
    · exact absurd hname nofun

theorem resolve_componentRef (c : Components) (key : String) :
    c.resolve (componentRef key) = c.bodies.lookup key := by
  have htext : (componentRef key).toList = componentsPrefix ++ (encodeRefName key).toList :=
    String.toList_ofList
  rw [Components.resolve, htext, if_pos (prefix_append _ _), drop_left,
    String.ofList_toList, decodeRefName_encode, bind_some]

theorem resolve_of_not_hash (c : Components) {reference : String}
    (h : ¬['#'] <+: reference.toList) : c.resolve reference = none := by
  refine if_neg fun hprefix ↦ h ?_
  exact List.IsPrefix.trans (⟨_, rfl⟩ : ['#'] <+: componentsPrefix) hprefix

/-! ## Rewriting -/

def Renames.key? (renames : Renames) : LocalRef → Option String
  | .root => renames.root
  | .definition name => renames.defs.lookup name

theorem rewriteRef_of_key {renames : Renames} {reference key : String} {t : LocalRef}
    (ht : readLocalRef reference = some t) (hkey : renames.key? t = some key) :
    renames.rewriteRef reference = some (componentRef key) := by
  unfold readLocalRef at ht
  unfold Renames.rewriteRef
  split at ht
  · rename_i hroot
    obtain rfl := some.inj ht
    rw [if_pos hroot, show renames.root = some key from hkey]
    rfl
  · rename_i hroot
    obtain ⟨name, hname, rfl⟩ := map_eq_some_iff.mp ht
    rw [if_neg hroot, hname, map_some, show renames.defs.lookup name = some key from hkey]
    rfl

theorem rewriteRef_of_not_local {renames : Renames} {reference : String}
    (h : readLocalRef reference = none) : renames.rewriteRef reference = none := by
  unfold readLocalRef at h
  unfold Renames.rewriteRef
  split at h
  · exact absurd h nofun
  · rename_i hroot
    rw [if_neg hroot, map_eq_none_iff.mp h]
    rfl

def rewriteSchemaMember (renames : Renames) (key : String) (value : Json) : Json :=
  match if key = "$ref" then renames.rewriteRefValue value else none with
  | some reference => .string reference
  | none =>
    match keywordValue key, value with
    | .literal, value => value
    | .subschemaMap, .object members => .object (rewriteSchemaMap renames members)
    | _, value => rewriteLocalRefs renames value

theorem rewriteMembers_eq (renames : Renames) (fields : List (String × Json)) :
    rewriteMembers renames fields =
      fields.map fun f ↦ (f.1, rewriteSchemaMember renames f.1 f.2) := by
  induction fields with
  | nil => rfl
  | cons f fields ih =>
    obtain ⟨key, v⟩ := f
    rw [map_cons, ← ih]
    conv_lhs => unfold rewriteMembers
    rfl

theorem rewriteSchemaMap_eq (renames : Renames) (fields : List (String × Json)) :
    rewriteSchemaMap renames fields =
      fields.map fun f ↦ (f.1, rewriteLocalRefs renames f.2) := by
  induction fields with
  | nil => rfl
  | cons f fields ih =>
    obtain ⟨key, v⟩ := f
    rw [map_cons, ← ih]
    rfl

theorem rewriteItems_eq (renames : Renames) (items : List Json) :
    rewriteItems renames items = items.map (rewriteLocalRefs renames) := by
  induction items with
  | nil => rfl
  | cons v items ih =>
    rw [map_cons, ← ih]
    rfl

theorem lookup_map_key (fields : List (String × Json)) (f : String → Json → Json) (key : String) :
    (fields.map fun e ↦ (e.1, f e.1 e.2)).lookup key = (fields.lookup key).map (f key) := by
  induction fields with
  | nil => rfl
  | cons e fields ih =>
    obtain ⟨key', v⟩ := e
    rw [map_cons, lookup_cons, lookup_cons, ih]
    by_cases hkey : key = key'
    · subst hkey
      simp only [beq_self_eq_true, map_some]
    · simp only [beq_eq_false_iff_ne.mpr hkey]

namespace Position

def rewrite (renames : Renames) : Position → Position
  | .schema v => .schema (rewriteLocalRefs renames v)
  | .names fields => .names (rewriteSchemaMap renames fields)
  | .data v => .data v

theorem label_rewriteLocalRefs (renames : Renames) (v : Json) :
    (rewriteLocalRefs renames v).label = v.label := by
  rcases v with - | b | n | s | items | fields <;> rfl

theorem label_rewrite (renames : Renames) (p : Position) :
    (p.rewrite renames).value.label = p.value.label := by
  rcases p with v | fields | v
  · exact label_rewriteLocalRefs renames v
  · rfl
  · rfl

theorem lookup_rewriteMembers (renames : Renames) (fields : List (String × Json)) (key : String) :
    (rewriteMembers renames fields).lookup key =
      (fields.lookup key).map (rewriteSchemaMember renames key) := by
  rw [rewriteMembers_eq]
  exact lookup_map_key fields (rewriteSchemaMember renames) key

theorem behind_rewriteSchemaMember (renames : Renames) {key : String} (hkey : key ≠ "$ref")
    (v : Json) :
    behind key (rewriteSchemaMember renames key v) = (behind key v).rewrite renames := by
  unfold rewriteSchemaMember behind
  rw [if_neg hkey]
  rcases keywordValue key
  case subschemaMap => rcases v with - | b | n | s | items | fields <;> rfl
  all_goals rfl

theorem rewriteSchemaMember_ref (renames : Renames) (v : Json) :
    rewriteSchemaMember renames "$ref" v =
      match v with
      | .string r => .string ((renames.rewriteRef r).getD r)
      | v => rewriteLocalRefs renames v := by
  unfold rewriteSchemaMember
  rw [if_pos rfl]
  have hkind : keywordValue "$ref" = .other := by decide
  rw [hkind]
  rcases v with - | b | n | s | items | fields
  case string =>
    change (match renames.rewriteRef s with
      | some r => Json.string r
      | none => Json.string s) = Json.string ((renames.rewriteRef s).getD s)
    rcases renames.rewriteRef s with - | r <;> rfl
  all_goals rfl

theorem reference_rewrite (renames : Renames) (p : Position) :
    (p.rewrite renames).reference =
      p.reference.map fun r ↦ (renames.rewriteRef r).getD r := by
  rcases p with v | fields | v
  · rcases v with - | b | n | s | items | fields
    case object =>
      change stringRef (rewriteMembers renames fields) = (stringRef fields).map _
      rw [stringRef, lookup_rewriteMembers, stringRef]
      rcases fields.lookup "$ref" with - | v
      · rfl
      · rw [map_some, rewriteSchemaMember_ref]
        rcases v with - | b | n | s | items | fields <;> rfl
    all_goals rfl
  · rfl
  · rfl

/-- **Rewriting changes no step within a schema.** -/
theorem inner_rewrite (renames : Renames) (p : Position) (step : Step) :
    (p.rewrite renames).inner step = (p.inner step).map (rewrite renames) := by
  rcases p with v | fields | v
  · rcases v with - | b | n | s | items | fields
    case array =>
      rcases step with key | i
      · rfl
      · change ((rewriteItems renames items)[i]?).map Position.schema = _
        rw [rewriteItems_eq, List.getElem?_map, Position.inner, Option.map_map, Option.map_map]
        rfl
    case object =>
      rcases step with key | i
      · change (if key = "$ref" ∨ key = "$defs" then none
          else ((rewriteMembers renames fields).lookup key).map (behind key)) = _
        rw [Position.inner, lookup_rewriteMembers]
        split_ifs with hkey
        · rfl
        · rw [Option.map_map, Option.map_map]
          refine Option.map_congr fun v _ ↦ ?_
          exact behind_rewriteSchemaMember renames (fun h ↦ hkey (Or.inl h)) v
      · rfl
    all_goals rfl
  · rcases step with key | i
    · change ((rewriteSchemaMap renames fields).lookup key).map Position.schema = _
      rw [rewriteSchemaMap_eq, lookup_map_key fields fun _ ↦ rewriteLocalRefs renames,
        Position.inner, Option.map_map, Option.map_map]
      rfl
    · rfl
  · change (v.child step).map Position.data = ((v.child step).map Position.data).map _
    rw [Option.map_map]
    rfl

/-! ## What a position reaches -/

def refs (p : Position) : List LocalRef := p.refStrings.filterMap readLocalRef

theorem Alike.mem_refs {p q : Position} (h : p.Alike q) (hp : p.Distinct) (hq : q.Distinct)
    {t : LocalRef} (ht : t ∈ p.refs) : t ∈ q.refs := by
  obtain ⟨r, hr, hread⟩ := mem_filterMap.mp ht
  exact mem_filterMap.mpr ⟨r, h.mem_refStrings hp hq hr, hread⟩

theorem mem_refs_of_inner {p q : Position} (hp : p.Distinct) {step : Step}
    (h : p.inner step = some q) {t : LocalRef} (ht : t ∈ q.refs) : t ∈ p.refs := by
  obtain ⟨r, hr, hread⟩ := mem_filterMap.mp ht
  exact mem_filterMap.mpr ⟨r, (mem_refStrings_iff hp).mpr (Or.inr ⟨step, q, h, hr⟩), hread⟩

theorem mem_refs_of_reference {p : Position} (hp : p.Distinct) {r : String}
    (h : p.reference = some r) {t : LocalRef} (hread : readLocalRef r = some t) : t ∈ p.refs :=
  mem_filterMap.mpr ⟨r, (mem_refStrings_iff hp).mpr (Or.inl h), hread⟩

end Position

namespace Document

variable {d e f : Document} {p q r : Position} {t u : LocalRef} {v w : Json}

def Distinct (d : Document) : Prop := ∀ body ∈ d.bodies, KeysDistinct body

def Closed (d : Document) : Prop :=
  ∀ body ∈ d.bodies, ∀ reference ∈ refStrings body,
    ['#'] <+: reference.toList → (d.resolve reference).isSome = true

instance (d : Document) : Decidable d.Closed := by
  unfold Closed
  infer_instance

theorem mem_bodies (h : d.body t = some v) : v ∈ d.bodies := by
  rcases t with - | name
  · exact some.inj h ▸ mem_cons_self
  · obtain ⟨l, r, hsplit, -⟩ := lookup_eq_some_iff.mp h
    refine mem_cons_of_mem _ (List.mem_map.mpr ⟨(name, v), ?_, rfl⟩)
    rw [hsplit]
    exact mem_append_right _ mem_cons_self

theorem successors_eq (h : d.body t = some v) : d.successors t = (Position.schema v).refs := by
  rw [successors, h]
  exact collectLocalRefs_eq v

def Reaches (d : Document) (p : Position) (t : LocalRef) : Prop :=
  ∃ a ∈ p.refs, ReflTransGen (fun a b ↦ b ∈ d.successors a) a t

theorem Reaches.of_inner (hp : p.Distinct) {step : Step} (h : p.inner step = some q)
    (ht : d.Reaches q t) : d.Reaches p t :=
  ht.imp fun _ ⟨ha, hreach⟩ ↦ ⟨Position.mem_refs_of_inner hp h ha, hreach⟩

theorem Reaches.of_target (ht : t ∈ p.refs) (hv : d.body t = some v)
    (hu : d.Reaches (.schema v) u) : d.Reaches p u := by
  obtain ⟨a, ha, hreach⟩ := hu
  exact ⟨t, ht, .head (successors_eq hv ▸ ha) hreach⟩

theorem Reaches.exists_body (hd : d.Closed) (hv : v ∈ d.bodies)
    (h : d.Reaches (.schema v) t) : ∃ w, d.body t = some w := by
  have hrefs {v : Json} (hv : v ∈ d.bodies) {t : LocalRef} (ht : t ∈ (Position.schema v).refs) :
      ∃ w, d.body t = some w := by
    obtain ⟨r, hr, hread⟩ := mem_filterMap.mp ht
    have hsome := hd v hv r hr (hash_of_readLocalRef hread)
    rw [resolve, hread] at hsome
    exact isSome_iff_exists.mp hsome
  obtain ⟨a, ha, hreach⟩ := h
  induction hreach with
  | refl => exact hrefs hv ha
  | tail _ hstep ih =>
    obtain ⟨w, hw⟩ := ih
    exact hrefs (mem_bodies hw) (successors_eq hw ▸ hstep)

/-- The same stands at two positions and at all that they reach. -/
structure Agree (d e : Document) (p q : Position) : Prop where
  alike : p.Alike q
  targets : ∀ t, d.Reaches p t → ∃ v w, d.body t = some v ∧ e.body t = some w ∧ v.Alike w

theorem Agree.reaches (hd : d.Distinct) (he : e.Distinct) (hp : p.Distinct) (hq : q.Distinct)
    (h : Agree d e p q) (ht : d.Reaches p t) : e.Reaches q t := by
  obtain ⟨a, ha, hreach⟩ := ht
  refine ⟨a, h.alike.mem_refs hp hq ha, ?_⟩
  induction hreach with
  | refl => exact .refl
  | @tail b c hab hbc ih =>
    obtain ⟨v, w, hv, hw, hsame⟩ := h.targets b ⟨a, ha, hab⟩
    refine ih.tail ?_
    rw [successors_eq hv] at hbc
    rw [successors_eq hw]
    exact (Position.Alike.schema hsame).mem_refs (hd v (mem_bodies hv)) (he w (mem_bodies hw)) hbc

theorem Agree.trans (hd : d.Distinct) (he : e.Distinct) (hp : p.Distinct) (hq : q.Distinct)
    (h : Agree d e p q) (h' : Agree e f q r) : Agree d f p r := by
  refine ⟨h.alike.trans h'.alike, fun t ht ↦ ?_⟩
  obtain ⟨u, v, hu, hv, huv⟩ := h.targets t ht
  obtain ⟨v', w, hv', hw, hvw⟩ := h'.targets t (h.reaches hd he hp hq ht)
  obtain rfl := some.inj (hv.symm.trans hv')
  exact ⟨u, w, hu, hw, huv.trans hvw⟩

theorem Agree.refl (hd : d.Closed) (hv : v ∈ d.bodies) :
    Agree d d (.schema v) (.schema v) := by
  refine ⟨.schema (.refl v), fun t ht ↦ ?_⟩
  obtain ⟨w, hw⟩ := ht.exists_body hd hv
  exact ⟨w, w, hw, hw, .refl w⟩

theorem Agree.inner (hp : p.Distinct) (h : Agree d e p q) {step : Step} {p' : Position}
    (hstep : p.inner step = some p') : ∃ q', q.inner step = some q' ∧ Agree d e p' q' := by
  obtain ⟨q', hq', hsame⟩ := h.alike.inner hstep
  exact ⟨q', hq', hsame, fun t ht ↦ h.targets t (ht.of_inner hp hstep)⟩

theorem Agree.target (hp : p.Distinct) (h : Agree d e p q) {reference : String}
    (hreference : p.reference = some reference) (ht : readLocalRef reference = some t) :
    ∃ v w, d.body t = some v ∧ e.body t = some w ∧ Agree d e (.schema v) (.schema w) := by
  have hmem := Position.mem_refs_of_reference hp hreference ht
  obtain ⟨v, w, hv, hw, hsame⟩ := h.targets t ⟨t, hmem, .refl⟩
  exact ⟨v, w, hv, hw, .schema hsame, fun u hu ↦ h.targets u (hu.of_target hmem hv)⟩

/-! ## Identities -/

theorem mem_reached_iff : t ∈ d.reached v ↔ d.Reaches (.schema v) t := by
  have hclosed : ∀ k ∈ (collectLocalRefs v ++ d.bodies.flatMap collectLocalRefs).toFinset,
      ∀ a ∈ d.successors k,
        a ∈ (collectLocalRefs v ++ d.bodies.flatMap collectLocalRefs).toFinset := by
    intro k _ a ha
    rcases hk : d.body k with - | w
    · rw [successors, hk] at ha
      exact absurd ha not_mem_nil
    · rw [successors, hk] at ha
      exact List.mem_toFinset.mpr (mem_append_right _
        (mem_flatMap.mpr ⟨w, mem_bodies hk, ha⟩))
  have hfrontier : ∀ k ∈ collectLocalRefs v,
      k ∈ (collectLocalRefs v ++ d.bodies.flatMap collectLocalRefs).toFinset :=
    fun k hk ↦ List.mem_toFinset.mpr (mem_append_left _ hk)
  refine (Closure.mem_closure_iff hclosed hfrontier (Nat.lt_succ_self _)).trans ?_
  rw [collectLocalRefs_eq]
  exact Iff.rfl

theorem lookup_map_pointer (l : List LocalRef) (f : LocalRef → Json) (t : LocalRef) :
    (l.map fun t ↦ (t.pointer, f t)).lookup t.pointer = if t ∈ l then some (f t) else none := by
  induction l with
  | nil => rfl
  | cons u l ih =>
    rw [map_cons, lookup_cons, ih]
    by_cases htu : t = u
    · subst htu
      rw [beq_self_eq_true, if_pos mem_cons_self]
    · rw [beq_eq_false_iff_ne.mpr fun h ↦ htu (pointer_injective h)]
      exact if_congr (mem_cons.trans (or_iff_right htu)).symm rfl rfl

/-- **Schemas with the same identity agree.** -/
theorem agree_of_componentIdentity (hd : d.Closed) (he : e.Closed) (hv : v ∈ d.bodies)
    (hw : w ∈ e.bodies) (h : (d.componentIdentity v).Alike (e.componentIdentity w)) :
    Agree d e (.schema v) (.schema w) := by
  have hbody {step : Step} {v' : Json} (hv' : (d.componentIdentity v).child step = some v') :=
    h.child hv'
  obtain ⟨w', hw', hsame⟩ := @hbody (.key "body") v rfl
  obtain rfl : w = w' := some.inj hw'
  refine ⟨.schema hsame, fun t ht ↦ ?_⟩
  obtain ⟨target, htarget⟩ := ht.exists_body hd hv
  obtain ⟨reaches, hreaches, hall⟩ := @hbody (.key "reaches") _ rfl
  obtain rfl := some.inj hreaches
  have hlookup : (Json.object ((d.reached v).map fun t ↦
      (t.pointer, (d.body t).getD .null))).child (.key t.pointer) = some target := by
    change ((d.reached v).map fun t ↦ (t.pointer, (d.body t).getD .null)).lookup t.pointer = _
    rw [lookup_map_pointer _ fun t ↦ (d.body t).getD .null, if_pos (mem_reached_iff.mpr ht),
      htarget, getD_some]
  obtain ⟨other, hother, hsame'⟩ := hall.child hlookup
  change ((e.reached w).map fun t ↦ (t.pointer, (e.body t).getD .null)).lookup t.pointer = _
    at hother
  rw [lookup_map_pointer _ fun t ↦ (e.body t).getD .null] at hother
  obtain ⟨hreached, hother⟩ := ite_none_right_eq_some.mp hother
  obtain ⟨target', htarget'⟩ := (mem_reached_iff.mp hreached).exists_body he hw
  rw [htarget', getD_some] at hother
  exact ⟨target, target', htarget, htarget', some.inj hother ▸ hsame'⟩

theorem keysDistinct_componentIdentity (hd : d.Distinct) (hv : v ∈ d.bodies) :
    KeysDistinct (d.componentIdentity v) := by
  have hfields {l : List LocalRef} :
      FieldsDistinct (l.map fun t ↦ (t.pointer, (d.body t).getD .null)) := by
    induction l with
    | nil => trivial
    | cons t l ih =>
      refine ⟨?_, ih⟩
      rcases ht : d.body t with - | w
      · trivial
      · exact hd w (mem_bodies ht)
  have hkeys : ["body", "reaches"].Nodup := by decide
  refine ⟨hkeys, hd v hv, ⟨?_, hfields⟩, trivial⟩
  rw [List.map_map]
  exact (Closure.nodup_closure nodup_nil).map pointer_injective

end Document

end WaferRun.Discovery
