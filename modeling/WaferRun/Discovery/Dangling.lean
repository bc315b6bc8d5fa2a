import WaferRun.Discovery.Hoisting

/-!
# Dangling references

A reference `#/$defs/X` of a schema that defines no `X` is rewritten to `#/components/schemas/X`.
It stays dangling as long as no other schema is given the key `X`; what is first given a key is
settled by the naming rule alone (`Served`), before anything is rewritten.
`staysDangling_iff` says that nothing else matters.
-/

open Option

namespace WaferRun.Discovery

variable {H : HoistTools} {c c' : Components} {d : Document}

/-! ## The naming rule -/

/-- What asks for a key: a definition or a referenced root of one of the schemas. -/
structure Request where
  schema : ℕ
  base : String
  identity : Json

namespace Request

/-- A key may be given if nothing holds it but the same definition. -/
def Admits (held : List (String × Request)) (q : Request) (key : String) : Prop :=
  ∀ other, held.lookup key = some other → other.identity.equal q.identity = true

def Takes (H : HoistTools) (held : List (String × Request)) (q : Request) (key : String) : Prop :=
  ∃ salt, key = tried H q.identity q.base salt ∧ q.Admits held key ∧
    ∀ s < salt, ¬q.Admits held (tried H q.identity q.base s)

theorem Takes.unique {held : List (String × Request)} {q : Request} {key key' : String}
    (h : q.Takes H held key) (h' : q.Takes H held key') : key = key' := by
  obtain ⟨salt, rfl, hfree, hbelow⟩ := h
  obtain ⟨salt', rfl, hfree', hbelow'⟩ := h'
  rcases Nat.lt_trichotomy salt salt' with hlt | rfl | hlt
  · exact absurd hfree (hbelow' salt hlt)
  · rfl
  · exact absurd hfree' (hbelow salt' hlt)

end Request

/-- Note the holder of a key that was given, if it has none yet. -/
def grant (held : List (String × Request)) (key : String) (q : Request) :
    List (String × Request) :=
  if (held.lookup key).isSome then held else held ++ [(key, q)]

/-- Who holds which key after these requests, one after the other. -/
def Served (H : HoistTools) :
    List Request → List (String × Request) → List (String × Request) → Prop
  | [], held, final => final = held
  | q :: qs, held, final => ∃ key, q.Takes H held key ∧ Served H qs (grant held key q) final

/-- The requests of the `i`th schema. -/
def requests (H : HoistTools) (i : ℕ) (schema : Json) : List Request :=
  let d := document schema
  d.table.map (fun e ↦ ⟨i, H.componentKey e.1, d.componentIdentity e.2⟩) ++
    if d.rootReferenced then
      [⟨i, H.componentKey (rootTitle schema), d.componentIdentity d.rootBody⟩]
    else []

/-- The requests of all schemas, counted from `i`. -/
def allRequests (H : HoistTools) : ℕ → List Json → List Request
  | _, [] => []
  | i, schema :: schemas => requests H i schema ++ allRequests H (i + 1) schemas

theorem lookup_grant (held : List (String × Request)) (key k : String) (q : Request) :
    (grant held key q).lookup k = (held.lookup k).or (if k = key then some q else none) := by
  unfold grant
  split_ifs with hsome heq heq
  · obtain ⟨other, hother⟩ := isSome_iff_exists.mp hsome
    rw [heq, hother, some_or]
  · exact (or_none).symm
  · rw [lookup_append_singleton, if_pos heq]
  · rw [lookup_append_singleton, if_neg heq]

namespace Served

variable {qs qs' : List Request} {held mid final : List (String × Request)} {q : Request}
  {key : String}

theorem append (h : Served H qs held mid) (h' : Served H qs' mid final) :
    Served H (qs ++ qs') held final := by
  induction qs generalizing held with
  | nil => exact (show mid = held from h) ▸ h'
  | cons q qs ih =>
    obtain ⟨key, htakes, hrest⟩ := h
    exact ⟨key, htakes, ih hrest⟩

theorem unique {final' : List (String × Request)} (h : Served H qs held final)
    (h' : Served H qs held final') : final = final' := by
  induction qs generalizing held with
  | nil => exact Eq.trans h (Eq.symm h')
  | cons q qs ih =>
    obtain ⟨key, htakes, hrest⟩ := h
    obtain ⟨key', htakes', hrest'⟩ := h'
    obtain rfl := htakes.unique htakes'
    exact ih hrest hrest'

theorem keeps (h : Served H qs held final) (hkey : held.lookup key = some q) :
    final.lookup key = some q := by
  induction qs generalizing held with
  | nil => exact (show final = held from h) ▸ hkey
  | cons _ qs ih =>
    obtain ⟨given, -, hrest⟩ := h
    refine ih hrest ?_
    rw [lookup_grant, hkey, some_or]

theorem asked (h : Served H qs held final) (hfree : held.lookup key = none)
    (hkey : final.lookup key = some q) : q ∈ qs := by
  induction qs generalizing held with
  | nil =>
    rw [show final = held from h, hfree] at hkey
    exact absurd hkey nofun
  | cons first qs ih =>
    obtain ⟨given, -, hrest⟩ := h
    have hgrant := lookup_grant held given key first
    rw [hfree, none_or] at hgrant
    split_ifs at hgrant with heq
    · rw [hrest.keeps hgrant] at hkey
      exact some.inj hkey ▸ List.mem_cons_self
    · exact List.mem_cons_of_mem _ (ih hrest hgrant)

end Served

theorem schema_of_mem_requests {i : ℕ} {schema : Json} {q : Request}
    (h : q ∈ requests H i schema) : q.schema = i := by
  rcases List.mem_append.mp h with h | h
  · obtain ⟨e, -, rfl⟩ := List.mem_map.mp h
    rfl
  · split_ifs at h
    · rw [List.mem_singleton.mp h]
    · exact absurd h List.not_mem_nil

/-! ## The first pass follows the rule -/

/-- The holders are those that the code keeps the identities of. -/
def Tracks (held : List (String × Request)) (published : List (String × Json))
    (pending : List Pending) : Prop :=
  ∀ key, (held.lookup key).map Request.identity = holder published pending key

theorem holder_append_singleton (published : List (String × Json)) (pending : List Pending)
    (p : Pending) (key : String) :
    holder published (pending ++ [p]) key =
      (holder published pending key).or (if key = p.key then some p.identity else none) := by
  rw [holder, holder, Option.or_assoc, List.find?_append, find?_key_cons, List.find?_nil,
    map_or]
  split_ifs <;> rfl

section Names

variable {held : List (String × Request)} {published : List (String × Json)}
  {pending pending' : List Pending} {name key : String} {body : Json}

theorem takes_of_freeKey {q : Request} (htracks : Tracks held published pending) {n salt : ℕ}
    (h : freeKey H (holder published pending) q.identity q.base n salt
      (tried H q.identity q.base salt) = some key)
    (hbelow : ∀ s < salt, ¬q.Admits held (tried H q.identity q.base s)) : q.Takes H held key := by
  induction n generalizing salt with
  | zero => cases h
  | succ n ih =>
    rw [freeKey] at h
    split_ifs at h with htaken
    · refine ih h fun s hs hadmits ↦ ?_
      rcases Nat.lt_succ_iff_lt_or_eq.mp hs with hlt | rfl
      · exact hbelow s hlt hadmits
      · obtain ⟨identity, hidentity, hother⟩ := (any_eq_true _ _).mp htaken
        rw [← htracks] at hidentity
        obtain ⟨other, hheld, rfl⟩ := map_eq_some_iff.mp hidentity
        rw [hadmits other hheld] at hother
        cases hother
    · obtain rfl := some.inj h
      refine ⟨salt, rfl, fun other hother ↦ ?_, hbelow⟩
      rw [← htracks, hother, map_some, any_some, Bool.not_eq_true',
        Bool.not_eq_false] at htaken
      exact htaken

theorem takes_of_nameFor (i : ℕ) (htracks : Tracks held published pending)
    (h : nameFor H d published pending name body = some (key, pending')) :
    let q : Request := ⟨i, H.componentKey name, d.componentIdentity body⟩
    q.Takes H held key ∧ Tracks (grant held key q) published pending' := by
  obtain ⟨given, hgiven, heq⟩ := map_eq_some_iff.mp h
  obtain ⟨rfl, rfl⟩ := Prod.mk.inj heq
  refine ⟨@takes_of_freeKey H held published pending _
    ⟨i, H.componentKey name, d.componentIdentity body⟩ htracks _ 0 hgiven fun s hs ↦
      absurd hs (Nat.not_lt_zero s), fun k ↦ ?_⟩
  rw [lookup_grant, map_or, htracks, holder_append_singleton]
  split_ifs <;> rfl

theorem served_nameAll (i : ℕ) {table : List (String × Json)} {defs : List (String × String)}
    (htracks : Tracks held published pending)
    (h : nameAll H d published table pending = some (defs, pending')) :
    ∃ final, Served H
      (table.map fun e ↦ ⟨i, H.componentKey e.1, d.componentIdentity e.2⟩) held final ∧
        Tracks final published pending' := by
  induction table generalizing held pending defs with
  | nil =>
    obtain ⟨-, rfl⟩ := Prod.mk.inj (some.inj h)
    exact ⟨held, rfl, htracks⟩
  | cons e table ih =>
    obtain ⟨⟨key, pending₁⟩, hname, h⟩ := bind_eq_some_iff.mp h
    obtain ⟨⟨defs₁, pending₂⟩, hrest, h⟩ := bind_eq_some_iff.mp h
    obtain ⟨-, rfl⟩ := Prod.mk.inj (some.inj h)
    obtain ⟨htakes, htracks₁⟩ := takes_of_nameFor i htracks hname
    obtain ⟨final, hserved, hfinal⟩ := ih htracks₁ hrest
    exact ⟨final, ⟨key, htakes, hserved⟩, hfinal⟩

theorem served_decideNames (i : ℕ) {schema : Json} {renames : Renames}
    (htracks : Tracks held published [])
    (h : decideNames H (document schema) (rootTitle schema) published = some (renames, pending)) :
    ∃ final, Served H (requests H i schema) held final ∧ Tracks final published pending := by
  obtain ⟨⟨defs, pending₁⟩, hdefs, h⟩ := bind_eq_some_iff.mp h
  obtain ⟨mid, hserved, hmid⟩ := served_nameAll i htracks hdefs
  dsimp only at h
  rw [requests]
  split_ifs at h with hroot
  · rw [if_pos hroot]
    obtain ⟨⟨key, pending₂⟩, hkey, h⟩ := bind_eq_some_iff.mp h
    obtain ⟨-, rfl⟩ := Prod.mk.inj (some.inj h)
    obtain ⟨htakes, hfinal⟩ := takes_of_nameFor i hmid hkey
    exact ⟨_, hserved.append (show Served H [_] mid _ from ⟨key, htakes, rfl⟩), hfinal⟩
  · rw [if_neg hroot]
    obtain ⟨-, rfl⟩ := Prod.mk.inj (some.inj h)
    exact ⟨mid, hserved.append (show Served H [] mid mid from rfl), hmid⟩

end Names

/-! ## Where a component comes from -/

/-- The schema, counted from `i`, whose hoisting puts a component under a key. -/
def publisher (H : HoistTools) (key : String) : ℕ → List Json → Components → Option ℕ
  | _, [], _ => none
  | i, schema :: schemas, c => (hoist H schema c).bind fun hoisted ↦
      if (hoisted.2.bodies.lookup key).isSome then some i
      else publisher H key (i + 1) schemas hoisted.2

def Components.Paired (c : Components) : Prop :=
  ∀ key, (c.bodies.lookup key).isSome = (c.published.lookup key).isSome

theorem served_hoist (i : ℕ) {schema : Json} {hoisted : Hoisted} {held : List (String × Request)}
    (htracks : Tracks held c.published []) (hpaired : c.Paired)
    (h : hoist H schema c = some (hoisted, c')) :
    ∃ final, Served H (requests H i schema) held final ∧ Tracks final c'.published [] ∧
      c'.Paired := by
  obtain ⟨⟨renames, pending⟩, hnames, heq⟩ := map_eq_some_iff.mp h
  obtain ⟨-, rfl⟩ := Prod.mk.inj heq
  obtain ⟨final, hserved, hfinal⟩ := served_decideNames i htracks hnames
  have hvacant : ∀ key, c.published.lookup key = none → c.bodies.lookup key = none := by
    intro key hkey
    have hnone := hpaired key
    rw [hkey, isSome_none] at hnone
    exact isSome_eq_false_iff.mp hnone |> isNone_iff_eq_none.mp
  have hspec := publish_spec renames pending c hvacant
  refine ⟨final, hserved, fun key ↦ ?_, fun key ↦ ?_⟩
  · rw [hfinal, ← (hspec key).1]
    exact (or_none).symm
  · rw [(hspec key).1, (hspec key).2, holder]
    have hbodies := hpaired key
    rcases hkey : c.published.lookup key with - | identity
    · rw [none_or, isSome_map, isSome_map]
    · rw [hkey] at hbodies
      rw [some_or]
      exact hbodies

theorem served_hoistAll {i : ℕ} {schemas : List Json} {results : List Hoisted}
    {held : List (String × Request)} (htracks : Tracks held c.published []) (hpaired : c.Paired)
    (h : hoistAll H schemas c = some (results, c')) :
    ∃ final, Served H (allRequests H i schemas) held final ∧ Tracks final c'.published [] ∧
      c'.Paired ∧ ∀ key, held.lookup key = none →
        (final.lookup key).map Request.schema = publisher H key i schemas c := by
  induction schemas generalizing i c held results with
  | nil =>
    obtain ⟨-, rfl⟩ := Prod.mk.inj (some.inj h)
    refine ⟨held, rfl, htracks, hpaired, fun key hkey ↦ ?_⟩
    rw [hkey]
    rfl
  | cons schema schemas ih =>
    obtain ⟨⟨hoisted, c₁⟩, hfirst, h⟩ := bind_eq_some_iff.mp h
    obtain ⟨⟨hoisteds, c₂⟩, hrest, h⟩ := bind_eq_some_iff.mp h
    obtain ⟨-, rfl⟩ := Prod.mk.inj (some.inj h)
    obtain ⟨mid, hmid, htracks₁, hpaired₁⟩ := served_hoist i htracks hpaired hfirst
    obtain ⟨final, hfinal, htracks₂, hpaired₂, hpublisher⟩ :=
      @ih c₁ (i + 1) hoisteds mid htracks₁ hpaired₁ hrest
    refine ⟨final, hmid.append hfinal, htracks₂, hpaired₂, fun key hkey ↦ ?_⟩
    have hbody : (c₁.bodies.lookup key).isSome = (mid.lookup key).isSome := by
      have hholder := htracks₁ key
      rw [holder, List.find?_nil, map_none, or_none] at hholder
      rw [hpaired₁ key, ← hholder, isSome_map]
    rw [publisher, hfirst, bind_some, hbody]
    rcases hholder : mid.lookup key with - | q
    · exact (hpublisher key hholder).trans (if_neg Bool.false_ne_true).symm
    · rw [hfinal.keeps hholder, map_some,
        schema_of_mem_requests (hmid.asked hkey hholder), if_pos (isSome_some)]

/-! ## Dangling references -/

def Dangles (schema : Json) (reference name : String) : Prop :=
  (∃ body ∈ (document schema).bodies, reference ∈ refStrings body) ∧
    definitionNamed reference = some name ∧ (document schema).table.lookup name = none

def StaysDangling (H : HoistTools) (schemas : List Json) (results : List Hoisted)
    (c : Components) : Prop :=
  ∀ (i : ℕ) schema hoisted reference name, schemas[i]? = some schema →
    results[i]? = some hoisted → Dangles schema reference name →
      ∀ rewritten, hoisted.renames.rewriteRef reference = some rewritten →
        ∀ key component, rewritten = componentRef key → c.resolve rewritten = some component →
          publisher H key 0 schemas .empty = some i

/-- By the naming rule, no other schema holds the key that a dangling reference spells. -/
def NoStranger (H : HoistTools) (schemas : List Json) : Prop :=
  ∀ final, Served H (allRequests H 0 schemas) [] final →
    ∀ (i : ℕ) schema reference name, schemas[i]? = some schema → Dangles schema reference name →
      ∀ q, final.lookup name = some q → q.schema = i

theorem componentRef_injective {key key' : String} (h : componentRef key = componentRef key') :
    key = key' := by
  have hlist := congrArg String.toList h
  rw [componentRef, componentRef, String.toList_ofList, String.toList_ofList] at hlist
  have hencoded := String.toList_injective (List.append_cancel_left hlist)
  have hdecoded := decodeRefName_encode key
  rw [hencoded, decodeRefName_encode] at hdecoded
  exact (some.inj hdecoded).symm

theorem rewriteRef_of_dangles {schema : Json} {hoisted : Hoisted} {reference name : String}
    (h : hoist H schema c = some (hoisted, c')) (hdangles : Dangles schema reference name) :
    hoisted.renames.rewriteRef reference = some (componentRef name) := by
  obtain ⟨-, hname, hmissing⟩ := hdangles
  obtain ⟨⟨renames, pending⟩, hnames, heq⟩ := map_eq_some_iff.mp h
  obtain ⟨rfl, -⟩ := Prod.mk.inj heq
  obtain ⟨⟨defs, pending₁⟩, hdefs, hroot⟩ := bind_eq_some_iff.mp hnames
  have hsame : renames.defs = defs := by
    dsimp only at hroot
    split_ifs at hroot
    · obtain ⟨_, -, hroot⟩ := bind_eq_some_iff.mp hroot
      rw [← (Prod.mk.inj (some.inj hroot)).1]
    · rw [← (Prod.mk.inj (some.inj hroot)).1]
  have hlookup : renames.defs.lookup name = none := by
    rcases hkey : renames.defs.lookup name with - | key
    · rfl
    · obtain ⟨v, hv⟩ := lookup_of_nameAll hdefs (hsame ▸ hkey)
      cases hmissing.symm.trans hv
  have hne : reference ≠ "#" := by
    rintro rfl
    have hnone : definitionNamed "#" = none := by decide
    cases hnone.symm.trans hname
  rw [Renames.rewriteRef, if_neg hne, hname, map_some, hlookup, getD_none]

theorem exists_hoist_of_hoistAll {schemas : List Json} {results : List Hoisted}
    (h : hoistAll H schemas c = some (results, c')) {i : ℕ} {schema : Json}
    (hi : schemas[i]? = some schema) :
    ∃ hoisted before after, results[i]? = some hoisted ∧
      hoist H schema before = some (hoisted, after) := by
  induction schemas generalizing i c results with
  | nil => exact absurd hi nofun
  | cons first schemas ih =>
    obtain ⟨⟨hoisted, c₁⟩, hfirst, h⟩ := bind_eq_some_iff.mp h
    obtain ⟨⟨hoisteds, c₂⟩, hrest, h⟩ := bind_eq_some_iff.mp h
    obtain ⟨rfl, rfl⟩ := Prod.mk.inj (some.inj h)
    rcases i with - | i
    · obtain rfl := some.inj hi
      exact ⟨hoisted, c, c₁, rfl, hfirst⟩
    · rw [List.getElem?_cons_succ] at hi ⊢
      exact ih hrest hi

/-- **When dangling references stay dangling**: exactly if the naming rule gives the names that they
spell to no other schema. -/
theorem staysDangling_iff (H : HoistTools) (schemas : List Json) (results : List Hoisted)
    (c : Components) (h : hoistAll H schemas .empty = some (results, c)) :
    StaysDangling H schemas results c ↔ NoStranger H schemas := by
  obtain ⟨final, hserved, htracks, hpaired, hpublisher⟩ :=
    @served_hoistAll H .empty c 0 schemas results [] (fun _ ↦ rfl) (fun _ ↦ rfl) h
  have hholder (key : String) : (c.bodies.lookup key).isSome = (final.lookup key).isSome := by
    have hkey := htracks key
    rw [holder, List.find?_nil, map_none, or_none] at hkey
    rw [hpaired key, ← hkey, isSome_map]
  constructor
  · intro hstays final' hserved' i schema reference name hi hdangles q hq
    obtain rfl := hserved.unique hserved'
    obtain ⟨hoisted, before, after, hresult, hhoist⟩ := exists_hoist_of_hoistAll h hi
    have hsome := hholder name
    rw [hq] at hsome
    obtain ⟨component, hcomponent⟩ := isSome_iff_exists.mp hsome
    have hfrom := hstays i schema hoisted reference name hi hresult hdangles _
      (rewriteRef_of_dangles hhoist hdangles) name component rfl
      ((resolve_componentRef c name).trans hcomponent)
    rw [← hpublisher name rfl, hq] at hfrom
    exact some.inj hfrom
  · intro hno i schema hoisted reference name hi hresult hdangles rewritten hrewritten key
      component hkey hcomponent
    obtain ⟨hoisted', before, after, hresult', hhoist⟩ := exists_hoist_of_hoistAll h hi
    obtain rfl := some.inj (hresult.symm.trans hresult')
    rw [rewriteRef_of_dangles hhoist hdangles] at hrewritten
    obtain rfl := componentRef_injective ((some.inj hrewritten).trans hkey)
    rw [hkey, resolve_componentRef] at hcomponent
    have hsome := hholder name
    rw [hcomponent] at hsome
    obtain ⟨q, hq⟩ := isSome_iff_exists.mp hsome.symm
    rw [← hpublisher name rfl, hq, map_some, hno final hserved i schema reference name hi
      hdangles q hq]

def parentSchema : Json :=
  .object [("properties", .object [("parent", .object [("$ref", .string "#/$defs/Node")])])]

theorem dangles_parentSchema : Dangles parentSchema "#/$defs/Node" "Node" := by
  refine ⟨⟨(document parentSchema).rootBody, List.mem_cons_self, ?_⟩, ?_, rfl⟩
  · decide +kernel
  · decide +kernel

/-- The `Node` of another schema is picked up. -/
theorem dangling_picks_up_stranger : ∃ results c,
    hoistAll sampleTools [listSchema, parentSchema] .empty = some (results, c) ∧
      ¬StaysDangling sampleTools [listSchema, parentSchema] results c := by
  have hrun : (hoistAll sampleTools [listSchema, parentSchema] .empty).any (fun r ↦
      r.1[1]?.any (fun h ↦ h.renames.rewriteRef "#/$defs/Node" = some (componentRef "Node")) &&
        (r.2.resolve (componentRef "Node")).isSome) = true := by
    decide +kernel
  have hpublisher : publisher sampleTools "Node" 0 [listSchema, parentSchema] .empty = some 0 := by
    decide +kernel
  obtain ⟨⟨results, c⟩, h, hrun⟩ := (any_eq_true _ _).mp hrun
  obtain ⟨hrewritten, hcomponent⟩ := Bool.and_eq_true_iff.mp hrun
  obtain ⟨hoisted, hhoisted, hrewritten⟩ := (any_eq_true _ _).mp hrewritten
  obtain ⟨component, hcomponent⟩ := isSome_iff_exists.mp hcomponent
  refine ⟨results, c, h, fun hstays ↦ ?_⟩
  have hfrom := hstays 1 parentSchema hoisted _ _ rfl hhoisted dangles_parentSchema _
    (of_decide_eq_true hrewritten) "Node" component rfl hcomponent
  rw [hpublisher] at hfrom
  exact absurd (some.inj hfrom) Nat.zero_ne_one

/-- Next to a schema without definitions the reference stays dangling. -/
theorem staysDangling_iff_parent : ∃ results c,
    hoistAll sampleTools [parentSchema, .object [("type", .string "string")]] .empty =
        some (results, c) ∧
      StaysDangling sampleTools [parentSchema, .object [("type", .string "string")]] results c := by
  have hrun : (hoistAll sampleTools
      [parentSchema, .object [("type", .string "string")]] .empty).isSome = true := by
    decide +kernel
  have hrequests : allRequests sampleTools 0
      [parentSchema, .object [("type", .string "string")]] = [] :=
    List.isEmpty_iff.mp (by decide +kernel)
  obtain ⟨⟨results, c⟩, h⟩ := isSome_iff_exists.mp hrun
  refine ⟨results, c, h, (staysDangling_iff sampleTools _ results c h).mpr ?_⟩
  intro final hserved i schema reference name hi hdangles q hq
  rw [hrequests] at hserved
  rw [show final = [] from hserved] at hq
  exact absurd hq nofun

end WaferRun.Discovery
