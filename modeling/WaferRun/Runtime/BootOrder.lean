import WaferRun.Runtime.ConfigExpand

/-!
# Boots of one deployment

A boot visits the configs, the flows and the maps of the flows in some order. If no two sources of
a pass contribute to each other or to one place differently, the order leaves no trace: every boot
of the deployment ends with the same configs, or with the same error (`boots_agree`).
-/

open List
open Option (bind_some elim_some isSome_iff_exists map_eq_some_iff map_some some_ne_none)

namespace WaferRun

open FirstWins

variable {configs configs' : Configs} {key : String} {v value : Json}

/-! ## Boots -/

structure BootOrder where
  keys : List String
  flows : List FlowDecl
  entries : List (String × Json)
  names : List String

namespace BootOrder

variable (D : Deployment) (o : BootOrder)

def expanded : Configs := D.expandCompositeConfigs o.keys D.configs

def routed : Configs := Deployment.expandDeclarativeFlowConfigs o.flows (o.expanded D)

/-- The configs after they have contributed to each other. -/
def gathered : Configs := D.gatherUsesConfigs o.entries (o.routed D)

def result : Except String Configs := D.keyBlockConfigsByTarget o.names (o.gathered D)

end BootOrder

structure Reordered (flow flow' : FlowDecl) : Prop where
  id : flow.id = flow'.id
  configMap : flow.configMap.Perm flow'.configMap
  configDefaults : flow.configDefaults.Perm flow'.configDefaults

structure Boot (D : Deployment) extends BootOrder where
  nodup_keys : keys.Nodup
  mem_keys : ∀ key, key ∈ keys ↔ (D.configs key).isSome ∧ (D.expanders key).isSome
  flow_order : ∃ flows', List.Forall₂ Reordered D.flows flows' ∧ flows'.Perm flows
  nodup_entries : (entries.map Prod.fst).Nodup
  mem_entries : ∀ name config,
    (name, config) ∈ entries ↔ toBootOrder.routed D name = some config
  nodup_names : names.Nodup
  mem_names : ∀ name, name ∈ names ↔ (toBootOrder.gathered D name).isSome

/-! ## When the order leaves no trace -/

def sourceOf (configs : Configs) (key : String) (parts : Json → List (String × Json)) :
    Source String String Json :=
  (key, ((configs key).elim [] parts).map contribution)

namespace Deployment

variable (D : Deployment)

def compositeParts (key : String) : Json → List (String × Json) :=
  (D.expanders key).getD fun _ ↦ []

def flowParts (flow : FlowDecl) (config : Json) : List (String × Json) :=
  flow.configDefaults ++ routed flow.configMap config

/-- No composite config has a part for another one, and no two have parts that disagree. -/
def CompositesSeparate : Prop :=
  ∀ key key', key ≠ key' → (D.configs key).isSome ∧ (D.expanders key).isSome →
    (D.configs key').isSome ∧ (D.expanders key').isSome →
    Separate D.configs.trees (sourceOf D.configs key (D.compositeParts key))
      (sourceOf D.configs key' (D.compositeParts key'))

/-- No flow routes its config to another one that takes part, no two disagree, and no flow routes
two keys to one place differently, unless its own defaults have settled it. -/
structure FlowsSeparate (configs : Configs) : Prop where
  separate : ∀ flow ∈ D.flows, ∀ flow' ∈ D.flows, flow.id ≠ flow'.id → eligible configs flow →
    eligible configs flow' → Separate configs.trees (sourceOf configs flow.id (flowParts flow))
      (sourceOf configs flow'.id (flowParts flow'))
  agree : ∀ flow ∈ D.flows, eligible configs flow → ∀ config, configs flow.id = some config →
    ∀ part ∈ routed flow.configMap config, ∀ part' ∈ routed flow.configMap config,
      Agree (contributeAll (Function.update configs.trees flow.id none)
        (flow.configDefaults.map contribution)) (contribution part) (contribution part')

def canonicalContribution (part : String × Json) : String × Tree String Json :=
  (D.canonicalize part.1, part.2.tree)

/-- No two configs contribute to one block differently, unless its own config has settled it. -/
def UsesAgree (configs : Configs) : Prop :=
  ∀ name config name' config', configs name = some config → configs name' = some config' →
    ∀ part ∈ uses config, ∀ part' ∈ uses config',
      Agree configs.trees (D.canonicalContribution part) (D.canonicalContribution part')

end Deployment

/-! ## Using up configs -/

def useConfig (configs : Configs) (key : String) (parts : Json → List (String × Json)) : Configs :=
  match configs key with
  | none => configs
  | some config => (parts config).foldl (fun configs part ↦ mergeInto configs part.1 part.2)
      (Function.update configs key none)

theorem trees_useConfig {parts : Json → List (String × Json)} (h : (configs key).isSome) :
    (useConfig configs key parts).trees = useUp configs.trees (sourceOf configs key parts) := by
  obtain ⟨config, hconfig⟩ := isSome_iff_exists.mp h
  rw [useConfig, hconfig, sourceOf, hconfig]
  dsimp only
  rw [trees_foldl_mergeInto, trees_update_none]
  rfl

theorem foldl_mergeInto_of_ne {parts : List (String × Json)} {name : String}
    (h : ∀ part ∈ parts, part.1 ≠ name) (configs : Configs) :
    parts.foldl (fun configs part ↦ mergeInto configs part.1 part.2) configs name =
      configs name := by
  induction parts generalizing configs with
  | nil => rfl
  | cons part parts ih =>
    obtain ⟨hpart, hparts⟩ := forall_mem_cons.mp h
    rw [foldl_cons, ih hparts, mergeInto, Function.update_of_ne hpart.symm]

theorem useConfig_of_ne {name : String} {parts : Json → List (String × Json)} (hne : name ≠ key)
    (h : ∀ c ∈ (sourceOf configs key parts).2, c.1 ≠ name) :
    useConfig configs key parts name = configs name := by
  rw [useConfig]
  rcases hconfig : configs key with - | config
  · rfl
  · dsimp only
    rw [foldl_mergeInto_of_ne, Function.update_of_ne hne]
    intro part hpart
    refine h (contribution part) (mem_map_of_mem ?_)
    rw [hconfig]
    exact hpart

/-- **Using up configs is using up their trees**, as long as the configs do not contribute to each
other. -/
theorem trees_foldl_useConfig {l : List (String × (Json → List (String × Json)))}
    (hsome : ∀ x ∈ l, (configs x.1).isSome)
    (hsep : (l.map fun x ↦ sourceOf configs x.1 x.2).Pairwise (Separate configs.trees)) :
    Configs.trees (l.foldl (fun configs x ↦ useConfig configs x.1 x.2) configs) =
      (l.map fun x ↦ sourceOf configs x.1 x.2).foldl useUp configs.trees := by
  induction l generalizing configs with
  | nil => rfl
  | cons x l ih =>
    obtain ⟨hx, hl⟩ := forall_mem_cons.mp hsome
    obtain ⟨hfirst, hrest⟩ := pairwise_cons.mp hsep
    have hstays : ∀ y ∈ l, useConfig configs x.1 x.2 y.1 = configs y.1 := by
      intro y hy
      have h := hfirst _ (mem_map_of_mem hy)
      exact useConfig_of_ne h.ne.symm h.left
    have hsources : (l.map fun y ↦ sourceOf (useConfig configs x.1 x.2) y.1 y.2) =
        l.map fun y ↦ sourceOf configs y.1 y.2 := by
      refine map_congr_left fun y hy ↦ ?_
      rw [sourceOf, sourceOf, hstays y hy]
    rw [foldl_cons, map_cons, foldl_cons, ← trees_useConfig hx, ih, hsources]
    · intro y hy
      rw [hstays y hy]
      exact hl y hy
    · rw [hsources, trees_useConfig hx]
      exact hrest.imp_of_mem fun hb _ h ↦ h.useUp (hfirst _ hb)

/-! ## The composite configs -/

section Composite

variable {D : Deployment}

theorem expandCompositeConfig_eq (h : (D.expanders key).isSome) :
    D.expandCompositeConfig configs key = useConfig configs key (D.compositeParts key) := by
  obtain ⟨expander, hexpander⟩ := isSome_iff_exists.mp h
  rw [Deployment.expandCompositeConfig, useConfig, Deployment.compositeParts, hexpander]
  rfl

theorem trees_expanded (b : Boot D) (hsep : D.CompositesSeparate) :
    (b.expanded D).trees =
      (b.keys.map fun key ↦ sourceOf D.configs key (D.compositeParts key)).foldl useUp
        D.configs.trees := by
  have hfold (keys : List String) (hkeys : ∀ key ∈ keys, (D.expanders key).isSome)
      (configs : Configs) : keys.foldl D.expandCompositeConfig configs =
        (keys.map fun key ↦ (key, D.compositeParts key)).foldl
          (fun configs x ↦ useConfig configs x.1 x.2) configs := by
    induction keys generalizing configs with
    | nil => rfl
    | cons key keys ih =>
      obtain ⟨hkey, hkeys⟩ := forall_mem_cons.mp hkeys
      rw [foldl_cons, expandCompositeConfig_eq hkey, ih hkeys]
      rfl
  rw [BootOrder.expanded, Deployment.expandCompositeConfigs,
    hfold b.keys fun key hkey ↦ ((b.mem_keys key).mp hkey).2, trees_foldl_useConfig]
  · rw [map_map]
    rfl
  · intro x hx
    obtain ⟨key, hkey, rfl⟩ := mem_map.mp hx
    exact ((b.mem_keys key).mp hkey).1
  · rw [map_map, pairwise_map]
    refine b.nodup_keys.imp_of_mem fun hkey hkey' hne ↦ ?_
    exact hsep _ _ hne ((b.mem_keys _).mp hkey) ((b.mem_keys _).mp hkey')

theorem trees_expanded_eq (hsep : D.CompositesSeparate) (b b' : Boot D) :
    (b.expanded D).trees = (b'.expanded D).trees := by
  have hperm : b.keys.Perm b'.keys := by
    refine (perm_ext_iff_of_nodup b.nodup_keys b'.nodup_keys).mpr fun key ↦ ?_
    rw [b.mem_keys, b'.mem_keys]
  rw [trees_expanded b hsep, trees_expanded b' hsep]
  refine foldl_useUp_perm (hperm.map _) ?_
  rw [pairwise_map]
  refine b.nodup_keys.imp_of_mem fun hkey hkey' hne ↦ ?_
  exact hsep _ _ hne ((b.mem_keys _).mp hkey) ((b.mem_keys _).mp hkey')

end Composite

/-! ## Values that are the same up to the order of keys -/

theorem cases_of_map_eq_map {α β : Type*} {f : α → β} {a b : Option α} (h : a.map f = b.map f) :
    (a = none ∧ b = none) ∨ ∃ x y, a = some x ∧ b = some y ∧ f x = f y := by
  rcases a with - | x <;> rcases b with - | y
  · exact .inl ⟨rfl, rfl⟩
  · cases h
  · cases h
  · exact .inr ⟨x, y, rfl, rfl, Option.some.inj h⟩

theorem node_get {w : Json} (h : v.tree = w.tree) (key : String) :
    (v.get key).map Json.tree = (w.get key).map Json.tree := by
  have hnode (path : List String) : v.tree.node (key :: path) = w.tree.node (key :: path) := by
    rw [h]
  simp only [node_tree_cons] at hnode
  rcases hv : v.get key with - | value <;> rcases hw : w.get key with - | value'
  · rfl
  · have := hnode []
    rw [hv, hw] at this
    cases this
  · have := hnode []
    rw [hv, hw] at this
    cases this
  · have htree : value.tree = value'.tree := by
      ext1
      funext path
      have := hnode path
      rwa [hv, hw] at this
    rw [map_some, map_some, htree]

theorem isSome_of_trees_eq (h : configs.trees = configs'.trees) (name : String) :
    (configs name).isSome = (configs' name).isSome := by
  obtain ⟨hc, hc'⟩ | ⟨config, config', hc, hc', -⟩ := cases_of_map_eq_map (congrFun h name)
  · rw [hc, hc']
  · rw [hc, hc']
    rfl

/-! ## The flows -/

theorem tree_singleton {value' : Json} (h : value.tree = value'.tree) (key : String) :
    (Json.object [(key, value)]).tree = (Json.object [(key, value')]).tree := by
  ext1
  funext path
  rcases path with - | ⟨key', path⟩
  · rfl
  · rw [node_tree_cons, node_tree_cons]
    change (List.lookup key' [(key, value)]).bind _ = (List.lookup key' [(key, value')]).bind _
    rw [lookup_cons, lookup_cons]
    rcases key' == key with - | -
    · rfl
    · rw [bind_some, bind_some, h]

theorem contribution_routed {configMap : List (String × ConfigMapEntry)} {config config' : Json}
    (h : config.tree = config'.tree) :
    (Deployment.routed configMap config).map contribution =
      (Deployment.routed configMap config').map contribution := by
  have hmapping (userKey : String) (mapping : ConfigMapEntry) :
      ((config.get userKey).map fun value ↦ (mapping.target, Json.object [(mapping.key, value)])).map
          contribution =
        ((config'.get userKey).map fun value ↦
          (mapping.target, Json.object [(mapping.key, value)])).map contribution := by
    obtain ⟨hv, hv'⟩ | ⟨value, value', hv, hv', htree⟩ := cases_of_map_eq_map (node_get h userKey)
    · rw [hv, hv']
    · rw [hv, hv', map_some, map_some, map_some, map_some, contribution,
        contribution, tree_singleton htree]
  rw [Deployment.routed, Deployment.routed, map_filterMap, map_filterMap]
  exact filterMap_congr fun x _ ↦ hmapping x.1 x.2

theorem sourceOf_eq (h : configs.trees = configs'.trees) (flow : FlowDecl) :
    sourceOf configs flow.id (Deployment.flowParts flow) =
      sourceOf configs' flow.id (Deployment.flowParts flow) := by
  rw [sourceOf, sourceOf]
  obtain ⟨hc, hc'⟩ | ⟨config, config', hc, hc', htree⟩ := cases_of_map_eq_map (congrFun h flow.id)
  · rw [hc, hc']
  · rw [hc, hc', elim_some, elim_some, Deployment.flowParts, Deployment.flowParts,
      map_append, map_append, contribution_routed htree]

theorem eligible_eq (h : configs.trees = configs'.trees) :
    Deployment.eligible configs = Deployment.eligible configs' := by
  funext flow
  rw [Deployment.eligible, Deployment.eligible, isSome_of_trees_eq h]

section Flows

variable {D : Deployment}

def flowSources (configs : Configs) (flows : List FlowDecl) : List (Source String String Json) :=
  (flows.filter (Deployment.eligible configs)).map fun flow ↦
    sourceOf configs flow.id (Deployment.flowParts flow)

theorem flowSources_eq (h : configs.trees = configs'.trees) (flows : List FlowDecl) :
    flowSources configs flows = flowSources configs' flows := by
  rw [flowSources, flowSources, eligible_eq h]
  exact map_congr_left fun flow _ ↦ sourceOf_eq h flow

theorem expandFlowConfig_eq (configs : Configs) (flow : FlowDecl) :
    Deployment.expandFlowConfig configs flow =
      useConfig configs flow.id (Deployment.flowParts flow) := rfl

theorem trees_expandDeclarativeFlowConfigs {flows : List FlowDecl}
    (hsep : (flowSources configs flows).Pairwise (Separate configs.trees)) :
    (Deployment.expandDeclarativeFlowConfigs flows configs).trees =
      (flowSources configs flows).foldl useUp configs.trees := by
  have hfold (flows : List FlowDecl) (configs : Configs) :
      flows.foldl Deployment.expandFlowConfig configs =
        (flows.map fun flow ↦ (flow.id, Deployment.flowParts flow)).foldl
          (fun configs x ↦ useConfig configs x.1 x.2) configs := by
    rw [foldl_map]
    rfl
  have hsources : flowSources configs flows =
      (((flows.filter (Deployment.eligible configs)).map fun flow ↦
        (flow.id, Deployment.flowParts flow)).map fun x ↦ sourceOf configs x.1 x.2) := by
    rw [map_map]
    rfl
  rw [Deployment.expandDeclarativeFlowConfigs, hfold, hsources, trees_foldl_useConfig]
  · intro x hx
    obtain ⟨flow, hflow, rfl⟩ := mem_map.mp hx
    exact (Bool.and_eq_true_iff.mp (mem_filter.mp hflow).2).2
  · rwa [← hsources]

theorem useUp_reordered (hsep : D.FlowsSeparate configs) {flow flow' : FlowDecl}
    (hflow : flow ∈ D.flows) (heligible : Deployment.eligible configs flow = true)
    (h : Reordered flow flow') :
    useUp configs.trees (sourceOf configs flow.id (Deployment.flowParts flow)) =
      useUp configs.trees (sourceOf configs flow'.id (Deployment.flowParts flow')) := by
  obtain ⟨config, hconfig⟩ := isSome_iff_exists.mp (Bool.and_eq_true_iff.mp heligible).2
  have hdefaults : contributeAll (Function.update configs.trees flow.id none)
      (flow.configDefaults.map contribution) = contributeAll
        (Function.update configs.trees flow.id none) (flow'.configDefaults.map contribution) := by
    refine contributeAll_perm (h.configDefaults.map _) fun c hc c' hc' heq ↦ ?_
    -- a map has one value for a key
    obtain ⟨part, hpart, rfl⟩ := mem_map.mp hc
    obtain ⟨part', hpart', rfl⟩ := mem_map.mp hc'
    have hsame : part = part' := inj_on_of_nodup_map flow.nodup_configDefaults hpart hpart' heq
    rw [hsame]
    intro p _ x y hx hy
    exact Option.some.inj (hx.symm.trans hy)
  have hrouted : ((Deployment.routed flow.configMap config).map contribution).Perm
      ((Deployment.routed flow'.configMap config).map contribution) :=
    (h.configMap.filterMap _).map _
  rw [useUp, useUp, sourceOf, sourceOf, ← h.id, hconfig]
  simp only [elim_some, Deployment.flowParts, map_append]
  rw [contributeAll, foldl_append, contributeAll, foldl_append]
  change contributeAll (contributeAll _ _) _ = contributeAll (contributeAll _ _) _
  rw [← hdefaults]
  refine contributeAll_perm hrouted fun c hc c' hc' ↦ ?_
  obtain ⟨part, hpart, rfl⟩ := mem_map.mp hc
  obtain ⟨part', hpart', rfl⟩ := mem_map.mp hc'
  exact hsep.agree flow hflow heligible config hconfig part hpart part' hpart'

theorem forall₂_eligible {flows flows' : List FlowDecl} (h : List.Forall₂ Reordered flows flows') :
    List.Forall₂ Reordered (flows.filter (Deployment.eligible configs))
      (flows'.filter (Deployment.eligible configs)) := by
  refine rel_filter (fun flow flow' h ↦ ?_) h
  have hempty : flow.configMap.isEmpty = flow'.configMap.isEmpty := by
    rw [Bool.eq_iff_iff, isEmpty_iff_length_eq_zero, isEmpty_iff_length_eq_zero,
      h.configMap.length_eq]
  simp only [Deployment.eligible, h.id, hempty]

theorem Reordered.sourceOf {flow flow' : FlowDecl} (h : Reordered flow flow') (configs : Configs) :
    (sourceOf configs flow.id (Deployment.flowParts flow)).1 =
        (sourceOf configs flow'.id (Deployment.flowParts flow')).1 ∧
      (sourceOf configs flow.id (Deployment.flowParts flow)).2.Perm
        (sourceOf configs flow'.id (Deployment.flowParts flow')).2 := by
  refine ⟨h.id, ?_⟩
  rw [WaferRun.sourceOf, WaferRun.sourceOf, h.id]
  refine List.Perm.map _ ?_
  rcases configs flow'.id with - | config
  · exact .nil
  · exact h.configDefaults.append (h.configMap.filterMap _)

theorem trees_routed (b : Boot D) (hsep : D.FlowsSeparate (b.expanded D)) :
    (b.routed D).trees =
      (flowSources (b.expanded D) D.flows).foldl useUp (b.expanded D).trees := by
  obtain ⟨flows', hreordered, hperm⟩ := b.flow_order
  have hpairwise : (flowSources (b.expanded D) D.flows).Pairwise
      (Separate (b.expanded D).trees) := by
    rw [flowSources, pairwise_map]
    have hids : (D.flows.filter (Deployment.eligible (b.expanded D))).Pairwise
        fun flow flow' ↦ flow.id ≠ flow'.id :=
      (pairwise_map.mp D.nodup_flows).sublist filter_sublist
    refine hids.imp_of_mem fun hflow hflow' hne ↦ ?_
    obtain ⟨hflow, heligible⟩ := mem_filter.mp hflow
    obtain ⟨hflow', heligible'⟩ := mem_filter.mp hflow'
    exact hsep.separate _ hflow _ hflow' hne heligible heligible'
  have hfiltered := @forall₂_eligible (b.expanded D) _ _ hreordered
  have hsources : List.Forall₂ (fun a b ↦ a.1 = b.1 ∧ a.2.Perm b.2)
      (flowSources (b.expanded D) D.flows) (flowSources (b.expanded D) flows') := by
    rw [flowSources, flowSources, forall₂_map_left_iff, forall₂_map_right_iff]
    exact hfiltered.imp fun _ _ h ↦ h.sourceOf (b.expanded D)
  have hpairwise' := pairwise_separate_of_perm hsources hpairwise
  have hsourcesPerm : (flowSources (b.expanded D) flows').Perm
      (flowSources (b.expanded D) b.flows) := (hperm.filter _).map _
  rw [BootOrder.routed, trees_expandDeclarativeFlowConfigs
    ((hsourcesPerm.pairwise_iff fun h ↦ h.symm).mp hpairwise'),
    ← foldl_useUp_perm hsourcesPerm hpairwise']
  refine (foldl_useUp_congr hsources (fun x y hxy ↦ ?_) hpairwise).symm
  rw [flowSources, flowSources, zip_map, mem_map] at hxy
  obtain ⟨⟨flow, flow'⟩, hzip, heq⟩ := hxy
  obtain ⟨hflow, heligible⟩ := mem_filter.mp (of_mem_zip hzip).1
  obtain ⟨rfl, rfl⟩ := Prod.mk.inj heq
  exact useUp_reordered hsep hflow heligible (forall₂_zip hfiltered hzip)

theorem Deployment.FlowsSeparate.of_trees_eq (hsep : D.FlowsSeparate configs)
    (h : configs.trees = configs'.trees) : D.FlowsSeparate configs' where
  separate flow hflow flow' hflow' hne heligible heligible' := by
    rw [← eligible_eq h] at heligible heligible'
    rw [← sourceOf_eq h, ← sourceOf_eq h, ← h]
    exact hsep.separate flow hflow flow' hflow' hne heligible heligible'
  agree flow hflow heligible config' hconfig' part hpart part' hpart' := by
    rw [← eligible_eq h] at heligible
    have hid := congrFun h flow.id
    rw [Configs.trees, Configs.trees, hconfig', map_some, map_eq_some_iff] at hid
    obtain ⟨config, hconfig, htree⟩ := hid
    have hsame := @contribution_routed flow.configMap _ _ htree
    have hfind {part : String × Json} (hpart : part ∈ Deployment.routed flow.configMap config') :
        ∃ part₀ ∈ Deployment.routed flow.configMap config,
          contribution part₀ = contribution part :=
      mem_map.mp (hsame ▸ mem_map_of_mem hpart)
    obtain ⟨part₀, hpart₀, heq⟩ := hfind hpart
    obtain ⟨part₀', hpart₀', heq'⟩ := hfind hpart'
    rw [← heq, ← heq', ← h]
    exact hsep.agree flow hflow heligible config hconfig part₀ hpart₀ part₀' hpart₀'

theorem trees_routed_eq {b b' : Boot D} (hsep : D.FlowsSeparate (b.expanded D))
    (h : (b.expanded D).trees = (b'.expanded D).trees) :
    (b.routed D).trees = (b'.routed D).trees := by
  rw [trees_routed b hsep, trees_routed b' (hsep.of_trees_eq h), flowSources_eq h, h]

end Flows

/-! ## The contributions of the configs -/

theorem mem_entries : (key, value) ∈ v.entries ↔ v.get key = some value := by
  rcases v with _ | _ | _ | _ | _ | fields
  case object =>
    rw [Json.entries, Json.get, mem_filterMap]
    constructor
    · rintro ⟨key', -, h⟩
      obtain ⟨value', hvalue, heq⟩ := map_eq_some_iff.mp h
      obtain ⟨rfl, rfl⟩ := Prod.mk.inj heq
      exact hvalue
    · intro h
      refine ⟨key, ?_, by rw [h]; rfl⟩
      rw [mem_dedup]
      by_contra hnot
      have hnone : fields.lookup key = none := by
        rw [lookup_eq_none_iff]
        intro field hfield
        rw [bne_iff_ne]
        rintro rfl
        exact hnot (mem_map_of_mem hfield)
      rw [hnone] at h
      cases h
  all_goals exact iff_of_false not_mem_nil (some_ne_none value ∘ Eq.symm)

theorem nodup_entries (v : Json) : (v.entries.map Prod.fst).Nodup := by
  rcases v with _ | _ | _ | _ | _ | fields
  case object =>
    rw [Json.entries, map_filterMap]
    have hkey (key k : String) (h : k ∈ ((fields.lookup key).map (key, ·)).map Prod.fst) :
        k = key := by
      rw [Option.map_map] at h
      obtain ⟨value, -, rfl⟩ := map_eq_some_iff.mp h
      rfl
    refine (nodup_dedup _).filterMap fun key key' k hk hk' ↦ ?_
    rw [← hkey key k hk, ← hkey key' k hk']
  all_goals exact nodup_nil

theorem mem_uses {config : Json} {target : String} :
    (target, value) ∈ Deployment.uses config ↔
      (config.get "uses").bind (Json.get · target) = some value := by
  rw [Deployment.uses]
  rcases config.get "uses" with - | v
  · exact iff_of_false not_mem_nil (some_ne_none value ∘ Eq.symm)
  · exact mem_entries

/-- The contributions with the configs that make them. -/
def namedUses (entries : List (String × Json)) :
    List ((String × String) × Tree String Json) :=
  entries.flatMap fun entry ↦
    (Deployment.uses entry.2).map fun part ↦ ((entry.1, part.1), part.2.tree)

theorem mem_namedUses {entries : List (String × Json)} {name target : String}
    {t : Tree String Json} : ((name, target), t) ∈ namedUses entries ↔
      ∃ config, (name, config) ∈ entries ∧
        ∃ value, (target, value) ∈ Deployment.uses config ∧ value.tree = t := by
  rw [namedUses, mem_flatMap]
  constructor
  · rintro ⟨⟨name', config⟩, hentry, h⟩
    obtain ⟨⟨target', value⟩, hpart, heq⟩ := mem_map.mp h
    obtain ⟨hkey, rfl⟩ := Prod.mk.inj heq
    obtain ⟨rfl, rfl⟩ := Prod.mk.inj hkey
    exact ⟨config, hentry, value, hpart, rfl⟩
  · rintro ⟨config, hentry, value, hpart, rfl⟩
    exact ⟨(name, config), hentry, mem_map.mpr ⟨(target, value), hpart, rfl⟩⟩

theorem nodup_namedUses {entries : List (String × Json)} (h : (entries.map Prod.fst).Nodup) :
    (namedUses entries).Nodup := by
  refine nodup_flatMap.mpr ⟨fun entry _ ↦ ?_, ?_⟩
  · refine List.Nodup.of_map (fun x ↦ x.1.2) ?_
    rw [map_map, Deployment.uses]
    rcases entry.2.get "uses" with - | v
    · exact nodup_nil
    · exact nodup_entries v
  · refine (pairwise_map.mp h).imp fun hne x hx hx' ↦ ?_
    obtain ⟨part, -, rfl⟩ := mem_map.mp hx
    obtain ⟨part', -, heq⟩ := mem_map.mp hx'
    exact hne (Prod.mk.inj (Prod.mk.inj heq).1).1.symm

theorem exists_uses_of_tree_eq {config config' : Json} (h : config.tree = config'.tree)
    {target : String} (hvalue : (target, value) ∈ Deployment.uses config) :
    ∃ value', (target, value') ∈ Deployment.uses config' ∧ value'.tree = value.tree := by
  obtain ⟨v, hv, hvalue⟩ := Option.bind_eq_some_iff.mp (mem_uses.mp hvalue)
  have huses := node_get h "uses"
  rw [hv, map_some, eq_comm, map_eq_some_iff] at huses
  obtain ⟨v', hv', htree⟩ := huses
  have htarget := node_get htree target
  rw [hvalue, map_some, map_eq_some_iff] at htarget
  obtain ⟨value', hvalue', htree'⟩ := htarget
  refine ⟨value', mem_uses.mpr ?_, htree'⟩
  rw [hv', bind_some, hvalue']

theorem node_tree_remove (v : Json) (key : String) (path : List String) :
    (v.remove key).tree.node path = if path.head? = some key then none else v.tree.node path := by
  rcases path with - | ⟨key', path⟩
  · rw [List.head?_nil, if_neg (by simp), node_tree_nil, node_tree_nil]
    rcases v with _ | _ | _ | _ | _ | fields <;> rfl
  · have hget : (v.remove key).get key' = if key' = key then none else v.get key' := by
      rcases v with _ | _ | _ | _ | _ | fields
      case object =>
        have hlookup := @lookup_filter_key fields (fun k ↦ k ≠ key) key'
        refine hlookup.trans ?_
        by_cases hkey : key' = key
        · rw [if_pos hkey, if_neg (by simpa using hkey)]
        · rw [if_neg hkey, if_pos (by simpa using hkey)]
          rfl
      all_goals split_ifs <;> rfl
    rw [node_tree_cons, node_tree_cons, hget, List.head?_cons]
    by_cases hkey : key' = key
    · rw [if_pos hkey, if_pos (congrArg some hkey)]
      rfl
    · rw [if_neg hkey, if_neg (hkey ∘ Option.some.inj)]

theorem tree_remove {v' : Json} (h : v.tree = v'.tree) (key : String) :
    (v.remove key).tree = (v'.remove key).tree := by
  ext1
  funext path
  rw [node_tree_remove, node_tree_remove, h]

theorem trees_remove (h : configs.trees = configs'.trees) (key : String) :
    Configs.trees (fun name ↦ (configs name).map fun config ↦ config.remove key) =
      Configs.trees fun name ↦ (configs' name).map fun config ↦ config.remove key := by
  funext name
  rw [Configs.trees, Configs.trees]
  obtain ⟨hc, hc'⟩ | ⟨config, config', hc, hc', htree⟩ := cases_of_map_eq_map (congrFun h name)
  · rw [hc, hc']
  · rw [hc, hc', map_some, map_some, map_some, map_some,
      tree_remove htree]

section Gather

variable {D : Deployment}

theorem trees_merged (entries : List (String × Json)) (configs : Configs) :
    Configs.trees ((entries.flatMap fun entry ↦ Deployment.uses entry.2).foldl
        (fun configs part ↦ mergeInto configs (D.canonicalize part.1) part.2) configs) =
      contributeAll configs.trees
        ((namedUses entries).map fun x ↦ (D.canonicalize x.1.2, x.2)) := by
  have hmap : (namedUses entries).map (fun x ↦ (D.canonicalize x.1.2, x.2)) =
      ((entries.flatMap fun entry ↦ Deployment.uses entry.2).map fun part ↦
        (D.canonicalize part.1, part.2)).map contribution := by
    rw [namedUses, map_flatMap, map_map, map_flatMap]
    simp only [map_map]
    rfl
  rw [hmap, ← trees_foldl_mergeInto, foldl_map]

/-- The configs may contribute in any order. -/
theorem trees_gathered_eq {b b' : Boot D} (hagree : D.UsesAgree (b.routed D))
    (h : (b.routed D).trees = (b'.routed D).trees) :
    (b.gathered D).trees = (b'.gathered D).trees := by
  have hsub {b b' : Boot D} (h : (b.routed D).trees = (b'.routed D).trees)
      {x : (String × String) × Tree String Json} (hx : x ∈ namedUses b.entries) :
      x ∈ namedUses b'.entries := by
    obtain ⟨⟨name, target⟩, t⟩ := x
    obtain ⟨config, hentry, value, hvalue, rfl⟩ := mem_namedUses.mp hx
    have hname := congrFun h name
    rw [Configs.trees, (b.mem_entries name config).mp hentry, map_some, eq_comm,
      Configs.trees, map_eq_some_iff] at hname
    obtain ⟨config', hconfig', htree⟩ := hname
    obtain ⟨value', hvalue', htree'⟩ := exists_uses_of_tree_eq htree.symm hvalue
    exact mem_namedUses.mpr
      ⟨config', (b'.mem_entries name config').mpr hconfig', value', hvalue', htree'⟩
  have hperm : (namedUses b.entries).Perm (namedUses b'.entries) :=
    (perm_ext_iff_of_nodup (nodup_namedUses b.nodup_entries)
      (nodup_namedUses b'.nodup_entries)).mpr fun x ↦ ⟨hsub h, hsub h.symm⟩
  have hpart {x : (String × String) × Tree String Json} (hx : x ∈ namedUses b.entries) :
      ∃ config, b.routed D x.1.1 = some config ∧ ∃ part ∈ Deployment.uses config,
        D.canonicalContribution part = (D.canonicalize x.1.2, x.2) := by
    obtain ⟨⟨name, target⟩, t⟩ := x
    obtain ⟨config, hentry, value, hvalue, rfl⟩ := mem_namedUses.mp hx
    exact ⟨config, (b.mem_entries name config).mp hentry, (target, value), hvalue, rfl⟩
  have hmerged := contributeAll_perm
    (hperm.map fun x ↦ (D.canonicalize x.1.2, x.2)) (s := (b.routed D).trees) <| by
    intro c hc c' hc'
    obtain ⟨x, hx, rfl⟩ := mem_map.mp hc
    obtain ⟨x', hx', rfl⟩ := mem_map.mp hc'
    obtain ⟨config, hconfig, part, hpart₁, heq⟩ := hpart hx
    obtain ⟨config', hconfig', part', hpart₁', heq'⟩ := hpart hx'
    rw [← heq, ← heq']
    exact hagree _ config _ config' hconfig hconfig' part hpart₁ part' hpart₁'
  rw [← trees_merged, h, ← trees_merged] at hmerged
  exact trees_remove hmerged "uses"

end Gather

/-! ## One config for each block -/

theorem sortNames_eq_of_perm {names names' : List String} (h : names.Perm names') :
    Deployment.sortNames names = Deployment.sortNames names' := by
  have hsorted (names : List String) :
      (Deployment.sortNames names).Pairwise fun a b ↦ decide (a ≤ b) = true := by
    refine pairwise_mergeSort (fun a b c hab hbc ↦ ?_) (fun a b ↦ ?_) names
    · rw [decide_eq_true_eq] at hab hbc ⊢
      exact String.le_trans hab hbc
    · rw [Bool.or_eq_true, decide_eq_true_eq, decide_eq_true_eq]
      exact String.le_total a b
  have hperm : (Deployment.sortNames names).Perm (Deployment.sortNames names') :=
    (mergeSort_perm _ _).trans (h.trans (mergeSort_perm _ _).symm)
  refine hperm.eq_of_pairwise (fun a b _ _ hab hba ↦ ?_) (hsorted names) (hsorted names')
  exact String.le_antisymm (of_decide_eq_true hab) (of_decide_eq_true hba)

theorem trees_update_some (configs : Configs) (name : String) (config : Json) :
    Configs.trees (Function.update configs name (some config)) =
      Function.update configs.trees name (some config.tree) := by
  funext name'
  rw [Configs.trees]
  by_cases h : name' = name
  · rw [h, Function.update_self, Function.update_self]
    rfl
  · rw [Function.update_of_ne h, Function.update_of_ne h]
    rfl

section Key

variable {D : Deployment}

theorem trees_moveConfigs {names names' : List String} (hperm : names.Perm names')
    (h : configs.trees = configs'.trees) (targets : List String) :
    (D.moveConfigs names targets configs).map Configs.trees =
      (D.moveConfigs names' targets configs').map Configs.trees := by
  induction targets generalizing configs configs' with
  | nil =>
    rw [Deployment.moveConfigs, Deployment.moveConfigs, Except.map, Except.map, h]
  | cons target targets ih =>
    have hgroup := sortNames_eq_of_perm
      (hperm.filter fun name ↦ decide (D.canonicalize name = target))
    simp only [Deployment.moveConfigs, hgroup]
    rcases Deployment.sortNames
      (names'.filter fun name ↦ decide (D.canonicalize name = target)) with
      - | ⟨name, - | ⟨name', rest⟩⟩
    · exact ih h
    · obtain ⟨hc, hc'⟩ | ⟨config, config', hc, hc', htree⟩ :=
        cases_of_map_eq_map (congrFun h name)
      · simp only [hc, hc']
        exact ih h
      · simp only [hc, hc']
        split_ifs
        · exact ih h
        · refine ih ?_
          rw [trees_update_some, trees_update_some, trees_update_none, trees_update_none, h, htree]
    · rfl

theorem trees_result_eq {b b' : Boot D} (h : (b.gathered D).trees = (b'.gathered D).trees) :
    (b.result D).map Configs.trees = (b'.result D).map Configs.trees := by
  have hperm : b.names.Perm b'.names := by
    refine (perm_ext_iff_of_nodup b.nodup_names b'.nodup_names).mpr fun name ↦ ?_
    rw [b.mem_names, b'.mem_names, isSome_of_trees_eq h]
  have htargets : Deployment.sortNames (b.names.map D.canonicalize).dedup =
      Deployment.sortNames (b'.names.map D.canonicalize).dedup :=
    sortNames_eq_of_perm (hperm.map _).dedup
  rw [BootOrder.result, BootOrder.result, Deployment.keyBlockConfigsByTarget,
    Deployment.keyBlockConfigsByTarget, htargets]
  exact trees_moveConfigs hperm h _

/-- **Every boot ends with the same configs**, or with the same error, if no pass of one boot merges
what disagrees. -/
theorem boots_agree (b : Boot D) (hcomposites : D.CompositesSeparate)
    (hflows : D.FlowsSeparate (b.expanded D)) (huses : D.UsesAgree (b.routed D)) (b' : Boot D) :
    (b.result D).map Configs.trees = (b'.result D).map Configs.trees :=
  have hexpanded := trees_expanded_eq hcomposites b b'
  have hrouted := trees_routed_eq hflows hexpanded
  trees_result_eq (trees_gathered_eq huses hrouted)

end Key

/-! ### Two configs that use one database -/

def databaseConfigs (first second : Json) : List (String × Json) :=
  [("app/a", .object [("uses", .object [("app/db", first)])]),
    ("app/b", .object [("uses", .object [("app/db", second)])])]

def databaseDeployment (first second : Json) : Deployment where
  configs name := (databaseConfigs first second).lookup name
  expanders _ := none
  flows := []
  aliases _ := none
  nodup_flows := nodup_nil

theorem mem_iff_lookup {entries : List (String × Json)} (h : (entries.map Prod.fst).Nodup)
    (name : String) (config : Json) :
    (name, config) ∈ entries ↔ entries.lookup name = some config := by
  induction entries with
  | nil => exact iff_of_false not_mem_nil (some_ne_none config ∘ Eq.symm)
  | cons entry entries ih =>
    obtain ⟨key, value⟩ := entry
    rw [map_cons, nodup_cons] at h
    rw [mem_cons, lookup_cons]
    rcases hkey : name == key with - | -
    · have hne : (name, config) ≠ (key, value) := fun heq ↦
        beq_eq_false_iff_ne.mp hkey (Prod.mk.inj heq).1
      rw [or_iff_right hne, ih h.2]
    · obtain rfl := eq_of_beq hkey
      have hnot : (name, config) ∉ entries := fun hmem ↦
        h.1 (mem_map.mpr ⟨(name, config), hmem, rfl⟩)
      rw [or_iff_left hnot, Prod.mk.injEq, Option.some_inj]
      exact ⟨fun heq ↦ heq.2.symm, fun heq ↦ ⟨rfl, heq.symm⟩⟩

theorem nodup_databaseConfigs (first second : Json) :
    ((databaseConfigs first second).map Prod.fst).Nodup := by
  have hnames : ["app/a", "app/b"].Nodup := by decide
  exact hnames

theorem uses_databaseConfig (value : Json) :
    Deployment.uses (.object [("uses", .object [("app/db", value)])]) = [("app/db", value)] := rfl

theorem isSome_foldl_mergeInto {f : String → String} (parts : List (String × Json))
    (configs : Configs) (name : String) :
    (parts.foldl (fun configs part ↦ mergeInto configs (f part.1) part.2) configs name).isSome ↔
      (configs name).isSome ∨ ∃ part ∈ parts, f part.1 = name := by
  induction parts generalizing configs with
  | nil => simp
  | cons part parts ih =>
    rw [foldl_cons, ih, mergeInto, Function.update_apply]
    by_cases hname : name = f part.1
    · simp [hname]
    · simp [hname, Ne.symm hname]

def databaseBoot (first second : Json) (entries : List (String × Json))
    (h : (databaseConfigs first second).Perm entries) : Boot (databaseDeployment first second) where
  keys := []
  flows := []
  entries := entries
  names := ["app/a", "app/b", "app/db"]
  nodup_keys := nodup_nil
  mem_keys key := iff_of_false not_mem_nil fun h ↦ Bool.false_ne_true h.2
  flow_order := ⟨[], .nil, .nil⟩
  nodup_entries := (h.map Prod.fst).nodup_iff.mp (nodup_databaseConfigs first second)
  mem_entries name config := by
    rw [← h.mem_iff]
    exact mem_iff_lookup (nodup_databaseConfigs first second) name config
  nodup_names := by decide
  mem_names name := by
    have hparts : ∀ part, part ∈ entries.flatMap (fun entry ↦ Deployment.uses entry.2) ↔
        part = ("app/db", first) ∨ part = ("app/db", second) := by
      intro part
      rw [(h.flatMap_right fun entry ↦ Deployment.uses entry.2).mem_iff.symm, databaseConfigs,
        flatMap_cons, flatMap_cons, flatMap_nil, uses_databaseConfig,
        uses_databaseConfig]
      simp
    have hconfigs : ((databaseDeployment first second).configs name).isSome ↔
        name = "app/a" ∨ name = "app/b" := by
      simp only [databaseDeployment, databaseConfigs, lookup_cons, lookup_nil]
      rcases ha : name == "app/a" with - | -
      · rcases hb : name == "app/b" with - | -
        · simp [beq_eq_false_iff_ne.mp ha, beq_eq_false_iff_ne.mp hb]
        · simp [eq_of_beq hb]
      · simp [eq_of_beq ha]
    change _ ↔ (Option.map _ _).isSome = true
    rw [Option.isSome_map, isSome_foldl_mergeInto]
    change _ ↔ ((databaseDeployment first second).configs name).isSome = true ∨ _
    have hcontributed : (∃ part ∈ entries.flatMap (fun entry ↦ Deployment.uses entry.2),
        (databaseDeployment first second).canonicalize part.1 = name) ↔ name = "app/db" := by
      constructor
      · rintro ⟨part, hpart, rfl⟩
        obtain rfl | rfl := (hparts part).mp hpart <;> rfl
      · rintro rfl
        exact ⟨("app/db", first), (hparts _).mpr (.inl rfl), rfl⟩
    rw [hconfigs, hcontributed]
    simp [or_assoc]

theorem moveConfigs_of_no_alias {D : Deployment} (halias : ∀ name, D.canonicalize name = name)
    {names : List String} (hnodup : names.Nodup) (configs : Configs) {targets : List String}
    (htargets : ∀ target ∈ targets, target ∈ names) :
    D.moveConfigs names targets configs = .ok configs := by
  induction targets with
  | nil => rfl
  | cons target targets ih =>
    obtain ⟨htarget, htargets⟩ := forall_mem_cons.mp htargets
    have hgroup : names.filter (fun name ↦ D.canonicalize name = target) = [target] := by
      simp only [halias]
      have hfilter := filter_eq target (l := names)
      rw [count_eq_one_of_mem hnodup htarget] at hfilter
      exact (filter_congr fun name _ ↦ by rw [eq_comm]).trans hfilter
    have hsorted : Deployment.sortNames [target] = [target] := mergeSort_singleton target
    simp only [Deployment.moveConfigs, hgroup, hsorted, if_true]
    split <;> exact ih htargets

theorem result_databaseBoot (first second : Json) (entries : List (String × Json))
    (h : (databaseConfigs first second).Perm entries) :
    (databaseBoot first second entries h).result (databaseDeployment first second) =
      .ok ((databaseBoot first second entries h).gathered (databaseDeployment first second)) := by
  refine moveConfigs_of_no_alias (fun _ ↦ rfl) (databaseBoot first second entries h).nodup_names _ ?_
  intro target htarget
  have hmem := ((mergeSort_perm _ _).mem_iff).mp htarget
  rw [mem_dedup] at hmem
  obtain ⟨name, hname, rfl⟩ := mem_map.mp hmem
  exact hname

theorem databaseConfigs_perm_reverse (first second : Json) :
    (databaseConfigs first second).Perm (databaseConfigs first second).reverse :=
  (reverse_perm _).symm

theorem compatible_of_get {t : Tree String Json} (ht : t.Decided []) {w : Json}
    (h : ∀ key, v.get key = none ∨ w.get key = none) : Tree.Compatible t v.tree w.tree := by
  intro path hpath x y hx hy
  rcases path with - | ⟨key, path⟩
  · exact absurd ht hpath
  · rw [node_tree_cons] at hx hy
    obtain hnone | hnone := h key
    · rw [hnone] at hx
      cases hx
    · rw [hnone] at hy
      cases hy

/-- Two configs that contribute different keys may do so in either order. -/
theorem boots_agree_database :
    let url : Json := .object [("url", .string "a")]
    let pool : Json := .object [("pool", .number (.posInt 5))]
    ((databaseBoot url pool _ (List.Perm.refl _)).result (databaseDeployment url pool)).map
        Configs.trees =
      ((databaseBoot url pool _ (databaseConfigs_perm_reverse url pool)).result
        (databaseDeployment url pool)).map Configs.trees := by
  intro url pool
  apply boots_agree
  · exact fun key _ _ h _ ↦ absurd h.2 Bool.false_ne_true
  · exact ⟨fun flow hflow ↦ absurd hflow List.not_mem_nil,
      fun flow hflow ↦ absurd hflow List.not_mem_nil⟩
  · have hparts {name : String} {config : Json}
        (h : (databaseConfigs url pool).lookup name = some config) {part : String × Json}
        (hpart : part ∈ Deployment.uses config) : part = ("app/db", url) ∨ part = ("app/db", pool) := by
      have hmem := (mem_iff_lookup (nodup_databaseConfigs url pool) name config).mpr h
      rw [databaseConfigs, List.mem_cons, List.mem_singleton, Prod.mk.injEq, Prod.mk.injEq] at hmem
      obtain ⟨-, rfl⟩ | ⟨-, rfl⟩ := hmem
      · exact .inl (List.mem_singleton.mp hpart)
      · exact .inr (List.mem_singleton.mp hpart)
    have hempty : (Tree.empty : Tree String Json).Decided [] := .inl ⟨_, rfl⟩
    have hself (v : Json) : Tree.Compatible Tree.empty v.tree v.tree := fun _ _ _ _ hx hy ↦
      Option.some.inj (hx.symm.trans hy)
    have hdiffer : Tree.Compatible Tree.empty url.tree pool.tree := by
      refine compatible_of_get hempty fun key ↦ ?_
      by_cases hkey : key = "url"
      · rw [hkey]
        exact .inr rfl
      · have hne : (key == "url") = false := beq_eq_false_iff_ne.mpr hkey
        exact .inl (by simp [url, Json.get, List.lookup_cons, hne])
    intro name config name' config' hconfig hconfig' part hpart part' hpart' _
    obtain rfl | rfl := hparts hconfig hpart <;> obtain rfl | rfl := hparts hconfig' hpart'
    · exact hself url
    · exact hdiffer
    · exact hdiffer.symm
    · exact hself pool

/-- If they contribute different values of one key, the database keeps the one that comes first. -/
theorem database_first_wins :
    ¬∀ (D : Deployment) (b b' : Boot D),
      (b.result D).map Configs.trees = (b'.result D).map Configs.trees := by
  intro hclaim
  let url (text : String) : Json := .object [("url", .string text)]
  have h := hclaim (databaseDeployment (url "a") (url "b"))
    (databaseBoot (url "a") (url "b") _ (List.Perm.refl _))
    (databaseBoot (url "a") (url "b") _ (databaseConfigs_perm_reverse (url "a") (url "b")))
  rw [result_databaseBoot, result_databaseBoot] at h
  have htrees := congrFun (Except.ok.inj h) "app/db"
  have hnode := congrArg (fun t ↦ (t.getD Tree.empty).node ["url"]) htrees
  have hleaf : some (Node.leaf (Json.string "a")) = some (Node.leaf (Json.string "b")) := hnode
  have htext : "a" = "b" := Json.string.inj (Node.leaf.inj (Option.some.inj hleaf))
  exact absurd htext (by decide)

end WaferRun
