import WaferRun.Lib.MergeOrder
import WaferRun.Runtime.BootOrder

/-!
# User settings against defaults

A flow routes the keys of its config to the blocks of its steps, and merges defaults into them. Both
go through the same merge, in which the first writer wins, and the defaults are merged first. So a
value the user gave stands at its place only if nothing that was merged before it says otherwise
there, the defaults of its own flow to begin with (`user_value_stands_iff`). What a block was
configured with itself comes before both and always stands (`own_config_stands`).
-/

open List

namespace WaferRun

open FirstWins FirstWins.Tree Deployment

/-! ## What is merged into a block -/

def takingPart (flows : List FlowDecl) (configs : Configs) : List FlowDecl :=
  flows.filter (eligible configs)

def mergedParts (flows : List FlowDecl) (configs : Configs) : List (String × Json) :=
  flows.flatMap fun flow ↦ (configs flow.id).elim [] (flowParts flow)

def saidOf (parts : List (String × Json)) (target : String) : List (Tree String Json) :=
  (parts.filter fun part ↦ part.1 = target).map fun part ↦ part.2.tree

def saidAt (parts : List (String × Json)) (target key : String) : List (Tree String Json) :=
  (saidOf parts target).map fun t ↦ t.below key

def RoutesToBlocks (flows : List FlowDecl) (configs : Configs) : Prop :=
  ∀ part ∈ mergedParts (takingPart flows configs) configs, ∀ flow ∈ takingPart flows configs,
    part.1 ≠ flow.id

/-- The config of a block by what stands at each path; empty if there is none. -/
def treeOf (configs : Configs) (target : String) : Tree String Json :=
  ((configs target).getD (.object [])).tree

theorem saidOf_append (parts parts' : List (String × Json)) (target : String) :
    saidOf (parts ++ parts') target = saidOf parts target ++ saidOf parts' target := by
  rw [saidOf, filter_append, map_append]
  rfl

theorem saidOf_cons_self (part : String × Json) (parts : List (String × Json)) :
    saidOf (part :: parts) part.1 = part.2.tree :: saidOf parts part.1 := by
  rw [saidOf, filter_cons, if_pos (decide_eq_true rfl)]
  rfl

theorem saidOf_cons_of_ne {part : String × Json} {target : String} (h : part.1 ≠ target)
    (parts : List (String × Json)) : saidOf (part :: parts) target = saidOf parts target := by
  rw [saidOf, filter_cons, if_neg (by simpa using h)]
  rfl

theorem treeOf_foldl_mergeInto (parts : List (String × Json)) (configs : Configs)
    (target : String) :
    treeOf (parts.foldl (fun configs part ↦ mergeInto configs part.1 part.2) configs) target =
      (treeOf configs target).mergeAll (saidOf parts target) := by
  induction parts generalizing configs with
  | nil => rfl
  | cons part parts ih =>
    rw [foldl_cons, ih]
    by_cases h : part.1 = target
    · have htree : treeOf (mergeInto configs part.1 part.2) target =
          (treeOf configs target).merge part.2.tree := by
        rw [treeOf, mergeInto, h, Function.update_self, Option.getD_some, tree_deepMerge]
        rfl
      subst h
      rw [htree, saidOf_cons_self]
      rfl
    · have htree : treeOf (mergeInto configs part.1 part.2) target = treeOf configs target := by
        rw [treeOf, mergeInto, Function.update_of_ne (Ne.symm h)]
        rfl
      rw [htree, saidOf_cons_of_ne h]

theorem treeOf_expandFlowConfig {flow : FlowDecl} {target : String} (h : target ≠ flow.id)
    (configs : Configs) :
    treeOf (expandFlowConfig configs flow) target =
      (treeOf configs target).mergeAll (saidOf ((configs flow.id).elim [] (flowParts flow)) target) := by
  unfold expandFlowConfig
  rcases hconfig : configs flow.id with - | config
  · rfl
  · dsimp only
    rw [treeOf_foldl_mergeInto]
    congr 1
    rw [treeOf, Function.update_of_ne h]
    rfl

theorem expandFlowConfig_of_ne {flow : FlowDecl} {name : String} {configs : Configs}
    (hne : name ≠ flow.id)
    (h : ∀ part ∈ (configs flow.id).elim [] (flowParts flow), part.1 ≠ name) :
    expandFlowConfig configs flow name = configs name := by
  rw [expandFlowConfig_eq]
  refine useConfig_of_ne hne fun c hc ↦ ?_
  obtain ⟨part, hpart, rfl⟩ := mem_map.mp hc
  exact h part hpart

theorem treeOf_foldl_expandFlowConfig {flows : List FlowDecl} {configs : Configs} {target : String}
    (hnodup : (flows.map FlowDecl.id).Nodup)
    (hblocks : ∀ part ∈ mergedParts flows configs, ∀ flow ∈ flows, part.1 ≠ flow.id)
    (htarget : ∀ flow ∈ flows, target ≠ flow.id) :
    treeOf (flows.foldl expandFlowConfig configs) target =
      (treeOf configs target).mergeAll (saidOf (mergedParts flows configs) target) := by
  induction flows generalizing configs with
  | nil => rfl
  | cons flow flows ih =>
    obtain ⟨hid, hnodup⟩ := nodup_cons.mp hnodup
    have hparts : mergedParts (flow :: flows) configs =
        (configs flow.id).elim [] (flowParts flow) ++ mergedParts flows configs := flatMap_cons
    rw [hparts] at hblocks
    -- the configs of the flows that are still to come are not touched
    have hstays : ∀ flow' ∈ flows, expandFlowConfig configs flow flow'.id = configs flow'.id := by
      intro flow' hflow'
      refine expandFlowConfig_of_ne (fun heq ↦ hid (heq ▸ mem_map_of_mem hflow')) ?_
      exact fun part hpart ↦
        hblocks part (mem_append_left _ hpart) flow' (mem_cons_of_mem _ hflow')
    have hsame : mergedParts flows (expandFlowConfig configs flow) = mergedParts flows configs :=
      flatMap_congr fun flow' hflow' ↦ by rw [hstays flow' hflow']
    rw [foldl_cons, ih hnodup, hsame, hparts, saidOf_append, mergeAll_append,
      treeOf_expandFlowConfig (htarget flow mem_cons_self)]
    · rw [hsame]
      exact fun part hpart flow' hflow' ↦
        hblocks part (mem_append_right _ hpart) flow' (mem_cons_of_mem _ hflow')
    · exact fun flow' hflow' ↦ htarget flow' (mem_cons_of_mem _ hflow')

theorem treeOf_expandDeclarativeFlowConfigs {flows : List FlowDecl} {configs : Configs}
    {target : String} (hnodup : (flows.map FlowDecl.id).Nodup) (hblocks : RoutesToBlocks flows configs)
    (htarget : ∀ flow ∈ takingPart flows configs, target ≠ flow.id) :
    treeOf (expandDeclarativeFlowConfigs flows configs) target =
      (treeOf configs target).mergeAll
        (saidOf (mergedParts (takingPart flows configs) configs) target) :=
  treeOf_foldl_expandFlowConfig ((filter_sublist.map _).nodup hnodup) hblocks htarget

/-! ## The value at a key of a block -/

def valueAt (configs : Configs) (target key : String) : Option Json :=
  (configs target).bind fun config ↦ config.get key

/-- The config a block was registered with says what stands under a key: it has the key, or it is
no object. -/
def OwnSets (configs : Configs) (target key : String) : Prop :=
  ∃ own, configs target = some own ∧ own.tree.Decided [key]

/-- The value a user gave stands under a key of a block, unless the block itself was configured
otherwise. -/
def UserValueStands (configs final : Configs) (target key : String) (value : Json) : Prop :=
  OwnSets configs target key ∨ ∃ v, valueAt final target key = some v ∧ v.tree = value.tree

theorem below_tree (v : Json) (key : String) :
    v.tree.below key = ((v.get key).map Json.tree).getD blank := by
  ext1
  funext path
  change v.tree.node (key :: path) = _
  rw [node_tree_cons]
  rcases v.get key with - | value <;> rfl

theorem below_treeOf (configs : Configs) (target key : String) :
    (treeOf configs target).below key = ((valueAt configs target key).map Json.tree).getD blank := by
  rw [treeOf, below_tree, valueAt]
  rcases configs target with - | config <;> rfl

theorem tree_ne_blank (v : Json) : v.tree ≠ blank := by
  intro h
  have hnode := node_tree_nil v
  rw [h] at hnode
  cases hnode

theorem below_treeOf_eq_tree_iff {configs : Configs} {target key : String} {value : Json} :
    (treeOf configs target).below key = value.tree ↔
      ∃ v, valueAt configs target key = some v ∧ v.tree = value.tree := by
  rw [below_treeOf]
  rcases valueAt configs target key with - | v
  · exact iff_of_false (tree_ne_blank value).symm (by rintro ⟨v, hv, -⟩; cases hv)
  · constructor
    · exact fun h ↦ ⟨v, rfl, h⟩
    · rintro ⟨v', hv', h⟩
      rw [← h, Option.some_inj.mp hv']
      rfl

theorem treeOf_of_not_ownSets {configs : Configs} {target key : String}
    (h : ¬OwnSets configs target key) :
    (treeOf configs target).node [] = some .branch ∧ (treeOf configs target).below key = blank := by
  rcases hc : configs target with - | own
  · rw [below_treeOf, valueAt, treeOf, hc]
    exact ⟨rfl, rfl⟩
  · have hnot : ¬own.tree.Decided [key] := fun hd ↦ h ⟨own, hc, hd⟩
    rw [below_treeOf, valueAt, treeOf, hc]
    constructor
    · rcases hnode : own.node with - | a
      · exact (node_tree_nil own).trans (congrArg some hnode)
      · exact absurd (decided_of_node_leaf hnode [key]) hnot
    · rcases hget : own.get key with - | value
      · change ((own.get key).map Json.tree).getD blank = blank
        rw [hget]
        rfl
      · refine absurd (.inl ⟨value.node, ?_⟩) hnot
        rw [node_tree_cons, hget]
        exact node_tree_nil value

/-- What a block was registered with stands, whatever the flows merge into it. -/
theorem own_config_stands {flows : List FlowDecl} {configs : Configs}
    (hnodup : (flows.map FlowDecl.id).Nodup) (hblocks : RoutesToBlocks flows configs)
    {target : String} (htarget : ∀ flow ∈ takingPart flows configs, target ≠ flow.id) {own : Json}
    (hown : configs target = some own) {path : List String} (hpath : own.tree.Decided path) :
    (treeOf (expandDeclarativeFlowConfigs flows configs) target).node path = own.tree.node path := by
  have htree : treeOf configs target = own.tree := by rw [treeOf, hown, Option.getD_some]
  rw [treeOf_expandDeclarativeFlowConfigs hnodup hblocks htarget, htree]
  generalize saidOf (mergedParts (takingPart flows configs) configs) target = ts
  generalize own.tree = t at hpath ⊢
  induction ts generalizing t with
  | nil => rfl
  | cons s ts ih =>
    exact (ih (t.merge s) (hpath.merge s)).trans (node_merge_of_decided s hpath)

/-- **A value the user gave stands exactly if nothing is in its way**: what the flows merge into the
block before it, the defaults of its own flow among it, has nothing else to say at the paths that
are open in the value, and what they merge after it adds nothing to it. What the block itself was
registered with always stands. -/
theorem user_value_stands_iff {flows before after : List FlowDecl} {configs : Configs}
    {flow : FlowDecl} {config value : Json} {map₁ map₂ : List (String × ConfigMapEntry)}
    {userKey : String} {mapping : ConfigMapEntry} (hnodup : (flows.map FlowDecl.id).Nodup)
    (hblocks : RoutesToBlocks flows configs)
    (hflows : takingPart flows configs = before ++ flow :: after)
    (hconfig : configs flow.id = some config)
    (hmap : flow.configMap = map₁ ++ (userKey, mapping) :: map₂)
    (hvalue : config.get userKey = some value) :
    (UserValueStands configs (expandDeclarativeFlowConfigs flows configs) mapping.target mapping.key
        value ↔
      OwnSets configs mapping.target mapping.key ∨
        Fits (saidAt (mergedParts before configs ++ flow.configDefaults ++ routed map₁ config)
          mapping.target mapping.key) value.tree ∧
        AddsNothing (saidAt (routed map₂ config ++ mergedParts after configs)
          mapping.target mapping.key) value.tree) ∧
    ∀ own path, configs mapping.target = some own → own.tree.Decided path →
      (treeOf (expandDeclarativeFlowConfigs flows configs) mapping.target).node path =
        own.tree.node path := by
  set part : String × Json := (mapping.target, .object [(mapping.key, value)]) with hpart
  have hrouted : routed flow.configMap config =
      routed map₁ config ++ part :: routed map₂ config := by
    rw [hmap, routed, filterMap_append, filterMap_cons_some (b := part)]
    · rfl
    · exact congrArg (Option.map _) hvalue
  have hparts : mergedParts (takingPart flows configs) configs =
      (mergedParts before configs ++ flow.configDefaults ++ routed map₁ config) ++
        part :: (routed map₂ config ++ mergedParts after configs) := by
    have hflow : (configs flow.id).elim [] (flowParts flow) =
        flow.configDefaults ++ (routed map₁ config ++ part :: routed map₂ config) := by
      rw [hconfig, ← hrouted]
      rfl
    rw [hflows, mergedParts, flatMap_append, flatMap_cons, hflow]
    simp only [mergedParts, append_assoc, cons_append]
  have htarget : ∀ flow' ∈ takingPart flows configs, mapping.target ≠ flow'.id := by
    intro flow' hflow'
    exact hblocks part (hparts ▸ mem_append_right _ mem_cons_self) flow' hflow'
  refine ⟨or_congr_right' ?_, fun own path hown hpath ↦
    own_config_stands hnodup hblocks htarget hown hpath⟩
  intro hown
  obtain ⟨hbranch, hblank⟩ := treeOf_of_not_ownSets hown
  have hbelow : part.2.tree.below mapping.key = value.tree := by
    rw [below_tree, hpart]
    change ((List.lookup mapping.key [(mapping.key, value)]).map Json.tree).getD blank = _
    rw [lookup_cons_self]
    rfl
  rw [← below_treeOf_eq_tree_iff, treeOf_expandDeclarativeFlowConfigs hnodup hblocks htarget,
    below_mergeAll hbranch, hblank, ← saidAt, hparts, saidAt, saidOf_append, map_append,
    saidOf_cons_self, map_cons, hbelow]
  exact mergeAll_eq_iff

/-! ## A flow with a default for a mapped key -/

namespace ServerFlow

/-- A flow that routes its `listen` key to its listener. -/
def flow (configDefaults : List (String × Json)) (h : (configDefaults.map Prod.fst).Nodup) :
    FlowDecl where
  id := "org/server"
  configMap := [("listen", ⟨"org/listener", "listen"⟩)]
  configDefaults := configDefaults
  nodup_configMap := by decide
  nodup_configDefaults := h

def defaults : List (String × Json) :=
  [("org/listener", .object [("flow", .string "org/server")])]

/-- A default for the key the flow routes. -/
def shadowing : List (String × Json) :=
  [("org/listener", .object [("listen", .string "127.0.0.1:80")])]

def configs : Configs := fun name ↦
  if name = "org/server" then some (.object [("listen", .string "0.0.0.0:8080")]) else none

end ServerFlow

open ServerFlow in
/-- A default takes the place of the user's value. -/
theorem default_beats_user_value :
    ¬UserValueStands configs (expandDeclarativeFlowConfigs [flow shadowing (by decide)] configs)
      "org/listener" "listen" (.string "0.0.0.0:8080") ∧
    valueAt (expandDeclarativeFlowConfigs [flow shadowing (by decide)] configs) "org/listener"
      "listen" = some (.string "127.0.0.1:80") := by
  have hfinal : valueAt (expandDeclarativeFlowConfigs [flow shadowing (by decide)] configs)
      "org/listener" "listen" = some (.string "127.0.0.1:80") := rfl
  refine ⟨?_, hfinal⟩
  rintro (⟨own, hown, -⟩ | ⟨v, hv, htree⟩)
  · cases hown
  · rw [hfinal, Option.some_inj] at hv
    subst hv
    have hnode := congrArg (fun t : Tree String Json ↦ t.node []) htree
    simp only [node_tree_nil, Json.node, Option.some_inj, Node.leaf.injEq, Json.string.injEq] at hnode
    exact absurd hnode (by decide)

open ServerFlow in
/-- With a default for another key the user's value stands. -/
theorem user_value_stands_listen :
    UserValueStands configs (expandDeclarativeFlowConfigs [flow defaults (by decide)] configs)
      "org/listener" "listen" (.string "0.0.0.0:8080") := by
  have htaking : takingPart [flow defaults (by decide)] configs =
      [] ++ flow defaults (by decide) :: [] := rfl
  have hparts : mergedParts (takingPart [flow defaults (by decide)] configs) configs =
      defaults ++ [("org/listener", .object [("listen", .string "0.0.0.0:8080")])] := rfl
  have hblocks : RoutesToBlocks [flow defaults (by decide)] configs := by
    intro part hpart flow' hflow'
    rw [hparts] at hpart
    rw [htaking] at hflow'
    rw [mem_singleton.mp hflow']
    rcases mem_cons.mp hpart with rfl | hpart
    · decide
    · rw [mem_singleton.mp hpart]
      decide
  have hnodup : ([flow defaults (by decide)].map FlowDecl.id).Nodup := nodup_singleton _
  have hiff := @user_value_stands_iff _ [] [] configs (flow defaults (by decide)) _
    (.string "0.0.0.0:8080") [] [] "listen" ⟨"org/listener", "listen"⟩ hnodup hblocks htaking rfl rfl rfl
  refine hiff.1.mpr (.inr ⟨?_, ?_⟩)
  · intro path x _ hfirst
    have hsaid : saidAt (mergedParts [] configs ++ defaults ++ routed [] (.object
        [("listen", .string "0.0.0.0:8080")])) "org/listener" "listen" = [blank] := by
      change [(Json.object [("flow", .string "org/server")]).tree.below "listen"] = [blank]
      rw [below_tree]
      rfl
    change firstNode (saidAt (mergedParts [] configs ++ defaults ++ routed [] (.object
        [("listen", .string "0.0.0.0:8080")])) "org/listener" "listen") path = some x at hfirst
    rw [hsaid] at hfirst
    cases hfirst
  · exact fun t ht ↦ absurd ht not_mem_nil

end WaferRun
