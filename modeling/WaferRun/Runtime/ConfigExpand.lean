import Mathlib.Data.List.Dedup
import WaferRun.Flow.Plan
import WaferRun.Lib.FirstWins

/-!
# Config expansion

Before a runtime is sealed, four passes move configuration between blocks: composite configs are
split by their expanders, flows route their configuration to the blocks of their steps, every
config contributes to the blocks it names under `uses`, and a config under an alias moves to the
block the alias stands for. A pass visits hash maps in whatever order they iterate, and merges what
it finds into its target so that the first writer wins.

So a boot is one of many runs of the four passes (`Boot`), and in general two boots of one
deployment can leave different configs. They leave the same ones if the passes of one of them never
merge two things that disagree (`boots_agree`). Configs are compared by what stands at each path of
object keys (`Json.tree`), since the order of the keys of an object is not part of its value.
-/

open List Option Function

namespace WaferRun

open FirstWins

/-! ## Objects -/

def Json.get (v : Json) (key : String) : Option Json :=
  match v with
  | .object fields => fields.lookup key
  | _ => none

def Json.entries (v : Json) : List (String × Json) :=
  match v with
  | .object fields =>
    (fields.map Prod.fst).dedup.filterMap fun key ↦ (fields.lookup key).map (key, ·)
  | _ => []

def Json.remove (v : Json) (key : String) : Json :=
  match v with
  | .object fields => .object (fields.filter fun field ↦ field.1 ≠ key)
  | v => v

mutual

/-- Merge `src` into `dst`: what both have under a key is merged, what only `src` has is added, and
a value of `dst` that is no object stays. -/
def deepMerge : Json → Json → Json
  | .object dst, .object src =>
    .object (mergeFields dst src ++ src.filter fun field ↦ (dst.lookup field.1).isNone)
  | dst, _ => dst

def mergeFields : List (String × Json) → List (String × Json) → List (String × Json)
  | [], _ => []
  | (key, dst) :: fields, src =>
    (key, match src.lookup key with | some value => deepMerge dst value | none => dst) ::
      mergeFields fields src

end

/-! ## The passes -/

/-- Block configs by the name they are registered under. -/
abbrev Configs := String → Option Json

def mergeInto (configs : Configs) (target : String) (value : Json) : Configs :=
  Function.update configs target (some (deepMerge ((configs target).getD (.object [])) value))

structure ConfigMapEntry where
  target : String
  key : String

/-- A flow, as far as it routes configuration. A map is a list of its entries. -/
structure FlowDecl where
  id : String
  configMap : List (String × ConfigMapEntry)
  configDefaults : List (String × Json)
  nodup_configMap : (configMap.map Prod.fst).Nodup
  nodup_configDefaults : (configDefaults.map Prod.fst).Nodup

/-- What is registered when the runtime is sealed. -/
structure Deployment where
  configs : Configs
  expanders : String → Option (Json → List (String × Json))
  flows : List FlowDecl
  aliases : String → Option String
  nodup_flows : (flows.map FlowDecl.id).Nodup

namespace Deployment

variable (D : Deployment)

def canonicalize (name : String) : String := (D.aliases name).getD name

def expandCompositeConfig (configs : Configs) (key : String) : Configs :=
  match configs key with
  | none => configs
  | some config =>
    match D.expanders key with
    | none => Function.update configs key none
    | some expander =>
      (expander config).foldl (fun configs part ↦ mergeInto configs part.1 part.2)
        (Function.update configs key none)

/-- Split the composite configs in the order of `keys`. -/
def expandCompositeConfigs (keys : List String) (configs : Configs) : Configs :=
  keys.foldl D.expandCompositeConfig configs

def routed (configMap : List (String × ConfigMapEntry)) (config : Json) : List (String × Json) :=
  configMap.filterMap fun (userKey, mapping) ↦
    (config.get userKey).map fun value ↦ (mapping.target, .object [(mapping.key, value)])

def expandFlowConfig (configs : Configs) (flow : FlowDecl) : Configs :=
  match configs flow.id with
  | none => configs
  | some config =>
    (flow.configDefaults ++ routed flow.configMap config).foldl
      (fun configs part ↦ mergeInto configs part.1 part.2) (Function.update configs flow.id none)

def eligible (configs : Configs) (flow : FlowDecl) : Bool :=
  !flow.configMap.isEmpty && (configs flow.id).isSome

/-- Route the configs of the flows in the order of `flows`. -/
def expandDeclarativeFlowConfigs (flows : List FlowDecl) (configs : Configs) : Configs :=
  (flows.filter (eligible configs)).foldl expandFlowConfig configs

def uses (config : Json) : List (String × Json) := ((config.get "uses").map Json.entries).getD []

/-- Merge what the configs contribute, in the order of `entries`, and drop the contributions from
the configs that made them. -/
def gatherUsesConfigs (entries : List (String × Json)) (configs : Configs) : Configs :=
  let merged := (entries.flatMap fun entry ↦ uses entry.2).foldl
    (fun configs part ↦ mergeInto configs (D.canonicalize part.1) part.2) configs
  fun name ↦ (merged name).map fun config ↦ config.remove "uses"

def sortNames (names : List String) : List String := names.mergeSort

def collisionError (target : String) (names : List String) : String :=
  "block `" ++ target ++ "` has a config registered under each of " ++
    ", ".intercalate (names.map fun name ↦ "`" ++ name ++ "`") ++
    "; register it once, under one name"

def moveConfigs (names : List String) : List String → Configs → Except String Configs
  | [], configs => .ok configs
  | target :: targets, configs =>
    match sortNames (names.filter fun name ↦ D.canonicalize name = target) with
    | [] => moveConfigs names targets configs
    | [name] =>
      match configs name with
      | some config =>
        if name = target then moveConfigs names targets configs
        else moveConfigs names targets
          (Function.update (Function.update configs name none) target (some config))
      | none => moveConfigs names targets configs
    | collision => .error (collisionError target collision)

/-- Key every config by the block it configures; `names` are the names there are, in any order. -/
def keyBlockConfigsByTarget (names : List String) (configs : Configs) : Except String Configs :=
  D.moveConfigs names (sortNames (names.map D.canonicalize).dedup) configs

end Deployment

/-! ## What stands at each path -/

/-- The value at a path of object keys. -/
def Json.at (v : Json) : List String → Option Json
  | [] => some v
  | key :: path => (v.get key).bind fun value ↦ value.at path

def Json.node : Json → Node Json
  | .object _ => .branch
  | v => .leaf v

theorem Json.node_eq_branch {v : Json} {key : String} {value : Json} (h : v.get key = some value) :
    v.node = .branch := by
  rcases v with _ | _ | _ | _ | _ | fields
  case object => rfl
  all_goals cases h

theorem Json.at_append (v : Json) (p q : List String) :
    v.at (p ++ q) = (v.at p).bind fun value ↦ value.at q := by
  induction p generalizing v with
  | nil => rfl
  | cons key p ih =>
    rw [cons_append, Json.at, Json.at]
    rcases v.get key with - | value
    · rfl
    · exact ih value

/-- A value by what stands at each path: the value up to the order of the keys of its objects. -/
def Json.tree (v : Json) : Tree String Json where
  node path := (v.at path).map Json.node
  above p k q x h := by
    rw [Json.at_append] at h
    rcases hp : v.at p with - | value
    · rw [hp] at h
      cases h
    · rw [hp, bind_some, Json.at] at h
      rcases hk : value.get k with - | below
      · rw [hk] at h
        cases h
      · rw [map_some, Json.node_eq_branch hk]

theorem node_tree_nil (v : Json) : v.tree.node [] = some v.node := rfl

theorem node_tree_cons (v : Json) (key : String) (path : List String) :
    v.tree.node (key :: path) = (v.get key).bind fun value ↦ value.tree.node path := by
  change ((v.get key).bind fun value ↦ value.at path).map Json.node = _
  rcases v.get key with - | value <;> rfl

theorem decided_tree_nil (v : Json) : v.tree.Decided [] := .inl ⟨_, node_tree_nil v⟩

theorem decided_of_node_leaf {v : Json} {w : Json} (h : v.node = .leaf w) (path : List String) :
    v.tree.Decided path := by
  rcases path with - | ⟨key, path⟩
  · exact decided_tree_nil v
  · exact .inr ⟨[], key, path, w, rfl, by rw [node_tree_nil, h]⟩

theorem decided_tree_cons {v : Json} (hv : v.node = .branch) (key : String) (path : List String) :
    v.tree.Decided (key :: path) ↔ ∃ value, v.get key = some value ∧ value.tree.Decided path := by
  constructor
  · rintro (⟨x, hx⟩ | ⟨p, k, q, a, hpath, ha⟩)
    · rw [node_tree_cons] at hx
      obtain ⟨value, hvalue, hx⟩ := bind_eq_some_iff.mp hx
      exact ⟨value, hvalue, .inl ⟨x, hx⟩⟩
    · rcases p with - | ⟨key', p⟩
      · rw [node_tree_nil, hv] at ha
        cases ha
      · obtain ⟨rfl, rfl⟩ := cons_eq_cons.mp hpath
        rw [node_tree_cons] at ha
        obtain ⟨value, hvalue, ha⟩ := bind_eq_some_iff.mp ha
        exact ⟨value, hvalue, .inr ⟨p, k, q, a, rfl, ha⟩⟩
  · rintro ⟨value, hvalue, ⟨x, hx⟩ | ⟨p, k, q, a, rfl, ha⟩⟩
    · exact .inl ⟨x, by rw [node_tree_cons, hvalue, bind_some, hx]⟩
    · refine .inr ⟨key :: p, k, q, a, rfl, ?_⟩
      rw [node_tree_cons, hvalue, bind_some, ha]

/-! ### The tree of a merge -/

theorem lookup_mergeFields (dst src : List (String × Json)) (key : String) :
    (mergeFields dst src).lookup key = (dst.lookup key).map fun value ↦
      match src.lookup key with
      | some value' => deepMerge value value'
      | none => value := by
  induction dst with
  | nil => rfl
  | cons field dst ih =>
    obtain ⟨key', value⟩ := field
    rw [mergeFields, lookup_cons, lookup_cons]
    rcases hkey : key == key' with - | -
    · exact ih
    · rw [eq_of_beq hkey]
      rfl

theorem lookup_filter_key {fields : List (String × Json)} {p : String → Bool} {key : String} :
    (fields.filter fun field ↦ p field.1).lookup key =
      if p key then fields.lookup key else none := by
  induction fields with
  | nil => split_ifs <;> rfl
  | cons field fields ih =>
    obtain ⟨key', value⟩ := field
    by_cases hkey : key = key'
    · rw [hkey, filter_cons, lookup_cons_self]
      rw [hkey] at ih
      split_ifs at ih ⊢ with hp
      · exact lookup_cons_self
      · exact ih
    · have hne : (key == key') = false := beq_eq_false_iff_ne.mpr hkey
      rw [filter_cons, lookup_cons, hne, ← ih]
      split_ifs
      · rw [lookup_cons, hne]
      · rfl

theorem get_deepMerge (dst src : List (String × Json)) (key : String) :
    (deepMerge (.object dst) (.object src)).get key =
      match dst.lookup key, src.lookup key with
      | some value, some value' => some (deepMerge value value')
      | some value, none => some value
      | none, value' => value' := by
  rw [deepMerge]
  change (mergeFields dst src ++ _).lookup key = _
  rw [lookup_append, lookup_mergeFields,
    lookup_filter_key (p := fun key ↦ (dst.lookup key).isNone)]
  rcases dst.lookup key with - | value <;> rcases src.lookup key with - | value' <;> rfl

/-- **Merging values is merging their trees.** -/
theorem tree_deepMerge (dst src : Json) : (deepMerge dst src).tree = dst.tree.merge src.tree := by
  ext1
  funext path
  induction path generalizing dst src with
  | nil =>
    rw [Tree.node_merge_of_decided _ (decided_tree_nil dst), node_tree_nil, node_tree_nil]
    rcases dst with _ | _ | _ | _ | _ | dst <;> try rfl
    rcases src with _ | _ | _ | _ | _ | src <;> rfl
  | cons key path ih =>
    by_cases hdst : ∃ fields, dst = .object fields
    · obtain ⟨dst, rfl⟩ := hdst
      by_cases hsrc : ∃ fields, src = .object fields
      · obtain ⟨src, rfl⟩ := hsrc
        rw [node_tree_cons, get_deepMerge]
        have hdecided := @decided_tree_cons (.object dst) rfl key path
        have hget (fields : List (String × Json)) : (Json.object fields).get key =
            fields.lookup key := rfl
        rcases hd : dst.lookup key with - | value
        · have hnot : ¬(Json.object dst).tree.Decided (key :: path) := by
            rw [hdecided, hget, hd]
            simp
          rw [Tree.node_merge_of_not_decided _ hnot, node_tree_cons, hget]
        · by_cases hv : value.tree.Decided path
          · have hyes := hdecided.mpr ⟨value, hd, hv⟩
            rw [Tree.node_merge_of_decided _ hyes, node_tree_cons, hget, hd]
            rcases src.lookup key with - | value'
            · rfl
            · exact (ih value value').trans (Tree.node_merge_of_decided _ hv)
          · have hnot : ¬(Json.object dst).tree.Decided (key :: path) := by
              rw [hdecided, hget, hd]
              rintro ⟨value', heq, hv'⟩
              exact hv (some.inj heq ▸ hv')
            rw [Tree.node_merge_of_not_decided _ hnot, node_tree_cons, hget]
            rcases src.lookup key with - | value'
            · exact eq_none_iff_forall_ne_some.mpr fun x hx ↦ hv (.inl ⟨x, hx⟩)
            · exact (ih value value').trans (Tree.node_merge_of_not_decided _ hv)
      · have hstays : deepMerge (.object dst) src = .object dst := by
          rcases src with _ | _ | _ | _ | _ | src <;> try rfl
          exact absurd ⟨src, rfl⟩ hsrc
        have hnone : src.get key = none := by
          rcases src with _ | _ | _ | _ | _ | src <;> try rfl
          exact absurd ⟨src, rfl⟩ hsrc
        rw [hstays]
        by_cases hd : (Json.object dst).tree.Decided (key :: path)
        · rw [Tree.node_merge_of_decided _ hd]
        · rw [Tree.node_merge_of_not_decided _ hd, node_tree_cons src, hnone]
          exact eq_none_iff_forall_ne_some.mpr fun x hx ↦ hd (.inl ⟨x, hx⟩)
    · have hstays : deepMerge dst src = dst := by
        rcases dst with _ | _ | _ | _ | _ | dst <;> try rfl
        exact absurd ⟨dst, rfl⟩ hdst
      have hleaf : dst.node = .leaf dst := by
        rcases dst with _ | _ | _ | _ | _ | dst <;> try rfl
        exact absurd ⟨dst, rfl⟩ hdst
      rw [hstays, Tree.node_merge_of_decided _ (decided_of_node_leaf hleaf _)]

/-! ### Configs as trees -/

/-- Configs up to the order of the keys of their objects. -/
def Configs.trees (configs : Configs) : String → Option (Tree String Json) :=
  fun name ↦ (configs name).map Json.tree

/-- A contribution up to the order of the keys of its objects. -/
def contribution (part : String × Json) : String × Tree String Json := (part.1, part.2.tree)

theorem tree_empty : (Json.object []).tree = Tree.empty := by
  ext1
  funext path
  rcases path with - | ⟨key, path⟩ <;> rfl

theorem trees_mergeInto (configs : Configs) (target : String) (value : Json) :
    (mergeInto configs target value).trees = contribute configs.trees (target, value.tree) := by
  funext name
  rw [Configs.trees, mergeInto]
  by_cases hname : name = target
  · rw [hname, update_self, contribute_self rfl, map_some, tree_deepMerge]
    rcases hc : configs target with - | config
    · rw [getD_none, tree_empty, Configs.trees, hc]
      rfl
    · rw [getD_some, Configs.trees, hc]
      rfl
  · rw [update_of_ne hname, contribute_of_ne hname]
    rfl

theorem trees_update_none (configs : Configs) (name : String) :
    Configs.trees (Function.update configs name none) =
      Function.update configs.trees name none := by
  funext name'
  rw [Configs.trees]
  by_cases h : name' = name
  · rw [h, update_self, update_self]
    rfl
  · rw [update_of_ne h, update_of_ne h]
    rfl

theorem trees_foldl_mergeInto (configs : Configs) (parts : List (String × Json)) :
    Configs.trees (parts.foldl (fun configs part ↦ mergeInto configs part.1 part.2) configs) =
      contributeAll configs.trees (parts.map contribution) := by
  induction parts generalizing configs with
  | nil => rfl
  | cons part parts ih =>
    rw [foldl_cons, ih, trees_mergeInto]
    rfl

end WaferRun
