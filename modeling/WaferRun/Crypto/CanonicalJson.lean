import Mathlib.Data.String.Basic
import WaferRun.Lib.SortedKeys
import WaferRun.Runtime.ConfigExpand

/-!
# Canonical JSON

The keys of an object may have been inserted in any order. Before claims are signed the objects in
them are sorted at every depth. Two values are then equal if and only if they were the same: item
by item in arrays, key by key in objects (`Json.sortAllObjects_eq_iff`).
-/

open Option

open List

namespace WaferRun

open SortedKeys

/-- A value without floats. Its integers have 64 bits and the keys of its objects are distinct. -/
inductive Json.Plain : Json → Prop
  | null : Plain .null
  | bool (b : Bool) : Plain (.bool b)
  | posInt {n : ℕ} (h : n < 2 ^ 64) : Plain (.number (.posInt n))
  | negInt {n : ℕ} (hpos : 0 < n) (h : n ≤ 2 ^ 63) : Plain (.number (.negInt n))
  | string (s : String) : Plain (.string s)
  | array {items : List Json} (h : ∀ v ∈ items, Plain v) : Plain (.array items)
  | object {fields : List (String × Json)} (hkeys : DistinctKeys fields)
    (h : ∀ e ∈ fields, Plain e.2) : Plain (.object fields)

/-- Two values are the same: arrays item by item, objects key by key. -/
inductive Json.Same : Json → Json → Prop
  | null : Same .null .null
  | bool (b : Bool) : Same (.bool b) (.bool b)
  | number (n : JsonNumber) : Same (.number n) (.number n)
  | string (s : String) : Same (.string s) (.string s)
  | array {items items' : List Json} (hlength : items.length = items'.length)
    (h : ∀ (i : ℕ) v w, items[i]? = some v → items'[i]? = some w → Same v w) :
    Same (.array items) (.array items')
  | object {fields fields' : List (String × Json)}
    (hkeys : ∀ key, fields.lookup key = none ↔ fields'.lookup key = none)
    (h : ∀ key v w, fields.lookup key = some v → fields'.lookup key = some w → Same v w) :
    Same (.object fields) (.object fields')

/-! ## Nesting -/

mutual

/-- How deep arrays and objects are nested in a value. -/
def Json.depth : Json → ℕ
  | .array items => Json.itemsDepth items + 1
  | .object fields => Json.fieldsDepth fields + 1
  | _ => 0

def Json.itemsDepth : List Json → ℕ
  | [] => 0
  | v :: items => max v.depth (Json.itemsDepth items)

def Json.fieldsDepth : List (String × Json) → ℕ
  | [] => 0
  | (_, v) :: fields => max v.depth (Json.fieldsDepth fields)

end

theorem Json.itemsDepth_le {items : List Json} {n : ℕ} :
    itemsDepth items ≤ n ↔ ∀ v ∈ items, v.depth ≤ n := by
  induction items with
  | nil => simp [itemsDepth]
  | cons v items ih => rw [itemsDepth, max_le_iff, ih, List.forall_mem_cons]

theorem Json.fieldsDepth_le {fields : List (String × Json)} {n : ℕ} :
    fieldsDepth fields ≤ n ↔ ∀ e ∈ fields, e.2.depth ≤ n := by
  induction fields with
  | nil => simp [fieldsDepth]
  | cons e fields ih => rw [fieldsDepth, max_le_iff, ih, List.forall_mem_cons]

/-! ## Sorting -/

mutual

def Json.sortAllObjects : Json → Json
  | .array items => .array (Json.sortItems items)
  | .object fields => .object (sortKeys (Json.sortFields fields))
  | v => v

def Json.sortItems : List Json → List Json
  | [] => []
  | v :: items => v.sortAllObjects :: Json.sortItems items

def Json.sortFields : List (String × Json) → List (String × Json)
  | [] => []
  | (key, v) :: fields => (key, v.sortAllObjects) :: Json.sortFields fields

end

namespace Json

theorem sortItems_eq_map (items : List Json) : sortItems items = items.map sortAllObjects := by
  induction items with
  | nil => rfl
  | cons v items ih => rw [sortItems, ih, map_cons]

theorem sortFields_eq_map (fields : List (String × Json)) :
    sortFields fields = fields.map fun e ↦ (e.1, e.2.sortAllObjects) := by
  induction fields with
  | nil => rfl
  | cons e fields ih => rw [sortFields, ih, map_cons]

theorem sortAllObjects_array (items : List Json) :
    (array items).sortAllObjects = array (items.map sortAllObjects) := by
  rw [sortAllObjects, sortItems_eq_map]

theorem sortAllObjects_object (fields : List (String × Json)) :
    (object fields).sortAllObjects =
      object (sortKeys (fields.map fun e ↦ (e.1, e.2.sortAllObjects))) := by
  rw [sortAllObjects, sortFields_eq_map]

theorem distinctKeys_map {fields : List (String × Json)} (h : DistinctKeys fields) (f : Json → Json) :
    DistinctKeys (fields.map fun e ↦ (e.1, f e.2)) := by
  rw [DistinctKeys, List.map_map]
  exact h

theorem induction_on {motive : Json → Prop} (v : Json)
    (h : ∀ v, (∀ items, v = array items → ∀ w ∈ items, motive w) →
      (∀ fields, v = object fields → ∀ e ∈ fields, motive e.2) → motive v) : motive v := by
  induction hn : sizeOf v using Nat.strong_induction_on generalizing v with
  | _ n ih =>
    refine h v ?_ ?_
    · rintro items rfl w hw
      have hlt := sizeOf_lt_of_mem hw
      refine ih (sizeOf w) ?_ w rfl
      rw [← hn, array.sizeOf_spec]
      omega
    · rintro fields rfl e he
      have hlt := sizeOf_lt_of_mem he
      have hsnd : sizeOf e.2 < sizeOf e := by
        rcases e with ⟨key, v⟩
        rw [Prod.mk.sizeOf_spec]
        dsimp only
        omega
      refine ih (sizeOf e.2) ?_ e.2 rfl
      rw [← hn, object.sizeOf_spec]
      omega

/-- Sorting keeps the nesting. -/
theorem depth_sortAllObjects (v : Json) : v.sortAllObjects.depth = v.depth := by
  induction v using induction_on with
  | h v hitems hfields =>
    cases v with
    | array items =>
      rw [sortAllObjects_array, depth, depth]
      congr 1
      refine eq_of_forall_ge_iff fun n ↦ ?_
      rw [itemsDepth_le, itemsDepth_le, List.forall_mem_map]
      exact forall₂_congr fun v hv ↦ by rw [hitems items rfl v hv]
    | object fields =>
      rw [sortAllObjects_object, depth, depth]
      congr 1
      refine eq_of_forall_ge_iff fun n ↦ ?_
      simp only [fieldsDepth_le, mem_sortKeys, List.forall_mem_map]
      exact forall₂_congr fun e he ↦ by rw [hfields fields rfl e he]
    | null | bool | number | string => rfl

/-- The keys of all objects in a value ascend. -/
inductive Sorted : Json → Prop
  | null : Sorted .null
  | bool (b : Bool) : Sorted (.bool b)
  | number (n : JsonNumber) : Sorted (.number n)
  | string (s : String) : Sorted (.string s)
  | array {items : List Json} (h : ∀ v ∈ items, Sorted v) : Sorted (.array items)
  | object {fields : List (String × Json)} (hkeys : Ascending fields)
    (h : ∀ e ∈ fields, Sorted e.2) : Sorted (.object fields)

theorem Plain.sortAllObjects {v : Json} (h : v.Plain) :
    v.sortAllObjects.Plain ∧ v.sortAllObjects.Sorted := by
  induction v using induction_on with
  | h v hitems hfields =>
    cases h with
    | null => exact ⟨.null, .null⟩
    | bool b => exact ⟨.bool b, .bool b⟩
    | posInt h => exact ⟨.posInt h, .number _⟩
    | negInt hpos h => exact ⟨.negInt hpos h, .number _⟩
    | string s => exact ⟨.string s, .string s⟩
    | @array items h =>
      have hall : ∀ w ∈ items.map Json.sortAllObjects, w.Plain ∧ w.Sorted := by
        intro w hw
        obtain ⟨v, hv, rfl⟩ := List.mem_map.mp hw
        exact hitems items rfl v hv (h v hv)
      rw [sortAllObjects_array]
      exact ⟨.array fun w hw ↦ (hall w hw).1, .array fun w hw ↦ (hall w hw).2⟩
    | @object fields hkeys h =>
      have hall : ∀ e ∈ sortKeys (fields.map fun e ↦ (e.1, e.2.sortAllObjects)),
          e.2.Plain ∧ e.2.Sorted := by
        intro e he
        obtain ⟨d, hd, rfl⟩ := List.mem_map.mp (mem_sortKeys.mp he)
        exact hfields fields rfl d hd (h d hd)
      have hdistinct := distinctKeys_map hkeys Json.sortAllObjects
      rw [sortAllObjects_object]
      exact ⟨.object (hdistinct.of_perm (sortKeys_perm _).symm) fun e he ↦ (hall e he).1,
        .object (ascending_sortKeys hdistinct) fun e he ↦ (hall e he).2⟩

theorem Sorted.sortAllObjects_eq {v : Json} (h : v.Sorted) : v.sortAllObjects = v := by
  induction v using induction_on with
  | h v hitems hfields =>
    cases h with
    | null | bool | number | string => rfl
    | @array items h =>
      rw [sortAllObjects_array, List.map_congr_left fun v hv ↦ hitems items rfl v hv (h v hv),
        List.map_id']
    | @object fields hkeys h =>
      have hmap : ∀ e ∈ fields, (e.1, e.2.sortAllObjects) = id e :=
        fun e he ↦ Prod.ext rfl (hfields fields rfl e he (h e he))
      rw [sortAllObjects_object, List.map_congr_left hmap, List.map_id, hkeys.sortKeys_eq]

/-! ## Sorted values are equal if they were the same -/

theorem map_sortAllObjects_eq_iff {items items' : List Json} :
    items.map sortAllObjects = items'.map sortAllObjects ↔ items.length = items'.length ∧
      ∀ (i : ℕ) v w, items[i]? = some v → items'[i]? = some w →
        v.sortAllObjects = w.sortAllObjects := by
  constructor
  · intro h
    refine ⟨by simpa using congrArg List.length h, fun i v w hv hw ↦ ?_⟩
    have hi := congrArg (·[i]?) h
    simp only [List.getElem?_map, hv, hw, map_some] at hi
    exact some.inj hi
  · rintro ⟨hlength, h⟩
    refine ext_getElem? fun i ↦ ?_
    rw [List.getElem?_map, List.getElem?_map]
    rcases hv : items[i]? with _ | v
    · have hle := List.getElem?_eq_none_iff.mp hv
      rw [List.getElem?_eq_none_iff.mpr (hlength ▸ hle)]
    · have hlt := (List.getElem?_eq_some_iff.mp hv).1
      have hw := List.getElem?_eq_getElem (hlength ▸ hlt : i < items'.length)
      rw [hw, map_some, map_some, h i v _ hv hw]

theorem sortAllObjects_object_eq_iff {fields fields' : List (String × Json)}
    (h : DistinctKeys fields) (h' : DistinctKeys fields') :
    (object fields).sortAllObjects = (object fields').sortAllObjects ↔
      (∀ key, fields.lookup key = none ↔ fields'.lookup key = none) ∧
      ∀ key v w, fields.lookup key = some v → fields'.lookup key = some w →
        v.sortAllObjects = w.sortAllObjects := by
  rw [sortAllObjects_object, sortAllObjects_object, object.injEq,
    sortKeys_eq_iff (distinctKeys_map h _) (distinctKeys_map h' _),
    perm_iff_lookup (distinctKeys_map h _) (distinctKeys_map h' _)]
  simp only [lookup_map]
  constructor
  · intro hall
    refine ⟨fun key ↦ ?_, fun key v w hv hw ↦ ?_⟩
    · rw [← map_eq_none_iff (f := sortAllObjects), hall key, map_eq_none_iff]
    · have hkey := hall key
      rw [hv, hw] at hkey
      exact some.inj hkey
  · rintro ⟨hnone, hsome⟩ key
    rcases hv : fields.lookup key with _ | v
    · rw [(hnone key).mp hv]
    · rcases hw : fields'.lookup key with _ | w
      · rw [(hnone key).mpr hw] at hv
        cases hv
      · rw [map_some, map_some, hsome key v w hv hw]

theorem mem_of_lookup {fields : List (String × Json)} {key : String} {v : Json}
    (h : fields.lookup key = some v) : (key, v) ∈ fields := by
  induction fields with
  | nil => cases h
  | cons e fields ih =>
    rw [lookup_cons] at h
    split at h
    · rename_i heq
      obtain rfl := some.inj h
      exact eq_of_beq heq ▸ mem_cons_self
    · exact mem_cons_of_mem _ (ih h)

theorem sortAllObjects_eq_iff_same_of_leaf {v w : Json} (harray : ∀ items, v ≠ array items)
    (hobject : ∀ fields, v ≠ object fields) :
    v.sortAllObjects = w.sortAllObjects ↔ Same v w := by
  have hsort : v.sortAllObjects = v := by
    rcases v with _ | _ | _ | _ | items | fields
    case array => exact absurd rfl (harray items)
    case object => exact absurd rfl (hobject fields)
    all_goals rfl
  trans v = w
  · rw [hsort]
    rcases w with _ | _ | _ | _ | items | fields
    case array =>
      rw [sortAllObjects_array]
      exact iff_of_false (harray _) (harray _)
    case object =>
      rw [sortAllObjects_object]
      exact iff_of_false (hobject _) (hobject _)
    all_goals exact Iff.rfl
  · constructor
    · rintro rfl
      rcases v with _ | b | n | s | items | fields
      case null => exact .null
      case bool => exact .bool b
      case number => exact .number n
      case string => exact .string s
      case array => exact absurd rfl (harray items)
      case object => exact absurd rfl (hobject fields)
    · rintro (_ | _ | _ | _ | _ | _)
      case array => exact absurd rfl (harray _)
      case object => exact absurd rfl (hobject _)
      all_goals rfl

/-- **Sorting decides.** Plain values are equal once they are sorted if and only if they are the
same. -/
theorem sortAllObjects_eq_iff {v w : Json} (hv : v.Plain) (hw : w.Plain) :
    v.sortAllObjects = w.sortAllObjects ↔ Same v w := by
  induction v using induction_on generalizing w with
  | h v hitems hfields =>
    cases hv with
    | null | bool | posInt | negInt | string =>
      exact sortAllObjects_eq_iff_same_of_leaf (by rintro _ ⟨⟩) (by rintro _ ⟨⟩)
    | @array items h =>
      cases hw with
      | @array items' h' =>
        have hiff : (∀ (i : ℕ) v w, items[i]? = some v → items'[i]? = some w →
            v.sortAllObjects = w.sortAllObjects) ↔
            ∀ (i : ℕ) v w, items[i]? = some v → items'[i]? = some w → Same v w := by
          refine forall_congr' fun i ↦ forall₂_congr fun v w ↦ forall₂_congr fun hv hw ↦ ?_
          have hmem := mem_of_getElem? hv
          exact hitems items rfl v hmem (h v hmem) (h' w (mem_of_getElem? hw))
        rw [sortAllObjects_array, sortAllObjects_array, array.injEq, map_sortAllObjects_eq_iff, hiff]
        exact ⟨fun hsame ↦ .array hsame.1 hsame.2, by rintro ⟨⟩; exact ⟨‹_›, ‹_›⟩⟩
      | object =>
        rw [sortAllObjects_array, sortAllObjects_object]
        exact iff_of_false nofun nofun
      | _ => exact iff_of_false (by rw [sortAllObjects_array]; nofun) nofun
    | @object fields hkeys h =>
      cases hw with
      | @object fields' hkeys' h' =>
        have hiff : (∀ key v w, fields.lookup key = some v → fields'.lookup key = some w →
            v.sortAllObjects = w.sortAllObjects) ↔
            ∀ key v w, fields.lookup key = some v → fields'.lookup key = some w → Same v w := by
          refine forall_congr' fun key ↦ forall₂_congr fun v w ↦ forall₂_congr fun hv hw ↦ ?_
          have hmem := mem_of_lookup hv
          exact hfields fields rfl _ hmem (h _ hmem) (h' _ (mem_of_lookup hw))
        rw [sortAllObjects_object_eq_iff hkeys hkeys', hiff]
        exact ⟨fun hsame ↦ .object hsame.1 hsame.2, by rintro ⟨⟩; exact ⟨‹_›, ‹_›⟩⟩
      | array =>
        rw [sortAllObjects_array, sortAllObjects_object]
        exact iff_of_false nofun nofun
      | _ => exact iff_of_false (by rw [sortAllObjects_object]; nofun) nofun

end Json

end WaferRun
