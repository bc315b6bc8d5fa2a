import WaferRun.Discovery.Inlining
import WaferRun.Lib.Unfolding

/-!
# What a schema unfolds into

Two JSON values are the same if the same stands at the end of each path: the order of the keys of an
object does not count (`Json.Alike`). Values that `==` takes for equal are the same
(`Json.alike_of_equal`).

A schema is a graph. Its nodes are positions: a schema, a map from names to schemas, or data that a
keyword holds verbatim. A string `$ref` leads to the schema that it names; `$defs` is where
definitions are kept and no part of the graph. What a reference names depends on the document, so
the graph takes a way to resolve references (`schemaGraph`).
-/

open List Option

namespace WaferRun

open Unfolding

/-! ## Values -/

inductive Step
  | key (key : String)
  | index (index : ℕ)
deriving DecidableEq

/-- A value without what is in it. -/
inductive Label
  | null
  | bool (b : Bool)
  | number (n : JsonNumber)
  | string (s : String)
  | array
  | object
deriving DecidableEq

def JsonNumber.normal : JsonNumber → JsonNumber
  | .float bits => if bits = 0x8000000000000000 then .float 0 else .float bits
  | n => n

namespace Json

def label : Json → Label
  | .null => .null
  | .bool b => .bool b
  | .number n => .number n.normal
  | .string s => .string s
  | .array _ => .array
  | .object _ => .object

def child : Json → Step → Option Json
  | .object fields, .key key => fields.lookup key
  | .array items, .index i => items[i]?
  | _, _ => none

def graph : Graph Json Step Label := ⟨label, child⟩

/-- The same stands at the end of each path. -/
def Alike (v w : Json) : Prop := graph.unfold v = graph.unfold w

mutual

/-- `==` of values: arrays item by item, objects key by key. -/
def equal : Json → Json → Bool
  | .array items, .array items' => equalItems items items'
  | .object fields, .object fields' =>
    fields.length = fields'.length && equalFields fields fields'
  | .array _, _ | .object _, _ => false
  | v, w => v.label = w.label

def equalItems : List Json → List Json → Bool
  | [], [] => true
  | v :: items, w :: items' => equal v w && equalItems items items'
  | _, _ => false

def equalFields : List (String × Json) → List (String × Json) → Bool
  | [], _ => true
  | (key, v) :: fields, fields' =>
    (match fields'.lookup key with
      | some w => equal v w
      | none => false) && equalFields fields fields'

end

/-! ### What is equal is the same -/

theorem rel_of_equalItems {items items' : List Json} (h : equalItems items items' = true) (i : ℕ) :
    Option.Rel (fun v w ↦ equal v w = true) items[i]? items'[i]? := by
  induction items generalizing items' i with
  | nil =>
    rcases items' with - | ⟨w, items'⟩
    · exact .none
    · exact absurd h nofun
  | cons v items ih =>
    rcases items' with - | ⟨w, items'⟩
    · exact absurd h nofun
    · rw [equalItems, Bool.and_eq_true] at h
      rcases i with - | i
      · exact .some h.1
      · exact ih h.2 i

theorem lookup_of_equalFields {fields fields' : List (String × Json)}
    (h : equalFields fields fields' = true) {key : String} {v : Json}
    (hv : fields.lookup key = some v) :
    ∃ w, fields'.lookup key = some w ∧ equal v w = true := by
  induction fields with
  | nil => exact absurd hv nofun
  | cons field fields ih =>
    obtain ⟨key', v'⟩ := field
    rw [equalFields, Bool.and_eq_true] at h
    rw [lookup_cons] at hv
    split at hv
    · rename_i hkey
      obtain rfl : key = key' := beq_iff_eq.mp hkey
      obtain rfl := some.inj hv
      split at h
      · rename_i w hw
        exact ⟨w, hw, h.1⟩
      · exact absurd h.1 nofun
    · exact ih h.2 hv

theorem lookup_isSome_of_equalFields {fields fields' : List (String × Json)}
    (hkeys : (fields.map Prod.fst).Nodup) (hlength : fields.length = fields'.length)
    (h : equalFields fields fields' = true) {key : String}
    (hkey : (fields'.lookup key).isSome = true) : (fields.lookup key).isSome = true := by
  have hmem {l : List (String × Json)} {k : String} :
      (l.lookup k).isSome = true ↔ k ∈ l.map Prod.fst := by
    rw [lookup_isSome_iff, List.mem_map]
    exact ⟨fun ⟨p, hp, hk⟩ ↦ ⟨p, hp, (beq_iff_eq.mp hk).symm⟩,
      fun ⟨p, hp, hk⟩ ↦ ⟨p, hp, beq_iff_eq.mpr hk.symm⟩⟩
  have hsub : fields.map Prod.fst ⊆ fields'.map Prod.fst := by
    intro k hk
    obtain ⟨v, hv⟩ := isSome_iff_exists.mp (hmem.mpr hk)
    obtain ⟨w, hw, -⟩ := lookup_of_equalFields h hv
    exact hmem.mp (hw ▸ rfl)
  have hperm : (fields.map Prod.fst).Perm (fields'.map Prod.fst) := by
    refine (subperm_of_subset hkeys hsub).perm_of_length_le ?_
    rw [length_map, length_map, hlength]
  exact hmem.mpr (hperm.mem_iff.mpr (hmem.mp hkey))

theorem label_eq_of_equal {v w : Json} (h : equal v w = true) : v.label = w.label := by
  rcases v with - | b | n | s | items | fields <;> rcases w with - | b' | n' | s' | items' | fields'
  case array.array => rfl
  case object.object => rfl
  all_goals exact of_decide_eq_true h

open Discovery in
/-- **Values that are equal are the same.** -/
theorem alike_of_equal {v w : Json} (hv : KeysDistinct v) (hw : KeysDistinct w)
    (h : equal v w = true) : Alike v w := by
  let R (v w : Json) : Prop := KeysDistinct v ∧ KeysDistinct w ∧ equal v w = true
  have hsim : Simulates graph graph R := by
    refine ⟨fun h ↦ label_eq_of_equal h.2.2, ?_⟩
    rintro v w ⟨hv, hw, h⟩ step
    rcases v with - | b | n | s | items | fields
    case array =>
      rcases w with - | b | n | s | items' | fields'
      case array =>
        rcases step with key | i
        · exact .none
        · have hrel := rel_of_equalItems h i
          rw [KeysDistinct] at hv hw
          change Option.Rel R items[i]? items'[i]?
          rcases hi : items[i]? with - | v <;> rcases hi' : items'[i]? with - | w <;>
            rw [hi, hi'] at hrel
          · exact .none
          · cases hrel
          · cases hrel
          · cases hrel with
            | some hrel =>
              exact .some ⟨hv.of_mem (List.mem_of_getElem? hi), hw.of_mem (List.mem_of_getElem? hi'),
                hrel⟩
      all_goals cases h
    case object =>
      rcases w with - | b | n | s | items' | fields'
      case object =>
        rw [equal, Bool.and_eq_true, decide_eq_true_eq] at h
        rcases step with key | i
        · change Option.Rel R (fields.lookup key) (fields'.lookup key)
          rcases hkey : fields.lookup key with - | v
          · rcases hkey' : fields'.lookup key with - | w
            · exact .none
            · have hsome := lookup_isSome_of_equalFields hv.1 h.1 h.2
                (isSome_of_eq_some hkey')
              rw [hkey] at hsome
              cases hsome
          · obtain ⟨w, hkey', hequal⟩ := lookup_of_equalFields h.2 hkey
            rw [hkey']
            exact .some ⟨KeysDistinct.get hv hkey, KeysDistinct.get hw hkey', hequal⟩
        · exact .none
      all_goals cases h
    all_goals
      rcases w with - | b' | n' | s' | items' | fields'
      case array => cases label_eq_of_equal h
      case object => cases label_eq_of_equal h
      all_goals exact .none
  exact hsim.unfold_eq ⟨hv, hw, h⟩

theorem Alike.refl (v : Json) : v.Alike v := rfl

theorem Alike.symm {v w : Json} (h : v.Alike w) : w.Alike v := Eq.symm h

theorem Alike.trans {u v w : Json} (h : u.Alike v) (h' : v.Alike w) : u.Alike w := Eq.trans h h'

theorem Alike.label {v w : Json} (h : v.Alike w) : v.label = w.label := label_eq_of_unfold_eq h

theorem Alike.child {v w : Json} (h : v.Alike w) {step : Step} {v' : Json}
    (hv : v.child step = some v') : ∃ w', w.child step = some w' ∧ v'.Alike w' :=
  exists_next_of_unfold_eq h hv

theorem Alike.string {s : String} {w : Json} (h : (Json.string s).Alike w) : w = .string s := by
  have hlabel := h.label
  rcases w with - | b | n | s' | items | fields
  case string => exact congrArg Json.string (Label.string.inj hlabel).symm
  all_goals exact absurd hlabel nofun

theorem Alike.object {fields : List (String × Json)} {w : Json} (h : (Json.object fields).Alike w) :
    ∃ fields', w = .object fields' := by
  have hlabel := h.label
  rcases w with - | b | n | s' | items | fields'
  case object => exact ⟨fields', rfl⟩
  all_goals exact absurd hlabel nofun

theorem Alike.array {items : List Json} {w : Json} (h : (Json.array items).Alike w) :
    ∃ items', w = .array items' := by
  have hlabel := h.label
  rcases w with - | b | n | s' | items' | fields'
  case array => exact ⟨items', rfl⟩
  all_goals exact absurd hlabel nofun

end Json

namespace Discovery

/-! ## Positions -/

mutual

/-- The strings of the references in a value that is read as a schema. -/
def refStrings : Json → List String
  | .object fields => (stringRef fields).toList ++ memberRefStrings fields
  | .array items => itemRefStrings items
  | _ => []

def memberRefStrings : List (String × Json) → List String
  | [] => []
  | (key, value) :: fields =>
    (if key = "$ref" ∨ key = "$defs" then []
      else match keywordValue key, value with
        | .literal, _ => []
        | .subschemaMap, .object members => namedRefStrings members
        | _, value => refStrings value) ++ memberRefStrings fields

def namedRefStrings : List (String × Json) → List String
  | [] => []
  | (_, value) :: fields => refStrings value ++ namedRefStrings fields

def itemRefStrings : List Json → List String
  | [] => []
  | item :: items => refStrings item ++ itemRefStrings items

end

inductive Position
  | schema (v : Json)
  | names (fields : List (String × Json))
  | data (v : Json)

namespace Position

def behind (key : String) (value : Json) : Position :=
  match keywordValue key, value with
  | .literal, value => .data value
  | .subschemaMap, .object members => .names members
  | _, value => .schema value

def value : Position → Json
  | .schema v | .data v => v
  | .names fields => .object fields

/-- The `$ref` of a schema, where it is a string. -/
def reference : Position → Option String
  | .schema (.object fields) => stringRef fields
  | _ => none

def inner : Position → Step → Option Position
  | .schema (.object fields), .key key =>
    if key = "$ref" ∨ key = "$defs" then none else (fields.lookup key).map (behind key)
  | .schema (.array items), .index i => items[i]?.map .schema
  | .names fields, .key key => (fields.lookup key).map .schema
  | .data v, step => (v.child step).map .data
  | _, _ => none

def refStrings : Position → List String
  | .schema v => Discovery.refStrings v
  | .names fields => namedRefStrings fields
  | .data _ => []

/-- What a reference leads to. One that names nothing is data. -/
def target (resolve : String → Option Json) (reference : String) : Position :=
  match resolve reference with
  | some v => .schema v
  | none => .data (.string reference)

def next (resolve : String → Option Json) (p : Position) (step : Step) : Option Position :=
  match p.reference with
  | some reference =>
    if step = .key "$ref" then some (target resolve reference) else p.inner step
  | none => p.inner step

end Position

def schemaGraph (resolve : String → Option Json) : Graph Position Step Label :=
  ⟨fun p ↦ p.value.label, Position.next resolve⟩

def unfolding (resolve : String → Option Json) (v : Json) : List Step → Option Label :=
  (schemaGraph resolve).unfold (.schema v)

namespace Position

/-- The same stands at two positions of the same kind. -/
inductive Alike : Position → Position → Prop
  | schema {v w : Json} (h : v.Alike w) : Alike (.schema v) (.schema w)
  | names {fields fields' : List (String × Json)}
    (h : (Json.object fields).Alike (.object fields')) : Alike (.names fields) (.names fields')
  | data {v w : Json} (h : v.Alike w) : Alike (.data v) (.data w)

theorem Alike.symm {p q : Position} (h : p.Alike q) : q.Alike p := by
  cases h with
  | schema h => exact .schema h.symm
  | names h => exact .names h.symm
  | data h => exact .data h.symm

theorem Alike.trans {p q r : Position} (h : p.Alike q) (h' : q.Alike r) : p.Alike r := by
  cases h with
  | schema h => cases h' with | schema h' => exact .schema (h.trans h')
  | names h => cases h' with | names h' => exact .names (h.trans h')
  | data h => cases h' with | data h' => exact .data (h.trans h')

theorem Alike.value {p q : Position} (h : p.Alike q) : p.value.Alike q.value := by
  cases h with
  | schema h => exact h
  | names h => exact h
  | data h => exact h

theorem alike_behind {v w : Json} (h : v.Alike w) (key : String) :
    (behind key v).Alike (behind key w) := by
  unfold behind
  rcases keywordValue key
  case literal => exact .data h
  case subschemaMap =>
    rcases v with - | b | n | s | items | fields
    case object =>
      obtain ⟨fields', rfl⟩ := h.object
      exact .names h
    all_goals
      rcases w with - | b' | n' | s' | items' | fields'
      case object => exact absurd h.label nofun
      all_goals exact .schema h
  all_goals exact .schema h

theorem stringRef_eq_some_iff {fields : List (String × Json)} {r : String} :
    stringRef fields = some r ↔ fields.lookup "$ref" = some (.string r) := by
  unfold stringRef
  split
  · rename_i r' h
    rw [h, some_inj, some_inj, Json.string.injEq]
  · rename_i h
    exact ⟨fun heq ↦ absurd heq nofun, fun heq ↦ absurd heq (h r)⟩

theorem Alike.reference {p q : Position} (h : p.Alike q) {r : String}
    (hr : p.reference = some r) : q.reference = some r := by
  cases h with
  | names h => exact absurd hr nofun
  | data h => exact absurd hr nofun
  | @schema v w h =>
    rcases v with - | b | n | s | items | fields
    case object =>
      obtain ⟨fields', rfl⟩ := h.object
      obtain ⟨w, hw, hsame⟩ := @Json.Alike.child _ _ h (.key "$ref") _ (stringRef_eq_some_iff.mp hr)
      rw [hsame.string] at hw
      exact stringRef_eq_some_iff.mpr hw
    all_goals exact absurd hr nofun

theorem Alike.inner {p q : Position} (h : p.Alike q) {step : Step} {p' : Position}
    (hp : p.inner step = some p') : ∃ q', q.inner step = some q' ∧ p'.Alike q' := by
  cases h with
  | @names fields fields' h =>
    rcases step with key | i
    · obtain ⟨v, hv, rfl⟩ := map_eq_some_iff.mp hp
      obtain ⟨w, hw, hsame⟩ := @Json.Alike.child _ _ h (.key key) _ hv
      exact ⟨.schema w, map_eq_some_iff.mpr ⟨w, hw, rfl⟩, .schema hsame⟩
    · exact absurd hp nofun
  | data h =>
    obtain ⟨v, hv, rfl⟩ := map_eq_some_iff.mp hp
    obtain ⟨w, hw, hsame⟩ := h.child hv
    exact ⟨.data w, map_eq_some_iff.mpr ⟨w, hw, rfl⟩, .data hsame⟩
  | @schema v w h =>
    rcases v with - | b | n | s | items | fields
    case array =>
      obtain ⟨items', rfl⟩ := h.array
      rcases step with key | i
      · exact absurd hp nofun
      · obtain ⟨v, hv, rfl⟩ := map_eq_some_iff.mp hp
        obtain ⟨w, hw, hsame⟩ := @Json.Alike.child _ _ h (.index i) _ hv
        exact ⟨.schema w, map_eq_some_iff.mpr ⟨w, hw, rfl⟩, .schema hsame⟩
    case object =>
      obtain ⟨fields', rfl⟩ := h.object
      rcases step with key | i
      · rw [Position.inner] at hp ⊢
        split at hp
        · exact absurd hp nofun
        · rename_i hkey
          obtain ⟨v, hv, rfl⟩ := map_eq_some_iff.mp hp
          obtain ⟨w, hw, hsame⟩ := @Json.Alike.child _ _ h (.key key) _ hv
          rw [if_neg hkey]
          exact ⟨behind key w, map_eq_some_iff.mpr ⟨w, hw, rfl⟩, alike_behind hsame key⟩
      · exact absurd hp nofun
    all_goals exact absurd hp nofun

/-! ### The references at a position -/

theorem value_behind (key : String) (v : Json) : (behind key v).value = v := by
  unfold behind
  split <;> rfl

theorem child_of_inner {p q : Position} {step : Step} (h : p.inner step = some q) :
    p.value.child step = some q.value := by
  unfold Position.inner at h
  split at h
  · split at h
    · exact absurd h nofun
    · obtain ⟨v, hv, rfl⟩ := map_eq_some_iff.mp h
      rw [value_behind]
      exact hv
  · obtain ⟨v, hv, rfl⟩ := map_eq_some_iff.mp h
    exact hv
  · obtain ⟨v, hv, rfl⟩ := map_eq_some_iff.mp h
    exact hv
  · obtain ⟨v, hv, rfl⟩ := map_eq_some_iff.mp h
    exact hv
  · exact absurd h nofun

def Distinct (p : Position) : Prop := KeysDistinct p.value

theorem keysDistinct_child {v w : Json} {step : Step} (hv : KeysDistinct v)
    (h : v.child step = some w) : KeysDistinct w := by
  rcases v with - | b | n | s | items | fields
  case object =>
    rcases step with key | i
    · exact KeysDistinct.get hv h
    · cases h
  case array =>
    rcases step with key | i
    · cases h
    · rw [KeysDistinct] at hv
      exact hv.of_mem (List.mem_of_getElem? h)
  all_goals cases h

theorem Distinct.inner {p q : Position} {step : Step} (hp : p.Distinct)
    (h : p.inner step = some q) : q.Distinct :=
  keysDistinct_child hp (child_of_inner h)

theorem sizeOf_child_lt {v w : Json} {step : Step} (h : v.child step = some w) :
    sizeOf w < sizeOf v := by
  rcases v with - | b | n | s | items | fields
  case object =>
    rcases step with key | i
    · obtain ⟨l, r, hsplit, -⟩ := lookup_eq_some_iff.mp h
      have hmem : (key, w) ∈ fields := hsplit ▸ mem_append_right _ mem_cons_self
      have hlt := sizeOf_lt_of_mem hmem
      rw [Prod.mk.sizeOf_spec] at hlt
      rw [Json.object.sizeOf_spec]
      omega
    · exact absurd h nofun
  case array =>
    rcases step with key | i
    · exact absurd h nofun
    · have hlt := sizeOf_lt_of_mem (List.mem_of_getElem? h)
      rw [Json.array.sizeOf_spec]
      omega
  all_goals exact absurd h nofun

theorem memberRefStrings_cons (key : String) (v : Json) (fields : List (String × Json)) :
    memberRefStrings ((key, v) :: fields) =
      (if key = "$ref" ∨ key = "$defs" then [] else (behind key v).refStrings) ++
        memberRefStrings fields := by
  conv_lhs => unfold memberRefStrings
  congr 1
  refine if_congr Iff.rfl rfl ?_
  unfold behind
  split <;> rfl

theorem memberRefStrings_eq (fields : List (String × Json)) :
    memberRefStrings fields = fields.flatMap fun f ↦
      if f.1 = "$ref" ∨ f.1 = "$defs" then [] else (behind f.1 f.2).refStrings := by
  induction fields with
  | nil => rfl
  | cons f fields ih =>
    obtain ⟨key, v⟩ := f
    rw [memberRefStrings_cons, ih, flatMap_cons]

theorem namedRefStrings_eq (fields : List (String × Json)) :
    namedRefStrings fields = fields.flatMap fun f ↦ Discovery.refStrings f.2 := by
  induction fields with
  | nil => rfl
  | cons f fields ih => rw [namedRefStrings, ih, flatMap_cons]

theorem itemRefStrings_eq (items : List Json) :
    itemRefStrings items = items.flatMap Discovery.refStrings := by
  induction items with
  | nil => rfl
  | cons v items ih => rw [itemRefStrings, ih, flatMap_cons]

theorem mem_iff_lookup {fields : List (String × Json)} (h : (fields.map Prod.fst).Nodup)
    {key : String} {v : Json} : (key, v) ∈ fields ↔ fields.lookup key = some v := by
  constructor
  · intro hmem
    obtain ⟨l, r, rfl⟩ := append_of_mem hmem
    refine lookup_eq_some_iff.mpr ⟨l, r, rfl, fun f hf ↦ ?_⟩
    rw [map_append, map_cons, nodup_middle, nodup_cons] at h
    rw [bne_iff_ne]
    intro hkey
    exact h.1 (mem_append_left _ (List.mem_map.mpr ⟨f, hf, hkey.symm⟩))
  · intro hlookup
    obtain ⟨l, r, rfl, -⟩ := lookup_eq_some_iff.mp hlookup
    exact mem_append_right _ mem_cons_self

/-- The references at a position are its own and those behind the steps within it. -/
theorem mem_refStrings_iff {p : Position} (hp : p.Distinct) {r : String} :
    r ∈ p.refStrings ↔ p.reference = some r ∨
      ∃ step q, p.inner step = some q ∧ r ∈ q.refStrings := by
  rcases p with v | fields | v
  · rcases v with - | b | n | s | items | fields
    case array =>
      have hrefs : (Position.schema (.array items)).refStrings = itemRefStrings items := rfl
      rw [hrefs, itemRefStrings_eq, mem_flatMap]
      constructor
      · rintro ⟨v, hv, hr⟩
        obtain ⟨i, hi⟩ := List.mem_iff_getElem?.mp hv
        exact Or.inr ⟨.index i, .schema v, map_eq_some_iff.mpr ⟨v, hi, rfl⟩, hr⟩
      · rintro (hown | ⟨step, q, hq, hr⟩)
        · exact absurd hown nofun
        · rcases step with key | i
          · exact absurd hq nofun
          · obtain ⟨v, hv, rfl⟩ := map_eq_some_iff.mp hq
            exact ⟨v, List.mem_of_getElem? hv, hr⟩
    case object =>
      have hrefs : (Position.schema (.object fields)).refStrings =
          (stringRef fields).toList ++ memberRefStrings fields := rfl
      have hlookup {key : String} {v : Json} := @mem_iff_lookup _ hp.1 key v
      rw [hrefs, memberRefStrings_eq, mem_append, mem_toList]
      refine or_congr Iff.rfl ?_
      rw [mem_flatMap]
      constructor
      · rintro ⟨⟨key, v⟩, hmem, hr⟩
        split_ifs at hr with hkey
        · exact absurd hr not_mem_nil
        · refine ⟨.key key, behind key v, ?_, hr⟩
          exact (if_neg hkey).trans (map_eq_some_iff.mpr ⟨v, hlookup.mp hmem, rfl⟩)
      · rintro ⟨step, q, hq, hr⟩
        rcases step with key | i
        · rw [Position.inner] at hq
          split at hq
          · exact absurd hq nofun
          · rename_i hkey
            obtain ⟨v, hv, rfl⟩ := map_eq_some_iff.mp hq
            refine ⟨(key, v), hlookup.mpr hv, ?_⟩
            rwa [if_neg hkey]
        · exact absurd hq nofun
    all_goals
      refine iff_of_false not_mem_nil ?_
      rintro (hown | ⟨_, _, hq, -⟩)
      · exact absurd hown nofun
      · exact absurd hq nofun
  · have hrefs : (Position.names fields).refStrings = namedRefStrings fields := rfl
    have hlookup {key : String} {v : Json} := @mem_iff_lookup _ hp.1 key v
    rw [hrefs, namedRefStrings_eq, mem_flatMap]
    constructor
    · rintro ⟨⟨key, v⟩, hmem, hr⟩
      exact Or.inr ⟨.key key, .schema v,
        map_eq_some_iff.mpr ⟨v, hlookup.mp hmem, rfl⟩, hr⟩
    · rintro (hown | ⟨step, q, hq, hr⟩)
      · exact absurd hown nofun
      · rcases step with key | i
        · obtain ⟨v, hv, rfl⟩ := map_eq_some_iff.mp hq
          exact ⟨(key, v), hlookup.mpr hv, hr⟩
        · exact absurd hq nofun
  · refine iff_of_false not_mem_nil ?_
    rintro (hown | ⟨step, q, hq, hr⟩)
    · exact absurd hown nofun
    · obtain ⟨v, -, rfl⟩ := map_eq_some_iff.mp hq
      exact absurd hr not_mem_nil

theorem Alike.mem_refStrings {p q : Position} (h : p.Alike q) (hp : p.Distinct) (hq : q.Distinct)
    {r : String} (hr : r ∈ p.refStrings) : r ∈ q.refStrings := by
  induction hn : sizeOf p.value using Nat.strong_induction_on generalizing p q with
  | _ n ih =>
    rw [mem_refStrings_iff hp] at hr
    rw [mem_refStrings_iff hq]
    rcases hr with hown | ⟨step, p', hp', hr⟩
    · exact Or.inl (h.reference hown)
    · obtain ⟨q', hq', hsame⟩ := h.inner hp'
      have hlt := sizeOf_child_lt (child_of_inner hp')
      rw [hn] at hlt
      exact Or.inr ⟨step, q', hq', ih _ hlt hsame (hp.inner hp') (hq.inner hq') hr rfl⟩

end Position

mutual

theorem collectLocalRefs_eq : ∀ v : Json,
    collectLocalRefs v = (refStrings v).filterMap readLocalRef
  | .object fields => by
    rw [collectLocalRefs, refStrings, filterMap_append, collectMemberRefs_eq fields]
    rcases stringRef fields with - | r
    · rfl
    · rcases hr : readLocalRef r with - | t <;> simp [hr]
  | .array items => by rw [collectLocalRefs, refStrings, collectItemRefs_eq items]
  | .null | .bool _ | .number _ | .string _ => rfl

theorem collectMemberRefs_eq : ∀ fields : List (String × Json),
    collectMemberRefs fields = (memberRefStrings fields).filterMap readLocalRef
  | [] => rfl
  | (key, value) :: fields => by
    conv_lhs => unfold collectMemberRefs
    conv_rhs => unfold memberRefStrings
    rw [filterMap_append, collectMemberRefs_eq fields]
    congr 1
    split
    · rfl
    · cases keywordValue key with
      | literal => rfl
      | subschemaMap =>
        cases value with
        | object members => exact collectNamedRefs_eq members
        | null | bool _ | number _ | string _ | array _ => exact collectLocalRefs_eq _
      | subschema | subschemaList | other => exact collectLocalRefs_eq _

theorem collectNamedRefs_eq : ∀ fields : List (String × Json),
    collectNamedRefs fields = (namedRefStrings fields).filterMap readLocalRef
  | [] => rfl
  | (_, value) :: fields => by
    rw [collectNamedRefs, namedRefStrings, filterMap_append, collectLocalRefs_eq value,
      collectNamedRefs_eq fields]

theorem collectItemRefs_eq : ∀ items : List Json,
    collectItemRefs items = (itemRefStrings items).filterMap readLocalRef
  | [] => rfl
  | item :: items => by
    rw [collectItemRefs, itemRefStrings, filterMap_append, collectLocalRefs_eq item,
      collectItemRefs_eq items]

end

end Discovery

end WaferRun
