import Mathlib.Data.Prod.Lex
import WaferRun.Block.RateLimit

/-!
# Which bucket has to go

A shard that is full makes room for a new key: the expired buckets go, each judged by its own
window, and if that is not enough the live ones go, cheapest first, until the shard has room for
about a tenth of its capacity. Cheap is a bucket that is under its budget, then one with a low
count, then one with an old window.

The victims are sorted by the derived order of their fields, in which the three criteria come
first. The order of the keys after them only breaks ties. What is erased is an initial segment of
the sorted victims, so nothing erased ranks above anything kept, and a throttled bucket is erased
only after every bucket under its budget (`evicts_evictForNewKey`).
-/

open List

namespace WaferRun

/-! ## The rank of a bucket -/

def BucketKey.rank (key : BucketKey) (b : RateBucket) : Bool ×ₗ ℕ ×ₗ ℕ :=
  toLex (key.throttled b, toLex (b.count.toNat, b.windowStart))

def BucketKey.victim (key : BucketKey) (b : RateBucket) : Victim :=
  ⟨key.throttled b, b.count, b.windowStart, key⟩

theorem BucketKey.compare_eq (k l : BucketKey) : compare k l =
    compareLex (compareOn client) (compareLex (compareOn maxRequests) (compareOn window)) k l := by
  change instOrdBucketKey.ord k l = _
  simp only [instOrdBucketKey.ord, compareLex, compareOn, Ordering.then_eq]

theorem Victim.compare_eq (v w : Victim) : compare v w =
    compareLex (compareOn throttled) (compareLex (compareOn count)
      (compareLex (compareOn windowStart) (compareOn key))) v w := by
  change instOrdVictim.ord v w = _
  simp only [instOrdVictim.ord, compareLex, compareOn, Ordering.then_eq]

instance : Std.TransOrd BucketKey := by
  have h : (compare : BucketKey → BucketKey → Ordering) = _ := funext₂ BucketKey.compare_eq
  rw [Std.TransOrd, h]
  infer_instance

instance : Std.TransOrd Victim := by
  have h : (compare : Victim → Victim → Ordering) = _ := funext₂ Victim.compare_eq
  rw [Std.TransOrd, h]
  infer_instance

theorem rank_le_rank {k l : BucketKey} {b c : RateBucket}
    (h : (compare (k.victim b) (l.victim c)).isLE) : k.rank b ≤ l.rank c := by
  rw [Victim.compare_eq, compareLex, Ordering.isLE_then_iff_or] at h
  rw [BucketKey.rank, BucketKey.rank, Prod.Lex.toLex_le_toLex]
  rcases h with hlt | ⟨heq, h⟩
  · exact .inl (compare_lt_iff_lt.mp hlt)
  refine .inr ⟨Std.LawfulEqOrd.eq_of_compare heq, ?_⟩
  rw [compareLex, Ordering.isLE_then_iff_or] at h
  rw [Prod.Lex.toLex_le_toLex]
  rcases h with hlt | ⟨heq, h⟩
  · exact .inl (UInt32.lt_iff_toNat_lt.mp (Std.compare_eq_lt.mp hlt))
  refine .inr ⟨congrArg UInt32.toNat (Std.LawfulEqOrd.eq_of_compare heq), ?_⟩
  exact Std.isLE_compare.mp (Ordering.isLE_left_of_isLE_then h)

theorem isLE_of_mem_take_of_mem_drop {victims : List Victim} {n : ℕ} {v w : Victim}
    (hv : v ∈ (victims.mergeSort fun v w ↦ (compare v w).isLE).take n)
    (hw : w ∈ (victims.mergeSort fun v w ↦ (compare v w).isLE).drop n) :
    (compare v w).isLE := by
  have htotal : ∀ v w : Victim, ((compare v w).isLE || (compare w v).isLE) = true := by
    intro v w
    rw [@Std.OrientedCmp.eq_swap _ compare _ w v]
    cases compare v w <;> rfl
  have hsorted := @pairwise_mergeSort _ (fun v w : Victim ↦ (compare v w).isLE)
    (fun _ _ _ ↦ Std.TransCmp.isLE_trans) htotal victims
  rw [← take_append_drop n (victims.mergeSort _), pairwise_append] at hsorted
  exact hsorted.2.2 v hv w hw

/-! ## What an eviction does -/

theorem Shard.mem_entries_iff {buckets : Shard} {key : BucketKey} {b : RateBucket} :
    (⟨key, b⟩ : Sigma fun _ ↦ RateBucket) ∈ buckets.entries ↔ buckets.lookup key = some b :=
  AList.mem_lookup_iff.symm

theorem Shard.lookup_retain_eq_some {keep : BucketKey → RateBucket → Bool} {buckets : Shard}
    {key : BucketKey} {b : RateBucket} : (buckets.retain keep).lookup key = some b ↔
      buckets.lookup key = some b ∧ keep key b := by
  rw [← Shard.mem_entries_iff, Shard.retain, mem_filter, Shard.mem_entries_iff]

theorem lookup_foldl_erase_eq_some {victims : List Victim} {buckets : Shard} {key : BucketKey}
    {b : RateBucket} :
    (victims.foldl (fun buckets v ↦ buckets.erase v.key) buckets).lookup key = some b ↔
      buckets.lookup key = some b ∧ key ∉ victims.map Victim.key := by
  induction victims generalizing buckets with
  | nil => simp
  | cons v victims ih =>
    rw [foldl_cons, ih, map_cons, mem_cons, not_or]
    by_cases hkey : key = v.key
    · subst hkey
      simp [AList.lookup_erase]
    · rw [AList.lookup_erase_ne hkey]
      tauto

theorem size_foldl_erase {victims : List Victim} (hnodup : (victims.map Victim.key).Nodup)
    {buckets : Shard} (hmem : ∀ v ∈ victims, v.key ∈ buckets) :
    (victims.foldl (fun buckets v ↦ buckets.erase v.key) buckets).size + victims.length =
      buckets.size := by
  induction victims generalizing buckets with
  | nil => rfl
  | cons v victims ih =>
    rw [map_cons, nodup_cons] at hnodup
    have hv : v.key ∈ buckets.keys := AList.mem_keys.mp (hmem v mem_cons_self)
    have hrest : ∀ w ∈ victims, w.key ∈ buckets.erase v.key := by
      intro w hw
      refine AList.mem_erase.mpr ⟨fun heq ↦ hnodup.1 ?_, hmem w (mem_cons_of_mem _ hw)⟩
      exact mem_map.mpr ⟨w, hw, heq⟩
    have hsize : Shard.size (buckets.erase v.key) + 1 = buckets.size := by
      have hlen := length_erase_of_mem hv
      have hpos := length_pos_of_mem hv
      rw [← AList.keys_erase] at hlen
      simp only [AList.keys, List.keys, length_map] at hlen hpos
      unfold Shard.size
      omega
    rw [foldl_cons, length_cons]
    have := ih hnodup.2 hrest
    omega

structure Shard.Evicts (before after : Shard) (now : ℕ) : Prop where
  kept : ∀ {key b}, after.lookup key = some b → before.lookup key = some b
  live : ∀ {key b}, after.lookup key = some b → key.expired b now = false
  /-- No live bucket that has gone ranks above one that is left. -/
  cheapest : ∀ {key b key' b'}, before.lookup key = some b → key.expired b now = false →
    key ∉ after → after.lookup key' = some b' → key.rank b ≤ key'.rank b'
  /-- A live throttled bucket goes only if none under its budget is left. -/
  throttledLast : ∀ {key b key' b'}, before.lookup key = some b → key.expired b now = false →
    key ∉ after → key.throttled b = true → after.lookup key' = some b' →
      key'.throttled b' = true

theorem throttled_of_rank_le {key key' : BucketKey} {b b' : RateBucket}
    (h : key.rank b ≤ key'.rank b') (hthrottled : key.throttled b = true) :
    key'.throttled b' = true := by
  rw [BucketKey.rank, BucketKey.rank, Prod.Lex.toLex_le_toLex, hthrottled] at h
  rcases h with hlt | ⟨heq, -⟩
  · exact absurd (Bool.le_true _) hlt.not_ge
  · exact heq.symm

theorem Shard.evicts_of_cheapest {before after : Shard} {now : ℕ}
    (hkept : ∀ {key b}, after.lookup key = some b →
      before.lookup key = some b ∧ key.expired b now = false)
    (hcheapest : ∀ {key b key' b'}, before.lookup key = some b → key.expired b now = false →
      key ∉ after → after.lookup key' = some b' → key.rank b ≤ key'.rank b') :
    before.Evicts after now where
  kept h := (hkept h).1
  live h := (hkept h).2
  cheapest := hcheapest
  throttledLast hbefore hlive hgone hthrottled hafter :=
    throttled_of_rank_le (hcheapest hbefore hlive hgone hafter) hthrottled

def Shard.victims (buckets : Shard) : List Victim :=
  buckets.entries.map fun b ↦ b.1.victim b.2

theorem Shard.mem_victims {buckets : Shard} {v : Victim} :
    v ∈ buckets.victims ↔ ∃ key b, buckets.lookup key = some b ∧ key.victim b = v := by
  rw [Shard.victims, mem_map]
  constructor
  · rintro ⟨⟨key, b⟩, hmem, rfl⟩
    exact ⟨key, b, Shard.mem_entries_iff.mp hmem, rfl⟩
  · rintro ⟨key, b, hlookup, rfl⟩
    exact ⟨⟨key, b⟩, Shard.mem_entries_iff.mpr hlookup, rfl⟩

theorem Shard.eq_victim {buckets : Shard} {v : Victim} (h : v ∈ buckets.victims) {key : BucketKey}
    (hkey : v.key = key) {b : RateBucket} (hlookup : buckets.lookup key = some b) :
    v = key.victim b := by
  obtain ⟨k, c, hc, rfl⟩ := Shard.mem_victims.mp h
  obtain rfl : k = key := hkey
  rw [Option.some.inj (hc.symm.trans hlookup)]

theorem Shard.keys_victims (buckets : Shard) :
    buckets.victims.map Victim.key = buckets.keys := by
  rw [Shard.victims, map_map]
  rfl

theorem evictForNewKey_eq (buckets : Shard) (capacity now : ℕ) :
    evictForNewKey buckets capacity now =
      let kept := buckets.retain fun key b ↦ !key.expired b now
      let target := capacity - capacity / 10
      if kept.size < target then kept
      else ((kept.victims.mergeSort fun v w ↦ (compare v w).isLE).take (kept.size + 1 - target)).foldl
        (fun buckets v ↦ buckets.erase v.key) kept :=
  rfl

theorem lookup_live_eq_some {buckets : Shard} {key : BucketKey} {b : RateBucket} {now : ℕ} :
    (buckets.retain fun key b ↦ !key.expired b now).lookup key = some b ↔
      buckets.lookup key = some b ∧ key.expired b now = false := by
  rw [Shard.lookup_retain_eq_some, Bool.not_eq_true']

theorem evicts_evictForNewKey (buckets : Shard) (capacity now : ℕ) :
    buckets.Evicts (evictForNewKey buckets capacity now) now := by
  rw [evictForNewKey_eq]
  dsimp only
  split
  · refine Shard.evicts_of_cheapest lookup_live_eq_some.mp ?_
    intro key b key' b' hbefore hlive hgone _
    -- nothing that is live has gone
    have hkept := lookup_live_eq_some.mpr ⟨hbefore, hlive⟩
    exact absurd (AList.lookup_isSome.mp (Option.isSome_of_eq_some hkept)) hgone
  · refine Shard.evicts_of_cheapest
      (fun h ↦ lookup_live_eq_some.mp (lookup_foldl_erase_eq_some.mp h).1) ?_
    intro key b key' b' hbefore hlive hgone hafter
    generalize hkept : buckets.retain (fun key b ↦ !key.expired b now) = kept at hgone hafter
    have hkey : kept.lookup key = some b := hkept ▸ lookup_live_eq_some.mpr ⟨hbefore, hlive⟩
    obtain ⟨hkey', hnot'⟩ := lookup_foldl_erase_eq_some.mp hafter
    -- the bucket that has gone is among the first victims, the other one is not
    have htaken : key.victim b ∈ (kept.victims.mergeSort fun v w ↦ (compare v w).isLE).take
        (kept.size + 1 - (capacity - capacity / 10)) := by
      by_contra hnot
      have hkeyNot : key ∉ ((kept.victims.mergeSort fun v w ↦ (compare v w).isLE).take
          (kept.size + 1 - (capacity - capacity / 10))).map Victim.key := by
        intro hmem
        obtain ⟨v, hv, hvkey⟩ := mem_map.mp hmem
        have hv' := mem_mergeSort.mp (mem_of_mem_take hv)
        exact hnot (Shard.eq_victim hv' hvkey hkey ▸ hv)
      have hstill := lookup_foldl_erase_eq_some.mpr ⟨hkey, hkeyNot⟩
      exact hgone (AList.lookup_isSome.mp (Option.isSome_of_eq_some hstill))
    have hleft : key'.victim b' ∈ (kept.victims.mergeSort fun v w ↦ (compare v w).isLE).drop
        (kept.size + 1 - (capacity - capacity / 10)) := by
      have hvictim : key'.victim b' ∈
          kept.victims.mergeSort fun v w ↦ (compare v w).isLE :=
        mem_mergeSort.mpr (Shard.mem_victims.mpr ⟨key', b', hkey', rfl⟩)
      rw [← take_append_drop (kept.size + 1 - (capacity - capacity / 10))
        (kept.victims.mergeSort _)] at hvictim
      rcases mem_append.mp hvictim with htake | hdrop
      · exact absurd (mem_map.mpr ⟨_, htake, rfl⟩) hnot'
      · exact hdrop
    exact rank_le_rank (isLE_of_mem_take_of_mem_drop htaken hleft)

theorem size_evictForNewKey_lt (buckets : Shard) {capacity : ℕ} (hcapacity : 1 ≤ capacity)
    (now : ℕ) : (evictForNewKey buckets capacity now).size < capacity - capacity / 10 := by
  rw [evictForNewKey_eq]
  dsimp only
  split
  next hroom => exact hroom
  next hfull =>
    generalize buckets.retain (fun key b ↦ !key.expired b now) = kept at hfull ⊢
    generalize hsorted : kept.victims.mergeSort (fun v w ↦ (compare v w).isLE) = sorted
    have hperm : sorted.Perm kept.victims := hsorted ▸ mergeSort_perm _ _
    have hnodup : ((sorted.take (kept.size + 1 - (capacity - capacity / 10))).map
        Victim.key).Nodup := by
      refine List.Nodup.sublist ((take_sublist _ _).map _) ?_
      rw [(hperm.map Victim.key).nodup_iff, Shard.keys_victims]
      exact AList.keys_nodup kept
    have hmem : ∀ v ∈ sorted.take (kept.size + 1 - (capacity - capacity / 10)),
        v.key ∈ kept := by
      intro v hv
      have hv' := mem_map_of_mem (f := Victim.key) (hperm.subset (mem_of_mem_take hv))
      rw [Shard.keys_victims] at hv'
      exact AList.mem_keys.mpr hv'
    have hsize := size_foldl_erase hnodup hmem
    have hlength : sorted.length = kept.size := by
      rw [hperm.length_eq, Shard.victims, length_map, Shard.size]
    rw [length_take, hlength] at hsize
    have htenth : capacity / 10 < capacity := Nat.div_lt_self hcapacity (by decide)
    omega

theorem Shard.size_insert_of_mem {buckets : Shard} {key : BucketKey} (h : key ∈ buckets)
    (b : RateBucket) : Shard.size (buckets.insert key b) = buckets.size := by
  have hkeys := congrArg List.length (AList.keys_insert (b := b) (a := key) buckets)
  have hpos := length_pos_of_mem (AList.mem_keys.mp h)
  rw [length_cons, length_erase_of_mem (AList.mem_keys.mp h)] at hkeys
  simp only [AList.keys, List.keys, length_map] at hkeys hpos
  unfold Shard.size
  omega

theorem Shard.size_insert_le (buckets : Shard) (key : BucketKey) (b : RateBucket) :
    Shard.size (buckets.insert key b) ≤ buckets.size + 1 := by
  have hkeys := congrArg List.length (AList.keys_insert (b := b) (a := key) buckets)
  have hle : (buckets.keys.erase key).length ≤ buckets.keys.length :=
    length_erase_le
  rw [length_cons] at hkeys
  simp only [AList.keys, List.keys, length_map] at hkeys hle
  unfold Shard.size
  omega

/-! ## Records -/

namespace ShardedBuckets

def Bounded (self : ShardedBuckets) : Prop := ∀ i, (self.shards i).size ≤ self.shardCapacity

def recordEach (self : ShardedBuckets) (calls : List (String × ℕ × Limits)) : ShardedBuckets :=
  calls.foldl (fun self call ↦ (self.record call.1 call.2.1 call.2.2).2) self

theorem bounded_withShardCapacity (shardIndex : String → Fin shardCount) (shardCapacity : ℕ) :
    (withShardCapacity shardIndex shardCapacity).Bounded := fun _ ↦ Nat.zero_le _

theorem roomFor_of_mem {self : ShardedBuckets} {key : BucketKey}
    (h : key ∈ self.shards (self.shardIndex key.client)) (now : ℕ) :
    self.roomFor key now = self.shards (self.shardIndex key.client) :=
  if_neg fun hnew ↦ hnew.2 h

theorem roomFor_of_lt {self : ShardedBuckets} {key : BucketKey}
    (h : (self.shards (self.shardIndex key.client)).size < self.shardCapacity) (now : ℕ) :
    self.roomFor key now = self.shards (self.shardIndex key.client) :=
  if_neg fun hfull ↦ hfull.1.not_gt h

theorem roomFor_of_full {self : ShardedBuckets} {key : BucketKey}
    (hnew : key ∉ self.shards (self.shardIndex key.client))
    (hfull : self.shardCapacity ≤ (self.shards (self.shardIndex key.client)).size) (now : ℕ) :
    self.roomFor key now =
      evictForNewKey (self.shards (self.shardIndex key.client)) self.shardCapacity now :=
  if_pos ⟨hfull, hnew⟩

theorem size_insert_roomFor_le {self : ShardedBuckets} (hcapacity : 1 ≤ self.shardCapacity)
    (hbounded : self.Bounded) (key : BucketKey) (now : ℕ) (b : RateBucket) :
    Shard.size ((self.roomFor key now).insert key b) ≤ self.shardCapacity := by
  by_cases hmem : key ∈ self.shards (self.shardIndex key.client)
  · rw [roomFor_of_mem hmem, Shard.size_insert_of_mem hmem]
    exact hbounded _
  refine (Shard.size_insert_le _ _ _).trans ?_
  rcases Nat.lt_or_ge (self.shards (self.shardIndex key.client)).size self.shardCapacity with
    hroom | hfull
  · rw [roomFor_of_lt hroom]
    exact hroom
  · rw [roomFor_of_full hmem hfull]
    exact (size_evictForNewKey_lt _ hcapacity now).trans_le (Nat.sub_le _ _)

theorem bounded_record {self : ShardedBuckets} (hcapacity : 1 ≤ self.shardCapacity)
    (hbounded : self.Bounded) (client : String) (now : ℕ) (limits : Limits) :
    (self.record client now limits).2.Bounded := by
  rw [record_eq]
  intro i
  dsimp only
  by_cases hi : i = self.shardIndex client
  · subst hi
    rw [Function.update_self]
    exact size_insert_roomFor_le hcapacity hbounded (limits.bucketKey client) now _
  · rw [Function.update_of_ne hi]
    exact hbounded i

theorem bounded_recordEach {self : ShardedBuckets} (hcapacity : 1 ≤ self.shardCapacity)
    (hbounded : self.Bounded) (calls : List (String × ℕ × Limits)) :
    (self.recordEach calls).Bounded := by
  induction calls generalizing self with
  | nil => exact hbounded
  | cons call calls ih =>
    exact @ih (self.record call.1 call.2.1 call.2.2).2 hcapacity
      (bounded_record hcapacity hbounded call.1 call.2.1 call.2.2)

/-- What a request does to the shard it is counted in: only a key that a full shard does not hold
makes it evict. -/
structure Evicting (self : ShardedBuckets) (client : String) (now : ℕ) (limits : Limits)
    (before kept after : Shard) : Prop where
  inserts : ∃ b, after = kept.insert (limits.bucketKey client) b
  known : limits.bucketKey client ∈ before → kept = before
  room : before.size < self.shardCapacity → kept = before
  full : limits.bucketKey client ∉ before → self.shardCapacity ≤ before.size →
    before.Evicts kept now

theorem evicting_record (self : ShardedBuckets) (client : String) (now : ℕ) (limits : Limits) :
    self.Evicting client now limits (self.shards (self.shardIndex client))
      (self.roomFor (limits.bucketKey client) now)
      ((self.record client now limits).2.shards (self.shardIndex client)) where
  inserts := by
    rw [record_eq]
    dsimp only
    rw [Function.update_self]
    exact ⟨_, rfl⟩
  known h := @roomFor_of_mem self (limits.bucketKey client) h now
  room h := @roomFor_of_lt self (limits.bucketKey client) h now
  full hnew hfull := by
    rw [@roomFor_of_full self (limits.bucketKey client) hnew hfull]
    exact evicts_evictForNewKey _ _ _

/-- However many requests are recorded, no shard holds more buckets than it may, and the next
request evicts only if it must, and then the cheapest. -/
theorem recordEach_evicts_cheapest (self : ShardedBuckets) (hcapacity : 1 ≤ self.shardCapacity)
    (calls : List (String × ℕ × Limits)) :
    let state := self.recordEach calls
    (self.Bounded → state.Bounded) ∧
      ∀ client now limits, ∃ kept, state.Evicting client now limits
        (state.shards (state.shardIndex client)) kept
        ((state.record client now limits).2.shards (state.shardIndex client)) :=
  ⟨fun hbounded ↦ bounded_recordEach hcapacity hbounded calls,
    fun client now limits ↦ ⟨_, evicting_record _ client now limits⟩⟩

/-- Three clients in a shard for two. -/
theorem recordEach_evicts_cheapest_two :
    let self := withShardCapacity (fun _ ↦ ⟨0, Nat.succ_pos 15⟩) 2
    let state := self.recordEach [("a", 0, ⟨1, 60, 64⟩), ("b", 1, ⟨5, 60, 64⟩)]
    state.Bounded ∧ ∀ client now limits, ∃ kept, state.Evicting client now limits
      (state.shards (state.shardIndex client)) kept
      ((state.record client now limits).2.shards (state.shardIndex client)) :=
  have h := recordEach_evicts_cheapest (withShardCapacity (fun _ ↦ ⟨0, Nat.succ_pos 15⟩) 2)
    (by decide) [("a", 0, ⟨1, 60, 64⟩), ("b", 1, ⟨5, 60, 64⟩)]
  ⟨h.1 (bounded_withShardCapacity _ _), h.2⟩

end ShardedBuckets

end WaferRun
