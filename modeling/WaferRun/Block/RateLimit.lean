import Mathlib.Algebra.Order.Group.Nat
import Mathlib.Data.List.AList
import WaferRun.Block.OpenResponse
import WaferRun.Flow.ResponseMeta
import WaferRun.Lib.Windows

/-!
# The rate limiter

A request is charged to the bucket of its client under the limits of the flow config. A bucket
counts the requests of one fixed window; the first request after the window expired starts the next
one. A request is refused if its count is above the budget, and it has been counted all the same.

The buckets live in shards of limited capacity, and a bucket may have to make room for a new one.
The results here are about a bucket that never has: what the buckets of other clients do then does
not matter to it.

The counter has 32 bits and is incremented without a check, so it wraps: a window with `2 ^ 32`
requests starts to admit them again. Short of that the bucket keeps its promises
(`limited_iff_forall_calls_lt`).

The parser and the printer of network addresses, the way a quoted value is printed and the seeded
hash that picks the shard of a client are parameters.
-/

open List Option

namespace WaferRun

def metaReqClientIp : String := "req.client.ip"

/-! ## Settings -/

def defaultMaxRequests : ℕ := 1000
def defaultWindowSeconds : ℕ := 60
def defaultIpv6Prefix : ℕ := 64

inductive IpAddr
  | v4 (addr : BitVec 32)
  | v6 (addr : BitVec 128)
deriving DecidableEq

/-- What the limiter takes from the standard library: network addresses, the address of a socket
address, and quoted texts. -/
structure NetText where
  parseIp : List Char → Option IpAddr
  parseSocketIp : List Char → Option IpAddr
  showV4 : BitVec 32 → String
  showV6 : BitVec 128 → String
  debug : List Char → String

/-- The settings a request is charged under; the window is in nanoseconds. -/
structure Limits where
  maxRequests : UInt32
  window : ℕ
  ipv6Prefix : ℕ
deriving DecidableEq

/-- Parse a number of at most `max`: digits, after at most one plus sign. -/
def parseUnsigned (max : ℕ) (s : List Char) : Option ℕ :=
  let digits := match s with
    | '+' :: rest => rest
    | _ => s
  if digits ≠ [] ∧ digits.all Char.isDigit then
    let n := digits.foldl (fun n c ↦ 10 * n + (c.toNat - '0'.toNat)) 0
    if n ≤ max then some n else none
  else none

def invalidConfig (detail : String) : WaferError :=
  .new .invalidArgument ("wafer-run/ip-rate-limit: " ++ detail)

def setting (N : NetText) (raw : Option String) (key : String) (default max : ℕ) (valid : ℕ → Bool)
    (expected : String) : Except WaferError ℕ :=
  match raw.map fun s ↦ Text.trim s.toList with
  | none | some [] => .ok default
  | some value =>
    match (parseUnsigned max value).filter valid with
    | some n => .ok n
    | none => .error (invalidConfig
        ("`" ++ key ++ "` must be " ++ expected ++ ", got " ++ N.debug value))

def Limits.read (N : NetText) (get : String → Option String) : Except WaferError Limits := do
  let maxRequests ← setting N (get "max_requests") "max_requests" defaultMaxRequests (2 ^ 32 - 1)
    (fun _ ↦ true) "a non-negative integer (0 disables the limiter)"
  let seconds ← setting N (get "window_seconds") "window_seconds" defaultWindowSeconds (2 ^ 64 - 1)
    (fun secs ↦ 0 < secs) "a positive integer number of seconds"
  let ipv6Prefix ← setting N (get "ipv6_prefix") "ipv6_prefix" defaultIpv6Prefix (2 ^ 8 - 1)
    (fun len ↦ 1 ≤ len ∧ len ≤ 128) "an integer prefix length from 1 to 128"
  return ⟨UInt32.ofNat maxRequests, seconds * 10 ^ 9, ipv6Prefix⟩

def toIpv4Mapped (addr : BitVec 128) : Option (BitVec 32) :=
  if addr >>> 32 = 0xffff then some (addr.setWidth 32) else none

def clientNetwork (N : NetText) (remoteAddr : String) (ipv6Prefix : ℕ) : Option String := do
  let value := Text.trim remoteAddr.toList
  let ip ← (N.parseIp value).or (N.parseSocketIp value)
  match ip with
  | .v4 v4 => some (N.showV4 v4)
  | .v6 v6 =>
    match toIpv4Mapped v6 with
    | some v4 => some (N.showV4 v4)
    | none =>
      let mask := BitVec.allOnes 128 <<< (128 - ipv6Prefix)
      some (N.showV6 (v6 &&& mask) ++ "/" ++ toString ipv6Prefix)

/-! ## Buckets -/

structure BucketKey where
  client : String
  maxRequests : UInt32
  window : ℕ
deriving DecidableEq, Ord

structure RateBucket where
  count : UInt32
  windowStart : ℕ
deriving DecidableEq

def Limits.bucketKey (limits : Limits) (client : String) : BucketKey :=
  ⟨client, limits.maxRequests, limits.window⟩

def BucketKey.expired (key : BucketKey) (bucket : RateBucket) (now : ℕ) : Bool :=
  key.window < now - bucket.windowStart

def BucketKey.throttled (key : BucketKey) (bucket : RateBucket) : Bool :=
  key.maxRequests ≤ bucket.count

abbrev Shard := AList fun _ : BucketKey ↦ RateBucket

def Shard.size (buckets : Shard) : ℕ := buckets.entries.length

def Shard.retain (keep : BucketKey → RateBucket → Bool) (buckets : Shard) : Shard :=
  ⟨buckets.entries.filter fun b ↦ keep b.1 b.2, buckets.nodupKeys.sublist filter_sublist⟩

/-- A bucket that may have to go, cheapest first. -/
structure Victim where
  throttled : Bool
  count : UInt32
  windowStart : ℕ
  key : BucketKey
deriving Ord

def evictForNewKey (buckets : Shard) (capacity now : ℕ) : Shard :=
  let buckets := buckets.retain fun key b ↦ !key.expired b now
  let target := capacity - capacity / 10
  if buckets.size < target then
    buckets
  else
    let excess := buckets.size + 1 - target
    let victims := (buckets.entries.map fun ⟨key, b⟩ ↦
      (⟨key.throttled b, b.count, b.windowStart, key⟩ : Victim)).mergeSort
        fun v w ↦ (compare v w).isLE
    (victims.take excess).foldl (fun buckets v ↦ buckets.erase v.key) buckets

def shardCount : ℕ := 16
def hardCap : ℕ := 100000

structure ShardedBuckets where
  shardIndex : String → Fin shardCount
  shards : Fin shardCount → Shard
  shardCapacity : ℕ

namespace ShardedBuckets

def withShardCapacity (shardIndex : String → Fin shardCount) (shardCapacity : ℕ) : ShardedBuckets :=
  ⟨shardIndex, fun _ ↦ ∅, shardCapacity⟩

def new (shardIndex : String → Fin shardCount) : ShardedBuckets :=
  withShardCapacity shardIndex (hardCap / shardCount)

/-- Count a request of a client, and answer with the count and the start of the window. -/
def record (self : ShardedBuckets) (client : String) (now : ℕ) (limits : Limits) :
    (UInt32 × ℕ) × ShardedBuckets :=
  let index := self.shardIndex client
  let buckets := self.shards index
  let key := limits.bucketKey client
  let buckets := if self.shardCapacity ≤ buckets.size ∧ key ∉ buckets then
      evictForNewKey buckets self.shardCapacity now
    else
      buckets
  let expired := (buckets.lookup key).any fun b ↦ key.expired b now
  let bucket := (buckets.lookup key).getD ⟨0, now⟩
  let bucket : RateBucket := if expired then ⟨0, now⟩ else bucket
  let bucket : RateBucket := { bucket with count := bucket.count + 1 }
  ((bucket.count, bucket.windowStart),
    { self with shards := Function.update self.shards index (buckets.insert key bucket) })

def bucket (self : ShardedBuckets) (key : BucketKey) : Option RateBucket :=
  (self.shards (self.shardIndex key.client)).lookup key

end ShardedBuckets

/-! ## Requests -/

structure Request where
  msg : Message
  config : String → Option String
  now : ℕ

def tooManyRequests (max : UInt32) (retryAfter : ℕ) : WaferError where
  code := .resourceExhausted
  message := "Too many requests"
  entries := [
    ⟨"resp.header.Retry-After", toString retryAfter⟩,
    ⟨"resp.header.X-RateLimit-Limit", toString max.toNat⟩,
    ⟨"resp.header.X-RateLimit-Remaining", "0"⟩]

def RateLimitBlock.handle (N : NetText) (self : ShardedBuckets) (r : Request) :
    StreamEvent × ShardedBuckets :=
  match Limits.read N r.config with
  | .error e => (.error e, self)
  | .ok limits =>
    if limits.maxRequests = 0 then
      (.continue r.msg, self)
    else
      match clientNetwork N ((metaGet r.msg.entries metaReqClientIp).getD "") limits.ipv6Prefix with
      | none => (.error (.new .invalidArgument "Client IP could not be determined"), self)
      | some client =>
        let ((count, windowStart), self) := self.record client r.now limits
        let max := limits.maxRequests
        if max < count then
          let remaining := limits.window - (r.now - windowStart)
          (.error (tooManyRequests max (remaining / 10 ^ 9)), self)
        else
          let remaining := max - count
          let entries := setByKey ⟨"resp.header.X-RateLimit-Limit", toString max.toNat⟩ r.msg.entries
          let entries := setByKey ⟨"resp.header.X-RateLimit-Remaining", toString remaining.toNat⟩ entries
          (.continue { r.msg with entries }, self)

/-- Whether a request went on. -/
def StreamEvent.admits : StreamEvent → Bool
  | .continue _ => true
  | _ => false

def Request.chargedTo (N : NetText) (r : Request) : Option BucketKey :=
  match Limits.read N r.config with
  | .error _ => none
  | .ok limits =>
    if limits.maxRequests = 0 then none
    else (clientNetwork N ((metaGet r.msg.entries metaReqClientIp).getD "")
      limits.ipv6Prefix).map limits.bucketKey

/-! ## One request -/

theorem Shard.lookup_retain (keep : BucketKey → RateBucket → Bool) (buckets : Shard)
    (key : BucketKey) : (buckets.retain keep).lookup key = buckets.lookup key ∨
      (buckets.retain keep).lookup key = none := by
  rcases h : (buckets.retain keep).lookup key with - | b
  · exact .inr rfl
  · have hmem := mem_of_mem_filter (AList.mem_lookup_iff.mp (mem_def.mpr h))
    exact .inl (mem_def.mp (AList.mem_lookup_iff.mpr hmem)).symm

theorem lookup_foldl_erase (victims : List Victim) (buckets : Shard) (key : BucketKey) :
    (victims.foldl (fun buckets v ↦ buckets.erase v.key) buckets).lookup key =
        buckets.lookup key ∨
      (victims.foldl (fun buckets v ↦ buckets.erase v.key) buckets).lookup key = none := by
  induction victims generalizing buckets with
  | nil => exact .inl rfl
  | cons v victims ih =>
    rw [foldl_cons]
    rcases ih (buckets.erase v.key) with heq | hnone
    · rw [heq]
      by_cases hkey : key = v.key
      · rw [hkey]
        exact .inr (AList.lookup_erase _ _)
      · exact .inl (AList.lookup_erase_ne hkey)
    · exact .inr hnone

theorem lookup_evictForNewKey (buckets : Shard) (capacity now : ℕ) (key : BucketKey) :
    (evictForNewKey buckets capacity now).lookup key = buckets.lookup key ∨
      (evictForNewKey buckets capacity now).lookup key = none := by
  unfold evictForNewKey
  generalize hkeep : buckets.retain (fun key b ↦ !key.expired b now) = kept
  have hkept : kept.lookup key = buckets.lookup key ∨ kept.lookup key = none := by
    rw [← hkeep]
    exact Shard.lookup_retain _ _ _
  dsimp only
  split
  · exact hkept
  · rcases lookup_foldl_erase _ kept key with heq | hnone
    · rw [heq]
      exact hkept
    · exact .inr hnone

open Windows (Window Call)

def RateBucket.ofWindow (w : Window ℕ) : RateBucket := ⟨UInt32.ofNat w.calls, w.start⟩

theorem RateBucket.expired_ofWindow (key : BucketKey) (w : Window ℕ) (now : ℕ) :
    key.expired (.ofWindow w) now = decide (w.start + key.window < now) := by
  rw [BucketKey.expired, decide_eq_decide]
  exact ⟨fun h ↦ Nat.add_lt_of_lt_sub' h, fun h ↦ Nat.lt_sub_of_add_lt (Nat.add_comm _ _ ▸ h)⟩

theorem RateBucket.ofWindow_count_add_one (w : Window ℕ) :
    (RateBucket.ofWindow w).count + 1 = UInt32.ofNat (w.calls + 1) :=
  (UInt32.ofNat_add _ _).symm

def BucketKey.counted (key : BucketKey) (found : Option RateBucket) (now : ℕ) : RateBucket :=
  let bucket := if found.any fun b ↦ key.expired b now then ⟨0, now⟩ else found.getD ⟨0, now⟩
  { bucket with count := bucket.count + 1 }

theorem BucketKey.counted_ofWindow (key : BucketKey) (w : Option (Window ℕ)) (now : ℕ) :
    key.counted (w.map .ofWindow) now = .ofWindow (Window.next (Call.fixed key.window now) w) := by
  rcases w with - | v
  · rfl
  · simp only [counted, map_some, any_some, getD_some,
      RateBucket.expired_ofWindow]
    rcases Nat.lt_or_ge (v.start + key.window) now with hlt | hle
    · rw [Windows.next_fixed_of_lt hlt, if_pos (decide_eq_true hlt)]
      rfl
    · rw [Windows.next_fixed_of_le hle, if_neg fun h ↦ hle.not_gt (of_decide_eq_true h),
        RateBucket.ofWindow_count_add_one]
      rfl

namespace ShardedBuckets

def roomFor (self : ShardedBuckets) (key : BucketKey) (now : ℕ) : Shard :=
  let buckets := self.shards (self.shardIndex key.client)
  if self.shardCapacity ≤ buckets.size ∧ key ∉ buckets then
    evictForNewKey buckets self.shardCapacity now
  else
    buckets

theorem lookup_roomFor_self (self : ShardedBuckets) (key : BucketKey) (now : ℕ) :
    (self.roomFor key now).lookup key = self.bucket key := by
  unfold roomFor bucket
  dsimp only
  split
  · rename_i hevict
    have hnone : (self.shards (self.shardIndex key.client)).lookup key = none :=
      AList.lookup_eq_none.mpr hevict.2
    rcases lookup_evictForNewKey (self.shards (self.shardIndex key.client)) self.shardCapacity now
      key with heq | hgone
    · exact heq
    · rw [hgone, hnone]
  · rfl

theorem lookup_roomFor (self : ShardedBuckets) (key other : BucketKey) (now : ℕ) :
    (self.roomFor key now).lookup other =
        (self.shards (self.shardIndex key.client)).lookup other ∨
      (self.roomFor key now).lookup other = none := by
  unfold roomFor
  dsimp only
  split
  · exact lookup_evictForNewKey _ _ _ _
  · exact .inl rfl

theorem record_eq (self : ShardedBuckets) (client : String) (now : ℕ) (limits : Limits) :
    let key := limits.bucketKey client
    let bucket := key.counted ((self.roomFor key now).lookup key) now
    self.record client now limits = ((bucket.count, bucket.windowStart),
      { self with
        shards := Function.update self.shards (self.shardIndex client)
          ((self.roomFor key now).insert key bucket) }) :=
  rfl

theorem bucket_record_self {self : ShardedBuckets} {client : String} {limits : Limits}
    {w : Option (Window ℕ)}
    (hw : self.bucket (limits.bucketKey client) = w.map .ofWindow) (now : ℕ) :
    (self.record client now limits).1 =
        (UInt32.ofNat (Window.next (Call.fixed limits.window now) w).calls,
          (Window.next (Call.fixed limits.window now) w).start) ∧
      (self.record client now limits).2.bucket (limits.bucketKey client) =
        some (.ofWindow (Window.next (Call.fixed limits.window now) w)) := by
  have hcounted := BucketKey.counted_ofWindow (limits.bucketKey client) w now
  rw [record_eq, lookup_roomFor_self, hw, hcounted]
  refine ⟨rfl, ?_⟩
  dsimp only [bucket, Limits.bucketKey]
  rw [Function.update_self]
  exact AList.lookup_insert _

/-- The counts of one client's requests, one after another. -/
def recordAll (self : ShardedBuckets) (client : String) (limits : Limits) : List ℕ → List UInt32
  | [] => []
  | now :: nows => (self.record client now limits).1.1 ::
      recordAll (self.record client now limits).2 client limits nows

theorem recordAll_eq_run {self : ShardedBuckets} {client : String} {limits : Limits}
    {w : Option (Window ℕ)} (hw : self.bucket (limits.bucketKey client) = w.map .ofWindow)
    (nows : List ℕ) : self.recordAll client limits nows =
      (Windows.run w (nows.map (Call.fixed limits.window))).map fun e ↦ UInt32.ofNat e.2.calls := by
  induction nows generalizing self w with
  | nil => rfl
  | cons now nows ih =>
    obtain ⟨hresult, hbucket⟩ := bucket_record_self hw now
    rw [recordAll, hresult, map_cons, Windows.run, map_cons,
      @ih _ (some (Window.next (Call.fixed limits.window now) w)) hbucket]

theorem bucket_record_of_ne (self : ShardedBuckets) {client : String} {limits : Limits}
    {key : BucketKey} (hne : key ≠ (limits.bucketKey client)) (now : ℕ) :
    (self.record client now limits).2.bucket key = self.bucket key ∨
      (self.record client now limits).2.bucket key = none := by
  rw [record_eq, bucket, bucket]
  dsimp only
  by_cases hindex : self.shardIndex key.client = self.shardIndex client
  · rw [hindex, Function.update_self, AList.lookup_insert_ne hne]
    exact self.lookup_roomFor (limits.bucketKey client) key now
  · rw [Function.update_of_ne hindex]
    exact .inl rfl

end ShardedBuckets

namespace RateLimitBlock

theorem handle_of_chargedTo_eq_none {N : NetText} {r : Request} (self : ShardedBuckets)
    (h : r.chargedTo N = none) : (handle N self r).2 = self := by
  unfold Request.chargedTo at h
  unfold handle
  rcases hlimits : Limits.read N r.config with err | limits
  · rfl
  · rw [hlimits] at h
    dsimp only at h ⊢
    by_cases hmax : limits.maxRequests = 0
    · rw [if_pos hmax]
    · rw [if_neg hmax] at h ⊢
      rw [map_eq_none_iff.mp h]

/-- A request that is charged to a bucket is counted there, and goes on if the count is within the
budget. -/
theorem handle_of_chargedTo_eq_some {N : NetText} {r : Request} {key : BucketKey}
    (self : ShardedBuckets) (h : r.chargedTo N = some key) :
    ∃ client limits, limits.bucketKey client = key ∧
      (handle N self r).2 = (self.record client r.now limits).2 ∧
      (handle N self r).1.admits =
        decide ((self.record client r.now limits).1.1 ≤ key.maxRequests) := by
  unfold Request.chargedTo at h
  unfold handle
  rcases hlimits : Limits.read N r.config with err | limits
  · rw [hlimits] at h
    cases h
  · rw [hlimits] at h
    dsimp only at h ⊢
    by_cases hmax : limits.maxRequests = 0
    · rw [if_pos hmax] at h
      cases h
    · rw [if_neg hmax] at h ⊢
      obtain ⟨client, hclient, rfl⟩ := map_eq_some_iff.mp h
      rw [hclient]
      refine ⟨client, limits, rfl, ?_⟩
      dsimp only
      by_cases hover : limits.maxRequests < (self.record client r.now limits).1.1
      · rw [if_pos hover]
        exact ⟨rfl, (decide_eq_false (UInt32.not_le.mpr hover)).symm⟩
      · rw [if_neg hover]
        exact ⟨rfl, (decide_eq_true (UInt32.not_lt.mp hover)).symm⟩

/-! ## Runs -/

structure Served where
  request : Request
  answer : StreamEvent
  buckets : ShardedBuckets

def serve (N : NetText) (self : ShardedBuckets) : List Request → List Served
  | [] => []
  | r :: rs => ⟨r, (handle N self r).1, (handle N self r).2⟩ :: serve N (handle N self r).2 rs

/-- A bucket is never evicted: once it is there it stays. -/
def Kept (N : NetText) (key : BucketKey) (self : ShardedBuckets) : List Request → Prop
  | [] => True
  | r :: rs => (self.bucket key ≠ none → (handle N self r).2.bucket key ≠ none) ∧
      Kept N key (handle N self r).2 rs

def times (N : NetText) (key : BucketKey) (rs : List Request) : List ℕ :=
  (rs.filter fun r ↦ r.chargedTo N = some key).map Request.now

def Served.admitted (N : NetText) (key : BucketKey) (s : Served) : Bool :=
  s.request.chargedTo N = some key ∧ s.answer.admits

def admittedIn (N : NetText) (key : BucketKey) (served : List Served) (start : ℕ) : ℕ :=
  served.countP fun s ↦
    s.admitted N key ∧ (s.buckets.bucket key).map RateBucket.windowStart = some start

def admittedBetween (N : NetText) (key : BucketKey) (served : List Served) (t t' : ℕ) : ℕ :=
  served.countP fun s ↦ s.admitted N key ∧ t ≤ s.request.now ∧ s.request.now ≤ t'

/-- The promise of a bucket: its budget in each window, and twice that in any span of time of the
length of a window. -/
def Limited (N : NetText) (key : BucketKey) (served : List Served) : Prop :=
  (∀ start, admittedIn N key served start ≤ key.maxRequests.toNat) ∧
    ∀ t, admittedBetween N key served t (t + key.window) ≤ 2 * key.maxRequests.toNat

/-- Whether the call of a window with a number is admitted: the counter has wrapped at `2 ^ 32`. -/
def passes (key : BucketKey) (calls : ℕ) : Bool := calls % 2 ^ 32 ≤ key.maxRequests.toNat

theorem ofNat_le_iff (calls : ℕ) (key : BucketKey) :
    decide (UInt32.ofNat calls ≤ key.maxRequests) = passes key calls := by
  rw [passes, decide_eq_decide, UInt32.le_iff_toNat_le, UInt32.toNat_ofNat']

theorem times_cons_of_charged {N : NetText} {key : BucketKey} {r : Request}
    (h : r.chargedTo N = some key) (rs : List Request) :
    times N key (r :: rs) = r.now :: times N key rs := by
  rw [times, filter_cons, if_pos (decide_eq_true h), map_cons, times]

theorem times_cons_of_not_charged {N : NetText} {key : BucketKey} {r : Request}
    (h : r.chargedTo N ≠ some key) (rs : List Request) :
    times N key (r :: rs) = times N key rs := by
  rw [times, filter_cons, if_neg fun h' ↦ h (of_decide_eq_true h'), times]

theorem bucket_handle_of_not_charged {N : NetText} {key : BucketKey} {self : ShardedBuckets}
    {r : Request} (h : r.chargedTo N ≠ some key)
    (hstay : self.bucket key ≠ none → (handle N self r).2.bucket key ≠ none) :
    (handle N self r).2.bucket key = self.bucket key := by
  rcases hr : r.chargedTo N with - | other
  · rw [handle_of_chargedTo_eq_none self hr]
  · obtain ⟨client, limits, rfl, hafter, -⟩ := handle_of_chargedTo_eq_some self hr
    have hne : key ≠ limits.bucketKey client := fun heq ↦ h (heq ▸ hr)
    rw [hafter] at hstay ⊢
    rcases ShardedBuckets.bucket_record_of_ne self hne r.now with heq | hgone
    · exact heq
    · by_cases hnone : self.bucket key = none
      · rw [hgone, hnone]
      · exact absurd hgone (hstay hnone)

theorem ofWindow_self (b : RateBucket) : RateBucket.ofWindow ⟨b.windowStart, b.count.toNat⟩ = b := by
  rw [RateBucket.ofWindow, UInt32.ofNat_toNat]

theorem kept_of_forall_charged {N : NetText} {key : BucketKey} {rs : List Request}
    (h : ∀ r ∈ rs, r.chargedTo N = some key) (self : ShardedBuckets) : Kept N key self rs := by
  induction rs generalizing self with
  | nil => trivial
  | cons r rs ih =>
    refine ⟨fun _ ↦ ?_, ih (fun r' hr' ↦ h r' (mem_cons_of_mem _ hr')) _⟩
    obtain ⟨client, limits, rfl, hafter, -⟩ :=
      handle_of_chargedTo_eq_some self (h r mem_cons_self)
    have hw : self.bucket (limits.bucketKey client) =
        ((self.bucket (limits.bucketKey client)).map fun b ↦
          (⟨b.windowStart, b.count.toNat⟩ : Window ℕ)).map .ofWindow := by
      rw [Option.map_map]
      exact (map_id_apply.symm.trans (congrArg (Option.map · _) (funext ofWindow_self).symm))
    rw [hafter, (ShardedBuckets.bucket_record_self hw r.now).2]
    exact some_ne_none _

/-- The entry of a request in the log of a bucket: when it is asked, the start of its window, and
whether it goes on. -/
def Served.entry (key : BucketKey) (s : Served) : ℕ × Option ℕ × Bool :=
  (s.request.now, (s.buckets.bucket key).map RateBucket.windowStart, s.answer.admits)

/-- The requests charged to a bucket fall into its windows, and their number there decides about
them. -/
theorem serve_eq_run {N : NetText} {key : BucketKey} {self : ShardedBuckets}
    {w : Option (Window ℕ)} (hw : self.bucket key = w.map .ofWindow) {rs : List Request}
    (hkept : Kept N key self rs) :
    ((serve N self rs).filter fun s ↦ s.request.chargedTo N = some key).map (Served.entry key) =
      (Windows.run w ((times N key rs).map (Call.fixed key.window))).map
        fun e ↦ (e.1, some e.2.start, passes key e.2.calls) := by
  induction rs generalizing self w with
  | nil => rfl
  | cons r rs ih =>
    obtain ⟨hstay, hkept⟩ := hkept
    rw [serve]
    by_cases hr : r.chargedTo N = some key
    · obtain ⟨client, limits, rfl, hafter, hadmits⟩ := handle_of_chargedTo_eq_some self hr
      obtain ⟨hresult, hbucket⟩ := ShardedBuckets.bucket_record_self hw r.now
      rw [hresult, ofNat_le_iff] at hadmits
      have hentry : Served.entry (limits.bucketKey client)
          ⟨r, (handle N self r).1, (handle N self r).2⟩ =
          (r.now, some (Window.next (Call.fixed limits.window r.now) w).start,
            passes (limits.bucketKey client)
              (Window.next (Call.fixed limits.window r.now) w).calls) := by
        rw [Served.entry, hadmits, hafter, hbucket]
        rfl
      rw [times_cons_of_charged hr, filter_cons, if_pos (decide_eq_true hr), map_cons,
        hentry, map_cons, Windows.run, map_cons,
        @ih _ (some (Window.next (Call.fixed limits.window r.now) w))
          (by rw [hafter, hbucket]; rfl) hkept]
      rfl
    · rw [times_cons_of_not_charged hr,
        filter_cons, if_neg fun h ↦ hr (of_decide_eq_true h)]
      exact ih ((bucket_handle_of_not_charged hr hstay).trans hw) hkept

section Counts

variable {N : NetText} {key : BucketKey} {served : List Served} {log : List (ℕ × Window ℕ)}
  (hlog : (served.filter fun s ↦ s.request.chargedTo N = some key).map (Served.entry key) =
    log.map fun e ↦ (e.1, some e.2.start, passes key e.2.calls))
include hlog

theorem countP_served (p : ℕ → Option ℕ → Bool) :
    (served.countP fun s ↦ s.admitted N key ∧
        p s.request.now ((s.buckets.bucket key).map RateBucket.windowStart)) =
      log.countP fun e ↦ p e.1 (some e.2.start) ∧ passes key e.2.calls := by
  calc _ = (served.filter fun s ↦ s.request.chargedTo N = some key).countP
          ((fun e : ℕ × Option ℕ × Bool ↦ decide (p e.1 e.2.1 ∧ e.2.2)) ∘ Served.entry key) := by
        rw [countP_filter]
        refine countP_congr fun s _ ↦ ?_
        simp only [Served.admitted, Served.entry, Function.comp_apply, Bool.and_eq_true,
          decide_eq_true_eq]
        exact ⟨fun ⟨⟨hcharged, hadmits⟩, hp⟩ ↦ ⟨decide_eq_true ⟨hp, hadmits⟩, hcharged⟩,
          fun ⟨h, hcharged⟩ ↦ ⟨⟨hcharged, (of_decide_eq_true h).2⟩, (of_decide_eq_true h).1⟩⟩
    _ = (log.map fun e ↦ (e.1, some e.2.start, passes key e.2.calls)).countP
          fun e ↦ decide (p e.1 e.2.1 ∧ e.2.2) := by rw [← countP_map, hlog]
    _ = _ := countP_map

theorem admittedIn_eq (start : ℕ) : admittedIn N key served start =
    log.countP fun e ↦ e.2.start = start ∧ passes key e.2.calls := by
  have h := countP_served hlog fun _ s ↦ decide (s = some start)
  simp only [decide_eq_true_eq, Option.some.injEq] at h
  exact h

theorem admittedBetween_eq (t t' : ℕ) : admittedBetween N key served t t' =
    log.countP fun e ↦ (t ≤ e.1 ∧ e.1 ≤ t') ∧ passes key e.2.calls := by
  have h := countP_served hlog fun now _ ↦ decide (t ≤ now ∧ now ≤ t')
  simp only [decide_eq_true_eq] at h
  exact h

end Counts

/-! ## The promise of a bucket -/

section Promise

variable {N : NetText} {key : BucketKey} {rs : List Request} {self : ShardedBuckets}
  (hnew : self.bucket key = none) (hkept : Kept N key self rs)
include hnew hkept

theorem limited_of_forall_calls_lt (htimes : (times N key rs).Pairwise (· ≤ ·))
    (hcalls : ∀ e ∈ Windows.run none ((times N key rs).map (Call.fixed key.window)),
      e.2.calls < 2 ^ 32) : Limited N key (serve N self rs) := by
  have hlog := @serve_eq_run N key self none hnew rs hkept
  -- short of the wrap a call passes if its number is within the budget
  have hpasses : ∀ e ∈ Windows.run none ((times N key rs).map (Call.fixed key.window)),
      passes key e.2.calls = true → e.2.calls ≤ key.maxRequests.toNat := by
    intro e he hpass
    rw [passes, Nat.mod_eq_of_lt (hcalls e he)] at hpass
    exact of_decide_eq_true hpass
  constructor
  · intro start
    rw [admittedIn_eq hlog]
    refine (countP_mono_left fun e he h ↦ ?_).trans
      (Windows.countP_start_le (Nat.zero_le _) none (times N key rs) start key.maxRequests.toNat)
    obtain ⟨hstart, hpass⟩ := of_decide_eq_true h
    exact decide_eq_true ⟨hstart, hpasses e he hpass⟩
  · intro t
    rw [admittedBetween_eq hlog]
    refine (countP_mono_left fun e he h ↦ ?_).trans
      (Windows.countP_span_le (Nat.zero_le _) htimes t key.maxRequests.toNat)
    obtain ⟨hspan, hpass⟩ := of_decide_eq_true h
    exact decide_eq_true ⟨hspan, hpasses e he hpass⟩

/-- A window with `2 ^ 32` requests admits its budget and one more, the one at which the counter
wraps. -/
theorem calls_lt_of_limited (hlimited : Limited N key (serve N self rs))
    {e : ℕ × Window ℕ} (he : e ∈ Windows.run none ((times N key rs).map (Call.fixed key.window))) :
    e.2.calls < 2 ^ 32 := by
  by_contra hwrap
  have hwrap := Nat.le_of_not_lt hwrap
  have hmax : key.maxRequests.toNat < 2 ^ 32 := key.maxRequests.toNat_lt
  have hin := hlimited.1 e.2.start
  rw [admittedIn_eq (@serve_eq_run N key self none hnew rs hkept)] at hin
  have hnodup : (2 ^ 32 :: List.range' 1 key.maxRequests.toNat).Nodup := by
    refine nodup_cons.mpr ⟨fun h ↦ ?_, List.nodup_range'⟩
    have := (List.mem_range'_1.mp h).2
    omega
  have hpass : ∀ k ∈ 2 ^ 32 :: List.range' 1 key.maxRequests.toNat,
      0 < k ∧ k ≤ e.2.calls ∧ passes key k = true := by
    intro k hk
    rcases mem_cons.mp hk with rfl | hk
    · exact ⟨by decide, hwrap, decide_eq_true (Nat.zero_le _)⟩
    · obtain ⟨hpos, hle⟩ := List.mem_range'_1.mp hk
      refine ⟨hpos, by omega, decide_eq_true ?_⟩
      rw [Nat.mod_eq_of_lt (by omega)]
      omega
  have hcount := Windows.length_le_countP he hnodup hpass
  rw [length_cons, List.length_range'] at hcount
  exact absurd (hcount.trans hin) (Nat.not_succ_le_self _)

end Promise

/-- A bucket that is never evicted keeps its promise if and only if no window has `2 ^ 32` requests,
admitted or refused. -/
theorem limited_iff_forall_calls_lt (N : NetText) (key : BucketKey) (self : ShardedBuckets)
    (rs : List Request) (hnew : self.bucket key = none) (hkept : Kept N key self rs)
    (htimes : (times N key rs).Pairwise (· ≤ ·)) :
    Limited N key (serve N self rs) ↔
      ∀ e ∈ Windows.run none ((times N key rs).map (Call.fixed key.window)),
        e.2.calls < 2 ^ 32 :=
  ⟨fun h _ he ↦ calls_lt_of_limited hnew hkept h he, limited_of_forall_calls_lt hnew hkept htimes⟩

/-! ### A single client -/

/-- Addresses in dotted decimal; of the texts only one is needed here. -/
def loopbackText : NetText where
  parseIp s := if s = "127.0.0.1".toList then some (.v4 0x7f000001) else none
  parseSocketIp _ := none
  showV4 a :=
    let byte (i : ℕ) := toString ((a >>> i).toNat % 256)
    byte 24 ++ "." ++ byte 16 ++ "." ++ byte 8 ++ "." ++ byte 0
  showV6 a := toString a.toNat
  debug s := "\"" ++ String.ofList s ++ "\""

def loopbackRequest (now : ℕ) : Request :=
  ⟨⟨"http.request", [⟨metaReqClientIp, "127.0.0.1"⟩]⟩, fun _ ↦ none, now⟩

def noBuckets : ShardedBuckets := .new fun _ ↦ ⟨0, Nat.succ_pos 15⟩

def loopbackKey : BucketKey := ⟨"127.0.0.1", 1000, 60000000000⟩

theorem chargedTo_loopbackRequest (now : ℕ) :
    (loopbackRequest now).chargedTo loopbackText = some loopbackKey := by
  have h : (loopbackRequest 0).chargedTo loopbackText = some loopbackKey := by decide
  exact h

theorem limited_iff_forall_calls_lt_loopback :
    Limited loopbackText loopbackKey
        (serve loopbackText noBuckets [loopbackRequest 0, loopbackRequest 5]) ↔
      ∀ e ∈ Windows.run none ((times loopbackText loopbackKey
        [loopbackRequest 0, loopbackRequest 5]).map (Call.fixed loopbackKey.window)),
        e.2.calls < 2 ^ 32 :=
  limited_iff_forall_calls_lt loopbackText loopbackKey noBuckets
    [loopbackRequest 0, loopbackRequest 5] rfl
    (kept_of_forall_charged (by simp [chargedTo_loopbackRequest]) _) (by decide)

theorem times_replicate (n : ℕ) :
    times loopbackText loopbackKey (List.replicate n (loopbackRequest 0)) = List.replicate n 0 := by
  rw [times, filter_replicate, if_pos (decide_eq_true (chargedTo_loopbackRequest 0)),
    map_replicate, loopbackRequest]

/-- `2 ^ 32` requests at once are more than the counter can count. -/
theorem flood_not_limited :
    let self := noBuckets
    let rs := List.replicate (2 ^ 32) (loopbackRequest 0)
    self.bucket loopbackKey = none ∧ Kept loopbackText loopbackKey self rs ∧
      (times loopbackText loopbackKey rs).Pairwise (· ≤ ·) ∧
      ¬ Limited loopbackText loopbackKey (serve loopbackText self rs) := by
  intro self rs
  have hcharged : ∀ r ∈ rs, r.chargedTo loopbackText = some loopbackKey := by
    intro r hr
    rw [eq_of_mem_replicate hr]
    exact chargedTo_loopbackRequest 0
  have htimes : times loopbackText loopbackKey rs = List.replicate (2 ^ 32) 0 := times_replicate _
  have hnew : self.bucket loopbackKey = none := rfl
  have hkept := kept_of_forall_charged hcharged self
  refine ⟨hnew, hkept, ?_, fun hlimited ↦ ?_⟩
  · rw [htimes]
    exact pairwise_replicate.mpr (.inr (Nat.le_refl 0))
  · obtain ⟨e, he, hcalls⟩ := Windows.exists_mem_run_replicate
      (Nat.zero_le loopbackKey.window) ⟨0, 1⟩ (2 ^ 32 - 2)
    have hmem : e ∈ Windows.run none
        ((times loopbackText loopbackKey rs).map (Call.fixed loopbackKey.window)) := by
      rw [htimes]
      exact mem_cons_of_mem _ he
    have hlt := calls_lt_of_limited hnew hkept hlimited hmem
    rw [hcalls] at hlt
    exact absurd hlt (by decide)

end RateLimitBlock

end WaferRun
