import WaferRun.Block.RateLimit

/-!
# Coming back after a refusal

A refused request is told after how many seconds to come back. The number is the rest of the window
in whole seconds, rounded down, and a window is over only when more time than its length has passed.
So a client that comes back on time is still in the window it was refused in.

What it finds there is the counter of the refused request, one further. That refuses it again, with
one exception: a counter at `2 ^ 32 - 1` wraps to zero (`honoursDelay_iff`).
-/

namespace WaferRun

namespace RateLimitBlock

def afterAll (N : NetText) (self : ShardedBuckets) (rs : List Request) : ShardedBuckets :=
  rs.foldl (fun self r ↦ (handle N self r).2) self

def RefusedFor (N : NetText) (self : ShardedBuckets) (r : Request) (seconds : ℕ) : Prop :=
  ∃ max, (handle N self r).1 = .error (tooManyRequests max seconds)

/-- Whoever comes back after a number of seconds and was not there in between is admitted. -/
def HonoursDelay (N : NetText) (key : BucketKey) (self : ShardedBuckets) (r : Request)
    (seconds : ℕ) : Prop :=
  ∀ between : List Request, (∀ q ∈ between, q.chargedTo N ≠ some key) →
    ∀ r' : Request, r'.chargedTo N = some key → r.now + seconds * 10 ^ 9 ≤ r'.now →
      (handle N (afterAll N (handle N self r).2 between) r').1.admits = true

/-! ## The bucket of a request -/

theorem counted_none (key : BucketKey) (now : ℕ) : key.counted none now = ⟨1, now⟩ := rfl

theorem counted_of_expired {key : BucketKey} {b : RateBucket} {now : ℕ} (h : key.expired b now) :
    key.counted (some b) now = ⟨1, now⟩ := by
  rw [BucketKey.counted, Option.any_some, if_pos h]
  rfl

theorem counted_of_not_expired {key : BucketKey} {b : RateBucket} {now : ℕ}
    (h : ¬key.expired b now) : key.counted (some b) now = ⟨b.count + 1, b.windowStart⟩ := by
  rw [BucketKey.counted, Option.any_some, if_neg h]
  rfl

theorem maxRequests_pos_of_chargedTo {N : NetText} {r : Request} {key : BucketKey}
    (h : r.chargedTo N = some key) : 1 ≤ key.maxRequests := by
  unfold Request.chargedTo at h
  rcases hlimits : Limits.read N r.config with err | limits
  · rw [hlimits] at h
    cases h
  · rw [hlimits] at h
    dsimp only at h
    by_cases hmax : limits.maxRequests = 0
    · rw [if_pos hmax] at h
      cases h
    · rw [if_neg hmax] at h
      obtain ⟨client, -, rfl⟩ := Option.map_eq_some_iff.mp h
      change 1 ≤ limits.maxRequests
      grind

/-- The answer to a request and its bucket afterwards, by the bucket before. -/
theorem handle_of_charged {N : NetText} {r : Request} {key : BucketKey} (self : ShardedBuckets)
    (h : r.chargedTo N = some key) :
    let b := key.counted (self.bucket key) r.now
    (handle N self r).2.bucket key = some b ∧
      ((handle N self r).1.admits = true ↔ b.count ≤ key.maxRequests) ∧
      (key.maxRequests < b.count → (handle N self r).1 = .error (tooManyRequests key.maxRequests
        ((key.window - (r.now - b.windowStart)) / 10 ^ 9))) := by
  intro b
  unfold Request.chargedTo at h
  unfold handle
  rcases hlimits : Limits.read N r.config with err | limits
  · rw [hlimits] at h
    cases h
  rw [hlimits] at h
  dsimp only at h ⊢
  by_cases hmax : limits.maxRequests = 0
  · rw [if_pos hmax] at h
    cases h
  rw [if_neg hmax] at h ⊢
  obtain ⟨client, hclient, rfl⟩ := Option.map_eq_some_iff.mp h
  have hrecord := self.record_eq client r.now limits
  dsimp only at hrecord
  rw [ShardedBuckets.lookup_roomFor_self] at hrecord
  have hbucket : (self.record client r.now limits).2.bucket (limits.bucketKey client) = some b := by
    rw [hrecord]
    dsimp only [ShardedBuckets.bucket, Limits.bucketKey]
    rw [Function.update_self]
    exact AList.lookup_insert _
  have hresult : (self.record client r.now limits).1 = (b.count, b.windowStart) := by rw [hrecord]
  have hcount : (self.record client r.now limits).1.1 = b.count := congrArg Prod.fst hresult
  have hstart : (self.record client r.now limits).1.2 = b.windowStart := congrArg Prod.snd hresult
  rw [hclient]
  dsimp only
  by_cases hover : limits.maxRequests < (self.record client r.now limits).1.1
  · rw [if_pos hover]
    refine ⟨hbucket, ⟨fun h ↦ absurd h Bool.false_ne_true, fun h ↦ ?_⟩, fun _ ↦ ?_⟩
    · exact absurd (hcount ▸ hover) (UInt32.not_lt.mpr h)
    · rw [← hstart]
      rfl
  · rw [if_neg hover]
    have hle : b.count ≤ limits.maxRequests := UInt32.not_lt.mp (hcount ▸ hover)
    exact ⟨hbucket, ⟨fun _ ↦ hle, fun _ ↦ rfl⟩, fun h ↦ absurd h (UInt32.not_lt.mpr hle)⟩

theorem bucket_afterAll {N : NetText} {key : BucketKey} {between : List Request}
    (h : ∀ q ∈ between, q.chargedTo N ≠ some key) (self : ShardedBuckets) :
    (afterAll N self between).bucket key = self.bucket key ∨
      (afterAll N self between).bucket key = none := by
  induction between generalizing self with
  | nil => exact .inl rfl
  | cons q between ih =>
    have hq := h q List.mem_cons_self
    rcases ih (fun q' hq' ↦ h q' (List.mem_cons_of_mem _ hq')) (handle N self q).2 with heq | hnone
    · -- a bucket that is gone after the first request has been taken away by it
      by_cases hgone : (handle N self q).2.bucket key = none
      · exact .inr (heq.trans hgone)
      · exact .inl (heq.trans (bucket_handle_of_not_charged hq fun _ ↦ hgone))
    · exact .inr hnone

theorem admits_of_fresh {N : NetText} {key : BucketKey} {r : Request} {self : ShardedBuckets}
    (h : r.chargedTo N = some key)
    (hfresh : ∀ b, self.bucket key = some b → key.expired b r.now) :
    (handle N self r).1.admits = true := by
  have hcounted : key.counted (self.bucket key) r.now = ⟨1, r.now⟩ := by
    rcases hbucket : self.bucket key with - | b
    · exact counted_none key r.now
    · exact counted_of_expired (hfresh b hbucket)
  refine (handle_of_charged self h).2.1.mpr ?_
  rw [hcounted]
  exact maxRequests_pos_of_chargedTo h

/-! ## A refusal -/

/-- Only a request in a window that is not over is refused, and what it is told is the rest of
the window. -/
theorem bucket_of_refusedFor {N : NetText} {key : BucketKey} {r : Request} {self : ShardedBuckets}
    {seconds : ℕ} (hkey : r.chargedTo N = some key) (h : RefusedFor N self r seconds) :
    ∃ b, self.bucket key = some b ∧ ¬key.expired b r.now ∧ key.maxRequests < b.count + 1 ∧
      seconds = (key.window - (r.now - b.windowStart)) / 10 ^ 9 ∧
      (handle N self r).2.bucket key = some ⟨b.count + 1, b.windowStart⟩ := by
  obtain ⟨max, hanswer⟩ := h
  have hrefused : (handle N self r).1.admits ≠ true := by
    rw [hanswer]
    exact Bool.false_ne_true
  have hstale : ¬∀ b, self.bucket key = some b → key.expired b r.now :=
    fun hfresh ↦ hrefused (admits_of_fresh hkey hfresh)
  push Not at hstale
  obtain ⟨b, hbucket, hlive⟩ := hstale
  have hcounted := counted_of_not_expired hlive
  obtain ⟨hafter, hadmits, hdelay⟩ := handle_of_charged self hkey
  rw [hbucket, hcounted] at hafter hadmits hdelay
  have hover : key.maxRequests < b.count + 1 :=
    UInt32.not_le.mp fun hle ↦ hrefused (hadmits.mpr hle)
  refine ⟨b, hbucket, hlive, hover, ?_, hafter⟩
  rw [hdelay hover] at hanswer
  have hentries := congrArg WaferError.entries (StreamEvent.error.inj hanswer)
  have htext := congrArg MetaEntry.value (List.cons.inj hentries).1
  exact (Text.repr_injective htext).symm

theorem wrap_le_iff {m c : ℕ} (hc : c < 4294967296) (h : m < (c + 1) % 4294967296) :
    ((c + 1) % 4294967296 + 1) % 4294967296 ≤ m ↔ c = 4294967294 := by
  omega

theorem succ_succ_le_iff {max count : UInt32} (h : max < count + 1) :
    count + 1 + 1 ≤ max ↔ count.toNat = 2 ^ 32 - 2 := by
  have hlast : 2 ^ 32 - 2 = 4294967294 := by decide
  have hover : max.toNat < (count.toNat + 1) % 4294967296 := by
    simpa only [UInt32.lt_iff_toNat_lt, UInt32.toNat_add, UInt32.reduceToNat, Nat.reducePow] using h
  rw [hlast, ← wrap_le_iff count.toNat_lt hover]
  simp only [UInt32.le_iff_toNat_le, UInt32.toNat_add, UInt32.reduceToNat, Nat.reducePow]

/-- The delay of a refusal is honoured exactly if the refused request leaves the counter at
`2 ^ 32 - 1`, where the next one wraps it. -/
theorem honoursDelay_iff (N : NetText) (key : BucketKey) (self : ShardedBuckets) (r : Request)
    (seconds : ℕ) (hkey : r.chargedTo N = some key) (h : RefusedFor N self r seconds) :
    HonoursDelay N key self r seconds ↔
      (self.bucket key).map (fun b ↦ b.count.toNat) = some (2 ^ 32 - 2) := by
  obtain ⟨b, hbucket, hlive, hover, hseconds, hafter⟩ := bucket_of_refusedFor hkey h
  rw [hbucket, Option.map_some, Option.some.injEq, ← succ_succ_le_iff hover]
  constructor
  · intro hhonours
    obtain ⟨onTime, honTime⟩ : ∃ onTime, onTime = r.now + seconds * 10 ^ 9 := ⟨_, rfl⟩
    have hkey' : Request.chargedTo N { r with now := onTime } = some key := hkey
    have hadmits := hhonours [] (fun q hq ↦ absurd hq List.not_mem_nil) _ hkey' honTime.ge
    -- at the earliest time allowed the window is not over yet
    have hstill : ¬key.expired ⟨b.count + 1, b.windowStart⟩ onTime := by
      have hrest := Nat.div_mul_le_self (key.window - (r.now - b.windowStart)) (10 ^ 9)
      have helapsed : ¬key.window < r.now - b.windowStart := fun hgt ↦ hlive (decide_eq_true hgt)
      rw [← hseconds] at hrest
      exact fun hexpired ↦ absurd (of_decide_eq_true hexpired) (by dsimp only; omega)
    rw [afterAll, List.foldl_nil] at hadmits
    have hle := (handle_of_charged (handle N self r).2 hkey').2.1.mp hadmits
    rwa [hafter, counted_of_not_expired hstill] at hle
  · intro hcount between hbetween r' hkey' _
    by_cases hfresh : ∀ b', (afterAll N (handle N self r).2 between).bucket key = some b' →
        key.expired b' r'.now
    · exact admits_of_fresh hkey' hfresh
    · push Not at hfresh
      obtain ⟨b', hb', hlive'⟩ := hfresh
      have heq : (⟨b.count + 1, b.windowStart⟩ : RateBucket) = b' := by
        rcases bucket_afterAll hbetween (handle N self r).2 with heq | hgone
        · rw [heq, hafter] at hb'
          exact Option.some.inj hb'
        · rw [hgone] at hb'
          cases hb'
      subst heq
      refine (handle_of_charged _ hkey').2.1.mpr ?_
      rwa [hb', counted_of_not_expired hlive']

/-! ### Two requests in a minute that allows one -/

def onceAMinute (now : ℕ) : Request :=
  { loopbackRequest now with config := fun k ↦ if k = "max_requests" then some "1" else none }

def onceAMinuteKey : BucketKey := ⟨"127.0.0.1", 1, 60000000000⟩

def oneSpent : ShardedBuckets := (handle loopbackText noBuckets (onceAMinute 0)).2

theorem chargedTo_onceAMinute (now : ℕ) :
    (onceAMinute now).chargedTo loopbackText = some onceAMinuteKey := by
  have h : (onceAMinute 0).chargedTo loopbackText = some onceAMinuteKey := by decide
  exact h

theorem refusedFor_onceAMinute :
    RefusedFor loopbackText oneSpent (onceAMinute 500000000) 59 := ⟨1, by rfl⟩

theorem honoursDelay_iff_onceAMinute :
    HonoursDelay loopbackText onceAMinuteKey oneSpent (onceAMinute 500000000) 59 ↔
      (oneSpent.bucket onceAMinuteKey).map (fun b ↦ b.count.toNat) = some (2 ^ 32 - 2) :=
  honoursDelay_iff loopbackText onceAMinuteKey oneSpent (onceAMinute 500000000) 59
    (chargedTo_onceAMinute _) refusedFor_onceAMinute

/-- 59 seconds later the client is refused again. -/
theorem comes_back_too_early : ¬∀ (N : NetText) (key : BucketKey) (self : ShardedBuckets)
    (r : Request) (seconds : ℕ), r.chargedTo N = some key → RefusedFor N self r seconds →
      HonoursDelay N key self r seconds := by
  intro hall
  have hadmits := hall loopbackText onceAMinuteKey oneSpent (onceAMinute 500000000) 59
    (chargedTo_onceAMinute _) refusedFor_onceAMinute [] (fun q hq ↦ absurd hq List.not_mem_nil)
    (onceAMinute 59500000000) (chargedTo_onceAMinute _) (by decide)
  revert hadmits
  decide

end RateLimitBlock

end WaferRun
