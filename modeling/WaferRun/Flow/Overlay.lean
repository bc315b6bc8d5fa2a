import WaferRun.Flow.Carried

/-!
# What an overlay does key by key

An entry that is neither a header nor a cookie is identified by its key. On these entries laying one
response over another is nothing but setting one key after the other (`filter_overlay`), whatever
the headers and cookies between them do, so a key can be followed on its own (`setByKeys_sameKey`)
and so can the order in which the keys stand (`keysOf_setByKeys`).

An overlay adds nothing that cannot be sent, and removes such an entry only by setting its key again
(`forall_sendable_overlay_iff`).
-/

open List Option

namespace WaferRun

open Text

variable {x : MetaEntry} {key : String} {ds : DisplacedCookies}

/-! ## Setting keys -/

def setByKeys (base top : List MetaEntry) : List MetaEntry :=
  top.foldl (fun base e ↦ setByKey e base) base

def lastValue (entries : List MetaEntry) (key : String) : Option String :=
  ((entries.filter fun e ↦ e.key = key).getLast?).map MetaEntry.value

/-- The keys that are not in use, in the order in which they are first set. -/
def newKeys (used : List String) : List MetaEntry → List String
  | [] => []
  | e :: es => if e.key ∈ used then newKeys used es else e.key :: newKeys (used ++ [e.key]) es

theorem mem_setByKey {e : MetaEntry} {base : List MetaEntry} (h : x ∈ setByKey e base) :
    x ∈ base ∨ x = e := by
  induction base with
  | nil => exact .inr (mem_singleton.mp h)
  | cons b base ih =>
    rw [setByKey] at h
    split_ifs at h with hb
    · rcases mem_cons.mp h with rfl | h
      · exact .inr (by rw [hb])
      · exact .inl (mem_cons_of_mem b h)
    · rcases mem_cons.mp h with rfl | h
      · exact .inl mem_cons_self
      · exact (ih h).imp_left (mem_cons_of_mem b)

theorem keysOf_setByKey (e : MetaEntry) (base : List MetaEntry) :
    keysOf (setByKey e base) = if e.key ∈ keysOf base then keysOf base else keysOf base ++ [e.key] := by
  induction base with
  | nil => rfl
  | cons b base ih =>
    rw [setByKey]
    by_cases hb : b.key = e.key
    · simp [keysOf, hb]
    · have hmem : e.key ∈ keysOf (b :: base) ↔ e.key ∈ keysOf base :=
        mem_cons.trans (or_iff_right fun h ↦ hb h.symm)
      rw [if_neg hb]
      change b.key :: keysOf (setByKey e base) = _
      simp only [ih, hmem]
      split_ifs <;> rfl

theorem keysOf_setByKeys (base top : List MetaEntry) :
    keysOf (setByKeys base top) = keysOf base ++ newKeys (keysOf base) top := by
  unfold setByKeys
  induction top generalizing base with
  | nil => simp [newKeys]
  | cons e top ih =>
    rw [foldl_cons, ih, keysOf_setByKey, newKeys]
    split_ifs with h
    · rfl
    · rw [append_assoc, singleton_append]

theorem filter_setByKey (p : String → Bool) (e : MetaEntry) (base : List MetaEntry) :
    (setByKey e base).filter (fun b ↦ p b.key) =
      if p e.key then setByKey e (base.filter fun b ↦ p b.key) else base.filter fun b ↦ p b.key := by
  induction base with
  | nil => cases hp : p e.key <;> simp [setByKey, hp]
  | cons b base ih =>
    rw [setByKey]
    by_cases hb : b.key = e.key
    · cases hp : p e.key <;> simp [hb, hp, setByKey]
    · rw [if_neg hb, filter_cons, ih]
      cases hpb : p b.key <;> cases hp : p e.key <;> simp [hpb, setByKey, hb]

theorem filter_setByKeys (p : String → Bool) (base top : List MetaEntry) :
    (setByKeys base top).filter (fun b ↦ p b.key) =
      setByKeys (base.filter fun b ↦ p b.key) (top.filter fun b ↦ p b.key) := by
  unfold setByKeys
  induction top generalizing base with
  | nil => rfl
  | cons e top ih =>
    rw [foldl_cons, ih, filter_setByKey]
    cases hp : p e.key <;> simp [hp]

/-- Of the entries of one key the first is set, to the last value. -/
theorem setByKeys_sameKey {base top : List MetaEntry} (hb : ∀ b ∈ base, b.key = key)
    (ht : ∀ e ∈ top, e.key = key) :
    setByKeys base top = (top.getLast?.elim base fun e ↦ e :: base.tail) := by
  unfold setByKeys
  induction top generalizing base with
  | nil => rfl
  | cons e top ih =>
    obtain ⟨hek, htop⟩ := forall_mem_cons.mp ht
    have hset : setByKey e base = e :: base.tail := by
      rcases base with _ | ⟨b, base⟩
      · rfl
      · have hbe : b.key = e.key := (hb b mem_cons_self).trans hek.symm
        rw [setByKey, if_pos hbe, tail_cons, hbe]
    have hkeys : ∀ b ∈ e :: base.tail, b.key = key := by
      refine forall_mem_cons.mpr ⟨hek, fun b hbt ↦ hb b (mem_of_mem_tail hbt)⟩
    rw [foldl_cons, hset, ih hkeys htop, List.getLast?_cons]
    cases top.getLast? <;> rfl

theorem filter_key_setByKeys (key : String) (base top : List MetaEntry) :
    (setByKeys base top).filter (fun b ↦ b.key = key) =
      ((top.filter fun e ↦ e.key = key).getLast?.elim (base.filter fun b ↦ b.key = key)
        fun e ↦ e :: (base.filter fun b ↦ b.key = key).tail) := by
  rw [filter_setByKeys (fun k ↦ k = key), @setByKeys_sameKey key]
  · intro b hb
    simpa using (mem_filter.mp hb).2
  · intro e he
    simpa using (mem_filter.mp he).2

/-! ## The last entry -/

/-- The value that stands last after some keys were set: of the key that was added last, or else of
the last entry there was, if its key was set and not taken by an earlier entry. -/
def standsLast (base top : List MetaEntry) : Option String :=
  match (newKeys (keysOf base) top).getLast?, base.getLast? with
  | some key, _ => lastValue top key
  | none, none => none
  | none, some b =>
    if b.key ∈ keysOf base.dropLast then some b.value
    else some ((lastValue top b.key).getD b.value)

theorem getLast?_filter_of_getLast? {α : Type*} {p : α → Bool} {l : List α} {a : α}
    (h : l.getLast? = some a) (hp : p a = true) : (l.filter p).getLast? = some a := by
  obtain ⟨l', rfl⟩ := List.getLast?_eq_some_iff.mp h
  rw [filter_append, filter_cons_of_pos hp, filter_nil, List.getLast?_concat]

theorem mem_newKeys {used : List String} {top : List MetaEntry} (h : key ∈ newKeys used top) :
    key ∉ used ∧ key ∈ keysOf top := by
  induction top generalizing used with
  | nil => exact absurd h not_mem_nil
  | cons e top ih =>
    rw [newKeys] at h
    split_ifs at h with hu
    · obtain ⟨h1, h2⟩ := ih h
      exact ⟨h1, mem_cons_of_mem _ h2⟩
    · rcases mem_cons.mp h with rfl | h
      · exact ⟨hu, mem_cons_self⟩
      · obtain ⟨h1, h2⟩ := ih h
        exact ⟨fun hk ↦ h1 (mem_append_left _ hk), mem_cons_of_mem _ h2⟩

theorem filter_key_eq_nil {entries : List MetaEntry} (h : key ∉ keysOf entries) :
    entries.filter (fun e ↦ e.key = key) = [] := by
  refine filter_eq_nil_iff.mpr fun e he hk ↦ h ?_
  exact List.mem_map.mpr ⟨e, he, by simpa using hk⟩

theorem filter_key_ne_nil {entries : List MetaEntry} (h : key ∈ keysOf entries) :
    entries.filter (fun e ↦ e.key = key) ≠ [] := by
  obtain ⟨e, he, rfl⟩ := List.mem_map.mp h
  exact ne_nil_of_mem (mem_filter.mpr ⟨he, by simp⟩)

/-- **The value that stands last** after some keys were set. -/
theorem getLast?_setByKeys (base top : List MetaEntry) :
    ((setByKeys base top).getLast?).map MetaEntry.value = standsLast base top := by
  have hkeys := keysOf_setByKeys base top
  cases hlast : (setByKeys base top).getLast? with
  | none =>
    rw [List.getLast?_eq_none_iff.mp hlast, keysOf, map_nil] at hkeys
    obtain ⟨hb, hn⟩ := append_eq_nil_iff.mp hkeys.symm
    obtain rfl : base = [] := map_eq_nil_iff.mp hb
    rw [standsLast, hn]
    rfl
  | some m =>
    -- the entry that stands last is the last entry of its key
    have hkey : (keysOf base ++ newKeys (keysOf base) top).getLast? = some m.key := by
      rw [← hkeys, keysOf, List.getLast?_map, hlast, map_some]
    have hm := getLast?_filter_of_getLast? (p := fun b ↦ b.key = m.key) hlast (by simp)
    rw [filter_key_setByKeys] at hm
    rw [map_some, standsLast]
    rw [List.getLast?_append] at hkey
    cases hnew : (newKeys (keysOf base) top).getLast? with
    | some key =>
      rw [hnew, some_or, some_inj] at hkey
      obtain ⟨hfresh, hset⟩ := mem_newKeys (List.mem_of_getLast? hnew)
      rw [hkey] at hfresh hset ⊢
      obtain ⟨e, he⟩ := Option.ne_none_iff_exists'.mp
        (mt List.getLast?_eq_none_iff.mp (filter_key_ne_nil hset))
      rw [he, elim_some, filter_key_eq_nil hfresh] at hm
      change some m.value = lastValue top m.key
      rw [lastValue, he]
      obtain rfl : e = m := by simpa using hm
      rfl
    | none =>
      rw [hnew, none_or, keysOf, List.getLast?_map, map_eq_some_iff] at hkey
      obtain ⟨b, hb, hbm⟩ := hkey
      obtain ⟨before, rfl⟩ := List.getLast?_eq_some_iff.mp hb
      rw [hb, dropLast_concat]
      rw [filter_append, filter_cons_of_pos (by simpa using hbm), filter_nil] at hm
      dsimp only
      split_ifs with hmem
      · -- an earlier entry has the key, so the last one is untouched
        obtain ⟨b', rest, hrest⟩ := exists_cons_of_ne_nil
          (filter_key_ne_nil (hbm ▸ hmem : m.key ∈ keysOf before))
        rw [hrest] at hm
        have hbm' : b = m := by
          cases hset : (top.filter fun e ↦ e.key = m.key).getLast? <;>
            simpa [hset, List.getLast?_cons] using hm
        rw [hbm']
      · rw [filter_key_eq_nil (hbm ▸ hmem : m.key ∉ keysOf before)] at hm
        rw [lastValue, hbm]
        cases hset : (top.filter fun e ↦ e.key = m.key).getLast? <;>
          simp [hset] at hm <;> simp [hm]

/-! ## Laying a response over another -/

theorem kind_of_not_sendable {e : MetaEntry} (h : ¬Sendable e) : kind e = .other := by
  simp only [Sendable, not_forall] at h
  obtain ⟨invalid, hi, -⟩ := h
  rw [kind, hi]

theorem kind_eq_other {e : MetaEntry} (h : keyKind e.key = .other) : kind e = .other := by
  by_cases hs : Sendable e
  · rw [(kind_eq_keyKind hs).1, h]
  · exact kind_of_not_sendable hs

theorem sendable_of_kind {e : MetaEntry} (h : kind e ≠ .other) : Sendable e :=
  not_not.mp fun hs ↦ h (kind_of_not_sendable hs)

theorem isFieldValue_of_kind {e : MetaEntry} (h : kind e ≠ .other) :
    isFieldValue e.value.toList = true := by
  obtain ⟨hk, hv⟩ := kind_eq_keyKind (sendable_of_kind h)
  exact hv (hk ▸ h)

theorem headerNameIs_eq {e : MetaEntry} {name : List Char} (h : headerNameIs e name = true) :
    kind e = .header name := by
  simpa [headerNameIs] using h

theorem isCookie_eq {e : MetaEntry} (h : isCookie e = true) : kind e = .cookie := by
  simpa [isCookie] using h

theorem filter_insertIdx_of_neg {α : Type*} {p : α → Bool} {a : α} (h : p a = false) (i : ℕ)
    (l : List α) : (l.insertIdx i a).filter p = l.filter p := by
  induction l generalizing i with
  | nil => cases i <;> simp [h]
  | cons b l ih => cases i <;> simp [filter_cons, h, ih]

theorem keyKind_cookieKey {base : List MetaEntry} {e : MetaEntry} (h : kind e = .cookie) :
    keyKind (cookieKey base e) = .cookie := by
  unfold cookieKey
  split
  · exact keyKind_freshKey _
  · rw [← (kind_eq_keyKind (sendable_of_kind (by rw [h]; simp))).1, h]

section

variable {p : String → Bool} (hp : ∀ k, p k = true → keyKind k = .other)

include hp

theorem not_of_kind {e : MetaEntry} (h : kind e ≠ .other) : p e.key = false := by
  by_contra hne
  exact h (kind_eq_other (hp e.key (by simpa using hne)))

theorem filter_putHeader {name : List Char} {e : MetaEntry} (he : p e.key = false)
    (base : List MetaEntry) :
    (putHeader name e base).filter (fun b ↦ p b.key) = base.filter fun b ↦ p b.key := by
  have hkept : (base.filter fun b ↦ !headerNameIs b name).filter (fun b ↦ p b.key) =
      base.filter fun b ↦ p b.key := by
    rw [List.filter_filter]
    refine filter_congr fun b _ ↦ ?_
    cases hb : headerNameIs b name with
    | false => simp
    | true => simp [not_of_kind hp (by rw [headerNameIs_eq hb]; simp)]
  unfold putHeader
  dsimp only
  split
  · rw [filter_insertIdx_of_neg (p := fun b : MetaEntry ↦ p b.key) he, hkept]
  · rw [filter_append, hkept, filter_cons_of_neg (by simpa using he), filter_nil,
      append_nil]

theorem filter_overlayEntry (base : List MetaEntry) (ds : DisplacedCookies) (e : MetaEntry) :
    (overlayEntry base ds e).1.filter (fun b ↦ p b.key) =
      if p e.key then setByKey e (base.filter fun b ↦ p b.key) else base.filter fun b ↦ p b.key := by
  unfold overlayEntry
  cases hk : kind e with
  | cookie =>
    have hkey : p (cookieKey base e) = false := by
      by_contra hne
      have := hp _ (by simpa using hne)
      rw [keyKind_cookieKey hk] at this
      cases this
    rw [not_of_kind hp (by rw [hk]; simp)]
    simp [hkey]
  | header name =>
    have he : p e.key = false := not_of_kind hp (by rw [hk]; simp)
    have hput (value : String) := @filter_putHeader p hp name ⟨e.key, value⟩ he base
    rw [he, if_neg Bool.false_ne_true]
    exact hput _
  | other => exact filter_setByKey p e base

theorem filter_overlayLoop (base : List MetaEntry) (ds : DisplacedCookies) (top : List MetaEntry) :
    (overlayLoop base ds top).1.filter (fun b ↦ p b.key) =
      setByKeys (base.filter fun b ↦ p b.key) (top.filter fun e ↦ p e.key) := by
  induction top generalizing base ds with
  | nil => rfl
  | cons e top ih =>
    rw [overlayLoop]
    dsimp only
    rw [ih, filter_overlayEntry hp]
    cases he : p e.key <;> simp [he, setByKeys]

/-- **Entries that are neither headers nor cookies are set key by key.** -/
theorem filter_overlay (base top : List MetaEntry) :
    (overlay base top).1.filter (fun b ↦ p b.key) =
      setByKeys (base.filter fun b ↦ p b.key) (top.filter fun e ↦ p e.key) := by
  rw [overlay, filter_overlayLoop hp, withoutDisplaced, List.filter_filter]
  congr 1
  refine filter_congr fun b _ ↦ ?_
  cases hb : isCookie b with
  | false => simp
  | true => simp [not_of_kind hp (by rw [isCookie_eq hb]; simp)]

end

theorem filter_key_overlay (hk : keyKind key = .other) (base top : List MetaEntry) :
    (overlay base top).1.filter (fun b ↦ b.key = key) =
      ((top.filter fun e ↦ e.key = key).getLast?.elim (base.filter fun b ↦ b.key = key)
        fun e ↦ e :: (base.filter fun b ↦ b.key = key).tail) := by
  have hp : ∀ k, (decide (k = key) : Bool) = true → keyKind k = .other := by
    intro k h
    rw [of_decide_eq_true h, hk]
  refine (filter_overlay hp base top).trans ?_
  exact (filter_setByKeys (fun k ↦ decide (k = key)) base top).symm.trans
    (filter_key_setByKeys key base top)

/-! ## What cannot be sent -/

theorem mem_putHeader {name : List Char} {e : MetaEntry} {base : List MetaEntry}
    (h : x ∈ putHeader name e base) : x = e ∨ x ∈ base := by
  rcases mem_cons.mp ((putHeader_perm name e base).mem_iff.mp h) with h | h
  · exact .inl h
  · exact .inr (mem_filter.mp h).1

theorem mem_overlayEntry {base : List MetaEntry} {e : MetaEntry} (he : Sendable e)
    (hx : x ∈ (overlayEntry base ds e).1) : x ∈ base ∨ Sendable x := by
  obtain ⟨hkey, -⟩ := kind_eq_keyKind he
  unfold overlayEntry at hx
  cases hk : kind e with
  | cookie =>
    simp only [hk] at hx
    refine (mem_append.mp hx).imp_right fun hx ↦ ?_
    rw [mem_singleton.mp hx]
    refine sendable_of_keyKind ?_ (isFieldValue_of_kind (by rw [hk]; simp))
    rw [keyKind_cookieKey hk]
    simp
  | header name =>
    simp only [hk] at hx
    rcases mem_putHeader hx with rfl | hx
    · refine .inr ?_
      refine sendable_of_keyKind (by rw [← hkey, hk]; simp) ?_
      rw [String.toList_ofList]
      refine isFieldValue_mergedValue (isFieldValue_of_kind (by rw [hk]; simp)) fun v hv ↦ ?_
      obtain ⟨d, hd, rfl⟩ := List.mem_map.mp hv
      exact isFieldValue_of_kind (by rw [headerNameIs_eq (mem_filter.mp hd).2]; simp)
    · exact .inl hx
  | other =>
    simp only [hk] at hx
    rcases mem_setByKey hx with hx | rfl
    · exact .inl hx
    · exact .inr he

theorem mem_overlayLoop {base top : List MetaEntry} (ht : ∀ e ∈ top, Sendable e)
    (hx : x ∈ (overlayLoop base ds top).1) : x ∈ base ∨ Sendable x := by
  induction top generalizing base ds with
  | nil => exact .inl hx
  | cons e top ih =>
    obtain ⟨he, htop⟩ := forall_mem_cons.mp ht
    rw [overlayLoop] at hx
    rcases ih htop hx with hx | hx
    · exact mem_overlayEntry he hx
    · exact .inr hx

theorem mem_overlay {base top : List MetaEntry} (ht : ∀ e ∈ top, Sendable e)
    (hx : x ∈ (overlay base top).1) : x ∈ base ∨ Sendable x :=
  (mem_overlayLoop ht hx).imp_left fun hx ↦ (mem_filter.mp hx).1

/-- The entries of a message with a key that stay when a response is laid over it: all of them,
but for the first one if the response sets the key. -/
def staying (base top : List MetaEntry) (key : String) : List MetaEntry :=
  let same := base.filter fun e ↦ e.key = key
  if keyKind key = .other ∧ key ∈ keysOf top then same.tail else same

theorem mem_withoutDisplaced {base : List MetaEntry} (hx : x ∈ base) (hs : ¬Sendable x) :
    x ∈ withoutDisplaced base ds := by
  refine mem_filter.mpr ⟨hx, ?_⟩
  rw [isCookie, kind_of_not_sendable hs]
  rfl

/-- An entry that cannot be sent is not identified by its name, so it stays unless its key is set.
-/
theorem mem_overlayEntry_of_not_sendable {base : List MetaEntry} {e : MetaEntry} (he : Sendable e)
    (hx : x ∈ base) (hs : ¬Sendable x) (hk : keyKind x.key ≠ .other) :
    x ∈ (overlayEntry base ds e).1 := by
  unfold overlayEntry
  cases hke : kind e with
  | cookie => exact mem_append_left _ hx
  | header name =>
    refine ((putHeader_perm name _ base).mem_iff).mpr (mem_cons_of_mem _ ?_)
    refine mem_filter.mpr ⟨hx, ?_⟩
    rw [headerNameIs, kind_of_not_sendable hs]
    rfl
  | other =>
    have hne : x.key ≠ e.key := by
      intro h
      rw [h, ← (kind_eq_keyKind he).1] at hk
      exact hk hke
    clear hke
    induction base with
    | nil => exact absurd hx not_mem_nil
    | cons b base ih =>
      dsimp only
      rw [setByKey]
      split_ifs with hb
      · rcases mem_cons.mp hx with rfl | hx
        · exact absurd hb hne
        · exact mem_cons_of_mem _ hx
      · rcases mem_cons.mp hx with rfl | hx
        · exact mem_cons_self
        · exact mem_cons_of_mem _ (ih hx)

theorem mem_overlay_of_not_sendable {base top : List MetaEntry} (ht : ∀ e ∈ top, Sendable e)
    (hx : x ∈ base) (hs : ¬Sendable x) (hk : keyKind x.key ≠ .other) :
    x ∈ (overlay base top).1 := by
  have hloop (ds : DisplacedCookies) (base : List MetaEntry) (hx : x ∈ base) :
      x ∈ (overlayLoop base ds top).1 := by
    induction top generalizing base ds with
    | nil => exact hx
    | cons e top ih =>
      obtain ⟨he, htop⟩ := forall_mem_cons.mp ht
      exact ih htop _ _ (mem_overlayEntry_of_not_sendable he hx hs hk)
  exact hloop _ _ (mem_withoutDisplaced hx hs)

/-- **What an overlay leaves that cannot be sent** was there before, and its key was not set again.
-/
theorem forall_sendable_overlay_iff {base top : List MetaEntry} (ht : ∀ e ∈ top, Sendable e) :
    (∀ e ∈ (overlay base top).1, Sendable e) ↔
      ∀ key, ∀ e ∈ staying base top key, Sendable e := by
  have hsame (key : String) (hk : keyKind key = .other) :
      (∀ e ∈ (overlay base top).1.filter (fun e ↦ e.key = key), Sendable e) ↔
        ∀ e ∈ staying base top key, Sendable e := by
    rw [filter_key_overlay hk]
    unfold staying
    cases hset : (top.filter fun e ↦ e.key = key).getLast? with
    | none =>
      have hnot : key ∉ keysOf top := fun h ↦
        filter_key_ne_nil h (List.getLast?_eq_none_iff.mp hset)
      simp [hnot]
    | some t =>
      have htop := mem_filter.mp (List.mem_of_getLast? hset)
      have hin : key ∈ keysOf top :=
        List.mem_map.mpr ⟨t, htop.1, by simpa using htop.2⟩
      simp [hk, hin, ht t htop.1]
  constructor
  · intro h key e he
    by_cases hk : keyKind key = .other
    · exact (hsame key hk).mp (fun e he ↦ h e (mem_filter.mp he).1) e he
    · have he' : e ∈ base.filter fun e ↦ e.key = key := by simpa [staying, hk] using he
      obtain ⟨hb, hkey⟩ := mem_filter.mp he'
      by_contra hs
      have hkey' : e.key = key := by simpa using hkey
      exact hs (h e (mem_overlay_of_not_sendable ht hb hs (hkey' ▸ hk)))
  · intro h e he
    by_cases hk : keyKind e.key = .other
    · exact (hsame e.key hk).mpr (h e.key) e (mem_filter.mpr ⟨he, by simp⟩)
    · rcases mem_overlay ht he with hb | hs
      · refine h e.key e ?_
        simpa [staying, hk] using hb
      · exact hs

end WaferRun
