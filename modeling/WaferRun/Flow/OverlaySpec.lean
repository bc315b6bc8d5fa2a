import WaferRun.Flow.Overlay

/-!
# What an overlay leaves

Every entry has an identity: a header its name, a cookie its name, path and domain, and any other
entry its key. Laying a response over the metadata of a flow concerns only the entries whose
identity the response has (`OverlaySpec.others`): of a header it leaves one, of a cookie the
response's own, under keys that stay distinct.

The record of what was written is in the order of the response (`occurrences`). A response may have
a header twice. Then the second writing displaces the first one, which is no entry of the flow, and
the key of the first writing may be in use no more. So the record is about the moment of each
writing (`IsWritten`).
-/

open List

namespace WaferRun

open Text

/-! ## Identities -/

inductive Identity
  | cookie (id : CookieId)
  | header (name : List Char)
  | key (key : String)
deriving DecidableEq

def identity (e : MetaEntry) : Identity :=
  match kind e with
  | .cookie => .cookie (cookieId e.value)
  | .header name => .header name
  | .other => .key e.key

def ofIdentity (i : Identity) (entries : List MetaEntry) : List MetaEntry :=
  entries.filter fun e ↦ identity e = i

def mentions (entries : List MetaEntry) (i : Identity) : Bool := entries.any fun e ↦ identity e = i

structure Orderly (entries : List MetaEntry) : Prop where
  nodup : (keysOf entries).Nodup
  sendable : ∀ e ∈ entries, Sendable e

theorem identity_cookie {e : MetaEntry} (h : kind e = .cookie) :
    identity e = .cookie (cookieId e.value) := by rw [identity, h]

theorem identity_header {e : MetaEntry} {name : List Char} (h : kind e = .header name) :
    identity e = .header name := by rw [identity, h]

theorem identity_other {e : MetaEntry} (h : kind e = .other) : identity e = .key e.key := by
  rw [identity, h]

theorem kind_of_identity_cookie {e : MetaEntry} {id : CookieId} (h : identity e = .cookie id) :
    kind e = .cookie := by
  unfold identity at h
  split at h
  next hk => exact hk
  · exact absurd h nofun
  · exact absurd h nofun

theorem identity_eq_header_iff {e : MetaEntry} {name : List Char} :
    identity e = .header name ↔ headerNameIs e name = true := by
  constructor
  · intro h
    unfold identity at h
    split at h
    · exact absurd h nofun
    next hk => exact decide_eq_true (hk.trans (congrArg _ (Identity.header.inj h)))
    · exact absurd h nofun
  · exact fun h ↦ identity_header (headerNameIs_eq h)

theorem mentions_append (xs ys : List MetaEntry) (i : Identity) :
    mentions (xs ++ ys) i = (mentions xs i || mentions ys i) := any_append

theorem mentions_singleton (e : MetaEntry) (i : Identity) :
    mentions [e] i = decide (identity e = i) := Bool.or_false _

theorem mentions_eq_true_iff {entries : List MetaEntry} {i : Identity} :
    mentions entries i = true ↔ ∃ e ∈ entries, identity e = i := by
  rw [mentions, any_eq_true]
  simp only [decide_eq_true_eq]

theorem kind_eq_of_key_eq {a b : MetaEntry} (ha : Sendable a) (hb : Sendable b)
    (h : a.key = b.key) : kind a = kind b := by
  rw [(kind_eq_keyKind ha).1, (kind_eq_keyKind hb).1, h]

/-! ## One entry -/

section Entry

variable {base : List MetaEntry} {ds : DisplacedCookies} {e : MetaEntry}

def mergedHeader (name : List Char) (displaced : List MetaEntry) (e : MetaEntry) : MetaEntry :=
  ⟨e.key, String.ofList (mergedValue name (displaced.map fun d ↦ d.value.toList) e.value.toList)⟩

theorem overlayEntry_cookie (h : kind e = .cookie) (base : List MetaEntry) (ds : DisplacedCookies) :
    overlayEntry base ds e = (base ++ [⟨cookieKey base e, e.value⟩],
      (takeDisplaced (cookieId e.value) ds).2,
      some ⟨cookieKey base e, (takeDisplaced (cookieId e.value) ds).1⟩) := by
  rw [overlayEntry, h]

theorem overlayEntry_header {name : List Char} (h : kind e = .header name) (base : List MetaEntry)
    (ds : DisplacedCookies) :
    overlayEntry base ds e =
      (putHeader name (mergedHeader name (base.filter fun b ↦ headerNameIs b name) e) base, ds,
        some ⟨e.key, base.filter fun b ↦ headerNameIs b name⟩) := by
  rw [overlayEntry, h]
  rfl

theorem overlayEntry_other (h : kind e = .other) (base : List MetaEntry) (ds : DisplacedCookies) :
    overlayEntry base ds e = (setByKey e base, ds, none) := by
  rw [overlayEntry, h]

theorem cookieKey_notMem (base : List MetaEntry) (e : MetaEntry) : cookieKey base e ∉ keysOf base := by
  unfold cookieKey
  split
  · obtain ⟨n, hn, hfree, -⟩ := freshKey_spec (keysOf base)
    rw [freshCookieKey, hn]
    exact hfree
  next h =>
    intro hmem
    obtain ⟨b, hb, hkey⟩ := mem_map.mp hmem
    exact h (any_eq_true.mpr ⟨b, hb, decide_eq_true hkey⟩)

theorem stored_cookie (h : kind e = .cookie) (base : List MetaEntry) :
    Sendable ⟨cookieKey base e, e.value⟩ ∧ identity ⟨cookieKey base e, e.value⟩ = identity e := by
  have hkey := @keyKind_cookieKey base e h
  have hsend : Sendable ⟨cookieKey base e, e.value⟩ := by
    refine sendable_of_keyKind ?_ (isFieldValue_of_kind ?_)
    · rw [hkey]
      decide
    · rw [h]
      decide
  refine ⟨hsend, ?_⟩
  rw [identity_cookie ((kind_eq_keyKind hsend).1.trans hkey), identity_cookie h]

theorem stored_header {name : List Char} (h : kind e = .header name) {displaced : List MetaEntry}
    (hd : ∀ d ∈ displaced, headerNameIs d name = true) :
    Sendable (mergedHeader name displaced e) ∧ kind (mergedHeader name displaced e) = .header name := by
  have hne : kind e ≠ .other := by
    rw [h]
    exact nofun
  have hkey : keyKind e.key = .header name :=
    (kind_eq_keyKind (sendable_of_kind hne)).1.symm.trans h
  have hvalues : ∀ v ∈ displaced.map fun d ↦ d.value.toList, isFieldValue v = true := by
    intro v hv
    obtain ⟨d, hdm, rfl⟩ := mem_map.mp hv
    refine isFieldValue_of_kind ?_
    rw [headerNameIs_eq (hd d hdm)]
    exact nofun
  have hsend : Sendable (mergedHeader name displaced e) := by
    refine sendable_of_keyKind ?_ ?_
    · rw [hkey]
      exact nofun
    · rw [String.toList_ofList]
      exact isFieldValue_mergedValue (isFieldValue_of_kind hne) hvalues
  exact ⟨hsend, (kind_eq_keyKind hsend).1.trans hkey⟩

theorem headers_are (base : List MetaEntry) (name : List Char) :
    ∀ d ∈ base.filter fun b ↦ headerNameIs b name, headerNameIs d name = true :=
  fun _ hd ↦ (mem_filter.mp hd).2

theorem Orderly.of_perm {final kept : List MetaEntry} {x : MetaEntry} (hb : Orderly base)
    (hperm : final.Perm (x :: kept)) (hsub : kept.Sublist base) (hx : Sendable x)
    (hkey : ∀ b ∈ kept, b.key ≠ x.key) : Orderly final where
  nodup := by
    refine (hperm.map MetaEntry.key).nodup_iff.mpr (nodup_cons.mpr ⟨?_, ?_⟩)
    · intro hmem
      obtain ⟨b, hbk, heq⟩ := mem_map.mp hmem
      exact hkey b hbk heq
    · exact hb.nodup.sublist (hsub.map MetaEntry.key)
  sendable b hbf := by
    rcases mem_cons.mp (hperm.mem_iff.mp hbf) with rfl | hbk
    · exact hx
    · exact hb.sendable b (hsub.subset hbk)

theorem Orderly.overlayEntry (hb : Orderly base) (he : Sendable e) (ds : DisplacedCookies) :
    Orderly (overlayEntry base ds e).1 := by
  cases hk : kind e with
  | cookie =>
    rw [overlayEntry_cookie hk]
    refine hb.of_perm (perm_append_singleton _ _) (List.Sublist.refl _) (stored_cookie hk base).1
      fun b hbm heq ↦ ?_
    exact cookieKey_notMem base e (mem_map.mpr ⟨b, hbm, heq⟩)
  | header name =>
    rw [overlayEntry_header hk]
    obtain ⟨hsend, hkind⟩ := stored_header hk (headers_are base name)
    refine hb.of_perm (putHeader_perm _ _ _) filter_sublist hsend fun b hbm heq ↦ ?_
    obtain ⟨hbm, hname⟩ := mem_filter.mp hbm
    have hsame := (kind_eq_of_key_eq (hb.sendable b hbm) hsend heq).trans hkind
    rw [headerNameIs, hsame, decide_eq_true rfl] at hname
    cases hname
  | other =>
    rw [overlayEntry_other hk]
    refine hb.of_perm (setByKey_perm e hb.nodup) filter_sublist he fun b hbm heq ↦ ?_
    exact of_decide_eq_true (mem_filter.mp hbm).2 heq

theorem filter_putHeader_of_neg {p : MetaEntry → Bool} {name : List Char} {x : MetaEntry}
    (hx : p x = false) (hp : ∀ b, headerNameIs b name = true → p b = false)
    (base : List MetaEntry) : (putHeader name x base).filter p = base.filter p := by
  have hkept : (base.filter fun b ↦ !headerNameIs b name).filter p = base.filter p := by
    rw [filter_filter]
    refine filter_congr fun b _ ↦ ?_
    cases hb : headerNameIs b name with
    | false => rw [Bool.not_false, Bool.and_true]
    | true => rw [hp b hb, Bool.false_and]
  unfold putHeader
  dsimp only
  split
  · rw [filter_insertIdx_of_neg hx, hkept]
  · rw [filter_append, hkept, filter_cons_of_neg (by rw [hx]; exact nofun), filter_nil,
      append_nil]

theorem filter_headerNameIs_putHeader {name : List Char} {x : MetaEntry}
    (hx : headerNameIs x name = true) (base : List MetaEntry) :
    (putHeader name x base).filter (fun b ↦ headerNameIs b name) = [x] := by
  have hperm := (putHeader_perm name x base).filter fun b ↦ headerNameIs b name
  have hnone : (base.filter fun b ↦ !headerNameIs b name).filter (fun b ↦ headerNameIs b name) = [] := by
    refine filter_eq_nil_iff.mpr fun b hb h ↦ ?_
    have hb := (mem_filter.mp hb).2
    rw [h] at hb
    cases hb
  rw [filter_cons, if_pos hx, hnone] at hperm
  exact perm_singleton.mp hperm

theorem filter_setByKey_of_neg {p : MetaEntry → Bool} (he : p e = false)
    (hp : ∀ b ∈ base, b.key = e.key → p b = false) : (setByKey e base).filter p = base.filter p := by
  induction base with
  | nil => rw [setByKey, filter_cons_of_neg (by rw [he]; exact Bool.false_ne_true)]
  | cons b base ih =>
    rw [setByKey]
    split
    next hb =>
      have hsame : (⟨b.key, e.value⟩ : MetaEntry) = e := by rw [hb]
      rw [hsame, filter_cons_of_neg (by rw [he]; exact Bool.false_ne_true),
        filter_cons_of_neg (by rw [hp b mem_cons_self hb]; exact Bool.false_ne_true)]
    · have ih := ih fun b hb ↦ hp b (mem_cons_of_mem _ hb)
      rw [filter_cons, filter_cons, ih]

theorem filter_overlayEntry_of_neg {P : Identity → Bool} (hb : Orderly base) (he : Sendable e)
    (hP : P (identity e) = false) (ds : DisplacedCookies) :
    (overlayEntry base ds e).1.filter (fun b ↦ P (identity b)) =
      base.filter fun b ↦ P (identity b) := by
  cases hk : kind e with
  | cookie =>
    have hstored : P (identity ⟨cookieKey base e, e.value⟩) = false := by
      rw [(stored_cookie hk base).2, hP]
    rw [overlayEntry_cookie hk, filter_append,
      filter_cons_of_neg (by rw [hstored]; exact nofun), filter_nil, append_nil]
  | header name =>
    rw [identity_header hk] at hP
    rw [overlayEntry_header hk]
    refine @filter_putHeader_of_neg (fun b ↦ P (identity b)) _ _ ?_ (fun b hb' ↦ ?_) base
    · rw [identity_header (stored_header hk (headers_are base name)).2, hP]
    · rw [identity_eq_header_iff.mpr hb', hP]
  | other =>
    rw [overlayEntry_other hk]
    refine @filter_setByKey_of_neg base e (fun b ↦ P (identity b)) hP fun b hbm hkey ↦ ?_
    have hsame : identity b = identity e := by
      rw [identity_other ((kind_eq_of_key_eq (hb.sendable b hbm) he hkey).trans hk),
        identity_other hk, hkey]
    rw [hsame, hP]

end Entry

/-! ## Headers -/

def nextHeaders (name : List Char) (headers : List MetaEntry) (e : MetaEntry) : List MetaEntry :=
  if identity e = .header name then [mergedHeader name headers e] else headers

theorem ofIdentity_header (name : List Char) (entries : List MetaEntry) :
    ofIdentity (.header name) entries = entries.filter fun b ↦ headerNameIs b name :=
  filter_congr fun _ _ ↦ by
    rw [Bool.eq_iff_iff, decide_eq_true_eq, identity_eq_header_iff]

theorem ofIdentity_overlayEntry_of_ne {base : List MetaEntry} {e : MetaEntry} {i : Identity}
    (hb : Orderly base) (he : Sendable e) (hi : identity e ≠ i) (ds : DisplacedCookies) :
    ofIdentity i (overlayEntry base ds e).1 = ofIdentity i base :=
  @filter_overlayEntry_of_neg base e (fun j ↦ j = i) hb he (decide_eq_false hi) ds

theorem headers_overlayEntry {base : List MetaEntry} {e : MetaEntry} (hb : Orderly base)
    (he : Sendable e) (ds : DisplacedCookies) (name : List Char) :
    ofIdentity (.header name) (overlayEntry base ds e).1 =
      nextHeaders name (ofIdentity (.header name) base) e := by
  rw [nextHeaders]
  split
  next hi =>
    have hk := headerNameIs_eq (identity_eq_header_iff.mp hi)
    rw [overlayEntry_header hk, ofIdentity_header, ofIdentity_header]
    exact filter_headerNameIs_putHeader
      (decide_eq_true (stored_header hk (headers_are base name)).2) base
  next hi => exact ofIdentity_overlayEntry_of_ne hb he hi ds

/-! ## The loop -/

section Loop

variable {base top : List MetaEntry} {ds : DisplacedCookies}

theorem overlayLoop_cons (base : List MetaEntry) (ds : DisplacedCookies) (e : MetaEntry)
    (top : List MetaEntry) :
    overlayLoop base ds (e :: top) =
      ((overlayLoop (overlayEntry base ds e).1 (overlayEntry base ds e).2.1 top).1,
        (overlayEntry base ds e).2.2.toList ++
          (overlayLoop (overlayEntry base ds e).1 (overlayEntry base ds e).2.1 top).2) := rfl

theorem Orderly.overlayLoop (hb : Orderly base) (ht : ∀ e ∈ top, Sendable e)
    (ds : DisplacedCookies) : Orderly (overlayLoop base ds top).1 := by
  induction top generalizing base ds with
  | nil => exact hb
  | cons e top ih =>
    obtain ⟨he, ht⟩ := forall_mem_cons.mp ht
    exact ih (hb.overlayEntry he ds) ht _

theorem filter_overlayLoop_of_neg {P : Identity → Bool} (hb : Orderly base)
    (ht : ∀ e ∈ top, Sendable e) (hP : ∀ e ∈ top, P (identity e) = false) (ds : DisplacedCookies) :
    (overlayLoop base ds top).1.filter (fun b ↦ P (identity b)) =
      base.filter fun b ↦ P (identity b) := by
  induction top generalizing base ds with
  | nil => rfl
  | cons e top ih =>
    obtain ⟨he, ht⟩ := forall_mem_cons.mp ht
    obtain ⟨hPe, hP⟩ := forall_mem_cons.mp hP
    rw [overlayLoop_cons, ih (hb.overlayEntry he ds) ht hP, filter_overlayEntry_of_neg hb he hPe]

theorem headers_overlayLoop (hb : Orderly base) (ht : ∀ e ∈ top, Sendable e) (ds : DisplacedCookies)
    (name : List Char) :
    ofIdentity (.header name) (overlayLoop base ds top).1 =
      top.foldl (nextHeaders name) (ofIdentity (.header name) base) := by
  induction top generalizing base ds with
  | nil => rfl
  | cons e top ih =>
    obtain ⟨he, ht⟩ := forall_mem_cons.mp ht
    rw [overlayLoop_cons, ih (hb.overlayEntry he ds) ht, headers_overlayEntry hb he, foldl_cons]

theorem cookies_overlayLoop (hb : Orderly base) (ht : ∀ e ∈ top, Sendable e) (ds : DisplacedCookies)
    (id : CookieId) :
    (ofIdentity (.cookie id) (overlayLoop base ds top).1).map MetaEntry.value =
      (ofIdentity (.cookie id) base).map MetaEntry.value ++
        (ofIdentity (.cookie id) top).map MetaEntry.value := by
  induction top generalizing base ds with
  | nil => exact (append_nil _).symm
  | cons e top ih =>
    obtain ⟨he, ht⟩ := forall_mem_cons.mp ht
    rw [overlayLoop_cons, ih (hb.overlayEntry he ds) ht]
    by_cases hi : identity e = .cookie id
    · have hk := kind_of_identity_cookie hi
      have hstored := (stored_cookie hk base).2.trans hi
      rw [overlayEntry_cookie hk, ofIdentity, ofIdentity, ofIdentity, ofIdentity, filter_append,
        filter_cons, if_pos (decide_eq_true hstored), filter_nil, filter_cons,
        if_pos (decide_eq_true hi), map_append, map_cons, map_cons,
        append_assoc]
      rfl
    · rw [ofIdentity_overlayEntry_of_ne hb he hi, ofIdentity, ofIdentity, ofIdentity,
        filter_cons_of_neg (by simpa using hi)]

theorem length_foldl_nextHeaders (name : List Char) (headers : List MetaEntry)
    (h : headers.length ≤ 1 ∨ ∃ e ∈ top, identity e = .header name) :
    (top.foldl (nextHeaders name) headers).length ≤ 1 := by
  induction top generalizing headers with
  | nil =>
    rcases h with h | ⟨e, he, -⟩
    · exact h
    · exact absurd he not_mem_nil
  | cons e top ih =>
    refine ih _ ?_
    rw [nextHeaders]
    split
    · exact .inl (Nat.le_refl 1)
    next hi =>
      rcases h with h | ⟨x, hx, hxi⟩
      · exact .inl h
      · rcases mem_cons.mp hx with rfl | hx
        · exact absurd hxi hi
        · exact .inr ⟨x, hx, hxi⟩

end Loop

/-! ## Cookies that are set aside -/

theorem fst_takeDisplaced_snd (id taken : CookieId) (ds : DisplacedCookies) :
    (takeDisplaced id (takeDisplaced taken ds).2).1 =
      if id = taken then [] else (takeDisplaced id ds).1 := by
  induction ds with
  | nil => exact (ite_self _).symm
  | cons d ds ih =>
    obtain ⟨seen, displaced⟩ := d
    by_cases hseen : seen = taken
    · rw [takeDisplaced, if_pos hseen, takeDisplaced, takeDisplaced, hseen]
      by_cases hid : id = taken
      · rw [if_pos hid.symm, if_pos hid]
      · rw [if_neg (Ne.symm hid), if_neg hid, if_neg (Ne.symm hid)]
    · rw [takeDisplaced, if_neg hseen, takeDisplaced, takeDisplaced]
      by_cases hid : seen = id
      · rw [if_pos hid, if_pos hid, if_neg (hid ▸ hseen)]
      · rw [if_neg hid, if_neg hid, ih]

theorem fst_takeDisplaced_of_mem {ds : DisplacedCookies} (hn : (ds.map Prod.fst).Nodup)
    {d : CookieId × List MetaEntry} (hd : d ∈ ds) : (takeDisplaced d.1 ds).1 = d.2 := by
  induction ds with
  | nil => exact absurd hd not_mem_nil
  | cons d' ds ih =>
    rw [map_cons, nodup_cons] at hn
    rw [takeDisplaced]
    rcases mem_cons.mp hd with rfl | hd
    · rw [if_pos rfl]
    · have hne : d'.1 ≠ d.1 := fun heq ↦ hn.1 (heq ▸ mem_map_of_mem hd)
      rw [if_neg hne]
      exact ih hn.2 hd

theorem ofIdentity_cookie {base : List MetaEntry} (id : CookieId) :
    ofIdentity (.cookie id) base = base.filter fun b ↦ isCookie b && cookieId b.value = id := by
  refine filter_congr fun b _ ↦ ?_
  rw [Bool.eq_iff_iff, decide_eq_true_eq, Bool.and_eq_true, decide_eq_true_eq]
  constructor
  · intro h
    have hk := kind_of_identity_cookie h
    exact ⟨decide_eq_true hk, Identity.cookie.inj ((identity_cookie hk).symm.trans h)⟩
  · rintro ⟨hc, rfl⟩
    exact identity_cookie (isCookie_eq hc)

theorem fst_takeDisplaced_displacedCookies {base top : List MetaEntry} {e : MetaEntry}
    (he : e ∈ top) (hk : kind e = .cookie) :
    (takeDisplaced (cookieId e.value) (displacedCookies base top)).1 =
      ofIdentity (identity e) base := by
  have haside := setAside_displacedCookies base top
  have hmem : cookieId e.value ∈ (displacedCookies base top).map Prod.fst :=
    (haside.ids _).mpr ⟨e, mem_filter.mpr ⟨he, decide_eq_true hk⟩, rfl⟩
  obtain ⟨d, hd, hid⟩ := mem_map.mp hmem
  rw [← hid, fst_takeDisplaced_of_mem haside.nodup hd, haside.files d hd, hid, identity_cookie hk,
    ofIdentity_cookie]

theorem filter_withoutDisplaced {P : Identity → Bool} {base top : List MetaEntry}
    (hP : ∀ e ∈ top, isCookie e = true → P (identity e) = false) :
    (withoutDisplaced base (displacedCookies base top)).filter (fun b ↦ P (identity b)) =
      base.filter fun b ↦ P (identity b) := by
  rw [withoutDisplaced_eq, filter_filter]
  refine filter_congr fun b _ ↦ ?_
  cases hr : isReplacedBy top b with
  | false => rw [Bool.not_false, Bool.and_true]
  | true =>
    rw [isReplacedBy, Bool.and_eq_true, any_eq_true] at hr
    obtain ⟨hb, e, he, hsame⟩ := hr
    rw [Bool.and_eq_true, decide_eq_true_eq] at hsame
    have hid : identity b = identity e := by
      rw [identity_cookie (isCookie_eq hb), identity_cookie (isCookie_eq hsame.1), hsame.2]
    rw [hid, hP e he hsame.1, Bool.false_and]

theorem Orderly.withoutDisplaced {base : List MetaEntry} (hb : Orderly base)
    (ds : DisplacedCookies) : Orderly (withoutDisplaced base ds) where
  nodup := hb.nodup.sublist (filter_sublist.map MetaEntry.key)
  sendable b hbm := hb.sendable b (mem_filter.mp hbm).1

/-! ## A whole overlay -/

section Overlay

variable {base top : List MetaEntry}

theorem headers_overlay (hb : Orderly base) (ht : ∀ e ∈ top, Sendable e) (name : List Char) :
    ofIdentity (.header name) (overlay base top).1 =
      top.foldl (nextHeaders name) (ofIdentity (.header name) base) := by
  have hkept := @filter_withoutDisplaced (fun i ↦ i = .header name) base top fun e _ hc ↦ by
    rw [identity_cookie (isCookie_eq hc)]
    exact decide_eq_false nofun
  rw [overlay, headers_overlayLoop (hb.withoutDisplaced _) ht]
  exact congrArg (top.foldl (nextHeaders name)) hkept

theorem cookies_overlay (hb : Orderly base) (ht : ∀ e ∈ top, Sendable e) {id : CookieId}
    (hid : mentions top (.cookie id) = true) :
    (ofIdentity (.cookie id) (overlay base top).1).map MetaEntry.value =
      (ofIdentity (.cookie id) top).map MetaEntry.value := by
  obtain ⟨e, he, hei⟩ := mentions_eq_true_iff.mp hid
  have hnone : ofIdentity (.cookie id) (withoutDisplaced base (displacedCookies base top)) = [] := by
    rw [withoutDisplaced_eq, ofIdentity, filter_filter, filter_eq_nil_iff]
    intro b _ hkept
    rw [Bool.and_eq_true, decide_eq_true_eq, Bool.not_eq_true'] at hkept
    obtain ⟨hbi, hstays⟩ := hkept
    have hk := kind_of_identity_cookie hei
    have hsame : cookieId e.value = cookieId b.value := by
      rw [identity_cookie hk] at hei
      rw [identity_cookie (kind_of_identity_cookie hbi)] at hbi
      exact Identity.cookie.inj (hei.trans hbi.symm)
    have hreplaced : isReplacedBy top b = true := by
      rw [isReplacedBy, Bool.and_eq_true, any_eq_true]
      refine ⟨decide_eq_true (kind_of_identity_cookie hbi), e, he, ?_⟩
      rw [isCookie, decide_eq_true hk, decide_eq_true hsame]
      rfl
    rw [hreplaced] at hstays
    cases hstays
  rw [overlay, cookies_overlayLoop (hb.withoutDisplaced _) ht, hnone, map_nil, nil_append]

theorem others_overlay (hb : Orderly base) (ht : ∀ e ∈ top, Sendable e) :
    (overlay base top).1.filter (fun b ↦ !mentions top (identity b)) =
      base.filter fun b ↦ !mentions top (identity b) := by
  have hP : ∀ e ∈ top, (!mentions top (identity e)) = false := fun e he ↦ by
    rw [mentions_eq_true_iff.mpr ⟨e, he, rfl⟩, Bool.not_true]
  rw [overlay, @filter_overlayLoop_of_neg _ _ (fun i ↦ !mentions top i) (hb.withoutDisplaced _) ht hP]
  exact @filter_withoutDisplaced (fun i ↦ !mentions top i) base top fun e he _ ↦ hP e he

end Overlay

/-! ## The record of what was written -/

/-- The headers and cookies of a response, each with what comes before and after it. -/
def occurrences (before : List MetaEntry) :
    List MetaEntry → List (List MetaEntry × MetaEntry × List MetaEntry)
  | [] => []
  | e :: after =>
    (if kind e = .other then [] else [(before, e, after)]) ++ occurrences (before ++ [e]) after

/-- What an entry of the response displaces: the entries of its identity, if it is the first of
its identity. A later cookie displaces nothing, and a later header what the earlier ones left. -/
def displacedBy (base before : List MetaEntry) (e : MetaEntry) : List MetaEntry :=
  if mentions before (identity e) then
    if isCookie e then [] else ofIdentity (identity e) (overlay base before).1
  else ofIdentity (identity e) base

def writtenEntry (w : Written) (e : MetaEntry) : MetaEntry :=
  match kind e with
  | .header name => mergedHeader name w.displaced e
  | _ => ⟨w.key, e.value⟩

/-- A record is about an entry of the response: it has the key the entry was written under and
what the entry displaced at that moment. A cookie stays under that key, and so does the last
header of its name. -/
structure IsWritten (base final before : List MetaEntry) (e : MetaEntry) (after : List MetaEntry)
    (w : Written) : Prop where
  displaced : w.displaced = displacedBy base before e
  key : (writtenEntry w e).key = w.key
  same : identity (writtenEntry w e) = identity e
  stored : isCookie e = true ∨ mentions after (identity e) = false → writtenEntry w e ∈ final

section Record

variable {origin base before top : List MetaEntry} {ds : DisplacedCookies} {e x : MetaEntry}

/-- The overlay of `before` over `origin` has been made: what is left is `base`, and `ds` is set
aside for the cookies of `top`. -/
structure Midway (origin before base : List MetaEntry) (ds : DisplacedCookies)
    (top : List MetaEntry) : Prop where
  orderly : Orderly base
  headers : ∀ name, ofIdentity (.header name) base =
    before.foldl (nextHeaders name) (ofIdentity (.header name) origin)
  cookies : ∀ e ∈ top, kind e = .cookie →
    (takeDisplaced (cookieId e.value) ds).1 = displacedBy origin before e

theorem displacedBy_header (ho : Orderly origin) (ht : ∀ e ∈ before, Sendable e) {name : List Char}
    (hi : identity e = .header name) (hc : isCookie e = false) :
    displacedBy origin before e =
      before.foldl (nextHeaders name) (ofIdentity (.header name) origin) := by
  have hskip (l hs : List MetaEntry) (h : mentions l (.header name) = false) :
      l.foldl (nextHeaders name) hs = hs := by
    induction l generalizing hs with
    | nil => rfl
    | cons x l ih =>
      rw [mentions, any_cons, Bool.or_eq_false_iff, decide_eq_false_iff_not] at h
      rw [foldl_cons, nextHeaders, if_neg h.1, ih _ h.2]
  rw [displacedBy, hi, hc]
  cases hm : mentions before (.header name) with
  | true => exact headers_overlay ho ht name
  | false => exact (hskip before _ hm).symm

theorem Midway.step (h : Midway origin before base ds (e :: top)) (he : Sendable e) :
    Midway origin (before ++ [e]) (overlayEntry base ds e).1 (overlayEntry base ds e).2.1 top where
  orderly := h.orderly.overlayEntry he ds
  headers name := by
    rw [headers_overlayEntry h.orderly he, h.headers, foldl_append]
    rfl
  cookies x hx hk := by
    have hold := h.cookies x (mem_cons_of_mem e hx) hk
    have hcookie : isCookie x = true := decide_eq_true hk
    have hafter : displacedBy origin (before ++ [e]) x =
        if identity x = identity e then [] else displacedBy origin before x := by
      rw [displacedBy, displacedBy, mentions_append, mentions_singleton, hcookie, if_pos rfl,
        if_pos rfl]
      by_cases hsame : identity e = identity x
      · rw [if_pos hsame.symm, decide_eq_true hsame, Bool.or_true, if_pos rfl]
      · rw [if_neg (Ne.symm hsame), decide_eq_false hsame, Bool.or_false]
    rw [hafter]
    by_cases hek : kind e = .cookie
    · rw [overlayEntry_cookie hek, fst_takeDisplaced_snd, hold, identity_cookie hk,
        identity_cookie hek]
      simp only [Identity.cookie.injEq]
    · have hne : identity x ≠ identity e := fun hsame ↦
        hek (kind_of_identity_cookie (hsame.symm.trans (identity_cookie hk)))
      have hds : (overlayEntry base ds e).2.1 = ds := by
        cases hkind : kind e with
        | cookie => exact absurd hkind hek
        | header name => rw [overlayEntry_header hkind]
        | other => rw [overlayEntry_other hkind]
      rw [if_neg hne, hds, hold]

theorem mem_overlayEntry_of_ne (hb : Orderly base) (he : Sendable e) (hx : x ∈ base)
    (hne : identity e ≠ identity x) : x ∈ (overlayEntry base ds e).1 := by
  have hmem : x ∈ ofIdentity (identity x) base :=
    mem_filter.mpr ⟨hx, decide_eq_true rfl⟩
  rw [← ofIdentity_overlayEntry_of_ne hb he hne ds] at hmem
  exact (mem_filter.mp hmem).1

theorem mem_overlayLoop_of_stays (hb : Orderly base) (ht : ∀ e ∈ top, Sendable e) (hx : x ∈ base)
    (hstays : isCookie x = true ∨ mentions top (identity x) = false) :
    x ∈ (overlayLoop base ds top).1 := by
  induction top generalizing base ds with
  | nil => exact hx
  | cons e top ih =>
    obtain ⟨he, ht⟩ := forall_mem_cons.mp ht
    rw [overlayLoop_cons]
    refine ih (hb.overlayEntry he ds) ht ?_ (hstays.imp_right fun h ↦ ?_)
    · by_cases hek : kind e = .cookie
      · rw [overlayEntry_cookie hek]
        exact mem_append_left _ hx
      · refine mem_overlayEntry_of_ne hb he hx fun hsame ↦ ?_
        rcases hstays with hc | hm
        · exact hek (kind_of_identity_cookie (hsame.trans (identity_cookie (isCookie_eq hc))))
        · rw [mentions, any_cons, decide_eq_true hsame] at hm
          cases hm
    · rw [mentions, any_cons, Bool.or_eq_false_iff] at h
      exact h.2

/-- A record that is made is the one it should be. -/
theorem Midway.isWritten (h : Midway origin before base ds (e :: top)) (ho : Orderly origin)
    (hbefore : ∀ e ∈ before, Sendable e) (he : Sendable e) (ht : ∀ e ∈ top, Sendable e)
    (hk : kind e ≠ .other) :
    ∃ w, (overlayEntry base ds e).2.2 = some w ∧
      IsWritten origin (overlayLoop base ds (e :: top)).1 before e top w := by
  have hnext := h.orderly.overlayEntry he ds
  rw [overlayLoop_cons]
  cases hkind : kind e with
  | other => exact absurd hkind hk
  | cookie =>
    have hsame := (stored_cookie hkind base).2
    have hentry (d : List MetaEntry) :
        writtenEntry ⟨cookieKey base e, d⟩ e = ⟨cookieKey base e, e.value⟩ := by
      rw [writtenEntry, hkind]
    rw [overlayEntry_cookie hkind] at hnext ⊢
    refine ⟨_, rfl, h.cookies e mem_cons_self hkind, ?_, ?_, fun hstays ↦ ?_⟩
    · rw [hentry]
    · rw [hentry, hsame]
    · rw [hentry]
      refine mem_overlayLoop_of_stays hnext ht ?_ ?_
      · exact mem_append_right _ mem_cons_self
      · exact .inl (decide_eq_true (kind_of_identity_cookie (hsame.trans (identity_cookie hkind))))
  | header name =>
    have hi := identity_header hkind
    have hc : isCookie e = false := decide_eq_false fun hcookie ↦ by
      rw [hkind] at hcookie
      cases hcookie
    have hstored := (stored_header hkind (headers_are base name)).2
    have hsame := identity_header hstored
    have hentry (k : String) (d : List MetaEntry) :
        writtenEntry ⟨k, d⟩ e = mergedHeader name d e := by
      rw [writtenEntry, hkind]
    have hleft := filter_headerNameIs_putHeader (decide_eq_true hstored) base
    rw [overlayEntry_header hkind] at hnext ⊢
    refine ⟨_, rfl, ?_, ?_, ?_, fun hstays ↦ ?_⟩
    · rw [displacedBy_header ho hbefore hi hc, ← h.headers, ofIdentity_header]
    · rw [hentry]
      rfl
    · rw [hentry, hsame, hi]
    · rw [hentry]
      refine mem_overlayLoop_of_stays hnext ht ?_ (.inr ?_)
      · have hmem := mem_singleton_self (mergedHeader name
          (base.filter fun b ↦ headerNameIs b name) e)
        rw [← hleft] at hmem
        exact (mem_filter.mp hmem).1
      · rw [hsame, ← hi]
        rcases hstays with hcookie | hm
        · rw [hc] at hcookie
          cases hcookie
        · exact hm

theorem Midway.record (h : Midway origin before base ds top) (ho : Orderly origin)
    (hbefore : ∀ e ∈ before, Sendable e) (ht : ∀ e ∈ top, Sendable e) :
    List.Forall₂ (fun o w ↦ IsWritten origin (overlayLoop base ds top).1 o.1 o.2.1 o.2.2 w)
      (occurrences before top) (overlayLoop base ds top).2 := by
  induction top generalizing before base ds with
  | nil => exact .nil
  | cons e top ih =>
    obtain ⟨he, ht⟩ := forall_mem_cons.mp ht
    have hbefore' : ∀ x ∈ before ++ [e], Sendable x := by
      intro x hx
      rcases mem_append.mp hx with hx | hx
      · exact hbefore x hx
      · exact mem_singleton.mp hx ▸ he
    have hrest := ih (h.step he) hbefore' ht
    rw [occurrences]
    by_cases hk : kind e = .other
    · rw [if_pos hk, nil_append, overlayLoop_cons]
      rw [overlayEntry_other hk] at hrest ⊢
      exact hrest
    · obtain ⟨w, hw, hwritten⟩ := h.isWritten ho hbefore he ht hk
      rw [if_neg hk, singleton_append]
      rw [overlayLoop_cons] at hwritten ⊢
      rw [hw, Option.toList_some, singleton_append]
      exact .cons hwritten hrest

end Record

structure OverlaySpec (base top final : List MetaEntry) (written : List Written) : Prop where
  nodup : (keysOf final).Nodup
  header_once : ∀ name, (ofIdentity (.header name) base).length ≤ 1 ∨
    mentions top (.header name) = true → (ofIdentity (.header name) final).length ≤ 1
  cookies : ∀ id, mentions top (.cookie id) = true →
    (ofIdentity (.cookie id) final).map MetaEntry.value =
      (ofIdentity (.cookie id) top).map MetaEntry.value
  others : final.filter (fun b ↦ !mentions top (identity b)) =
    base.filter fun b ↦ !mentions top (identity b)
  record : List.Forall₂ (fun o w ↦ IsWritten base final o.1 o.2.1 o.2.2 w) (occurrences [] top)
    written

/-- **Overlay specification.** -/
theorem overlay_meets_spec {base top : List MetaEntry} (hn : (keysOf base).Nodup)
    (hb : ∀ e ∈ base, Sendable e) (ht : ∀ e ∈ top, Sendable e) :
    OverlaySpec base top (overlay base top).1 (overlay base top).2 := by
  have ho : Orderly base := ⟨hn, hb⟩
  have hstart : Midway base [] (withoutDisplaced base (displacedCookies base top))
      (displacedCookies base top) top := by
    refine ⟨ho.withoutDisplaced _, fun name ↦ ?_, fun e he hk ↦ ?_⟩
    · refine @filter_withoutDisplaced (fun i ↦ i = .header name) base top fun e _ hc ↦ ?_
      rw [identity_cookie (isCookie_eq hc)]
      exact decide_eq_false nofun
    · exact fst_takeDisplaced_displacedCookies he hk
  refine ⟨(hstart.orderly.overlayLoop ht _).nodup, fun name h ↦ ?_, fun id ↦ cookies_overlay ho ht,
    others_overlay ho ht, hstart.record ho nofun ht⟩
  rw [headers_overlay ho ht]
  exact length_foldl_nextHeaders name _ (h.imp_right mentions_eq_true_iff.mp)

/-- A response that renews the session of `sessionMeta`, with a header that is there in another
spelling and one that is new. -/
def renewal : List MetaEntry :=
  [⟨"resp.header.VARY", "Accept"⟩, ⟨"resp.set_cookie.0", "theme=dark"⟩,
    ⟨"resp.set_cookie.0", "sid=new; Path=/"⟩, ⟨"resp.header.X-Frame-Options", "DENY"⟩]

theorem overlay_meets_spec_renewal :
    OverlaySpec sessionMeta renewal (overlay sessionMeta renewal).1
      (overlay sessionMeta renewal).2 :=
  overlay_meets_spec (by decide) (by decide) (by decide)

def repeatedHeader : List MetaEntry := [⟨"resp.header.X-Tag", "a"⟩, ⟨"resp.header.x-tag", "b"⟩]

/-- The key of the first header is in use no more, and the second displaces an entry that is not
one of the flow. -/
theorem repeatedHeader_displaces_itself :
    (∀ e ∈ repeatedHeader, Sendable e) ∧
      ¬ ∀ w ∈ (overlay [] repeatedHeader).2,
        w.key ∈ keysOf (overlay [] repeatedHeader).1 ∧ ∀ d ∈ w.displaced, d ∈ ([] : List MetaEntry) := by
  decide +kernel

end WaferRun
