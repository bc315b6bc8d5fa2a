import Mathlib.Data.List.Nodup
import Mathlib.Data.List.Perm.Subperm
import WaferRun.Flow.ResponseMeta

/-!
# What a short-circuit terminal inherits

A flow that stops early answers with the headers and cookies its middleware left, whatever
responding steps have written over them in the meantime. Each entry of the message *stands for*
some middleware entries: for itself, if no responder wrote it, else for the entries recorded under
its key. The accounting invariant says that the headers and cookies of the message, together with
the cookies that are set aside while a response is being laid over it, stand for exactly the
headers and cookies the flow started with.

## Where the accounting breaks

The record is updated after the whole response has been laid over the message, one written entry
at a time, and a displaced cookie is looked up in it under its key. The keys of all displaced
cookies are free from the start. If an earlier cookie of the same response takes such a key, the
record of that earlier cookie is what the lookup finds, and the middleware cookie is lost.
`keepsKeys` says that this does not happen, and `carried_iff_of_keepsKeys` that nothing else can go
wrong.
-/

open List

namespace WaferRun

open Text RestrictiveHeaders

/-! ## Fresh keys -/

theorem positionalKey_injective : Function.Injective positionalKey := by
  intro m n h
  have h' := congrArg String.toList h
  rw [positionalKey, positionalKey, String.toList_append, String.toList_append,
    append_cancel_left_eq, Nat.toString_eq_repr, Nat.toString_eq_repr, Nat.toList_repr,
    Nat.toList_repr] at h'
  rw [← Nat.ofDigitChars_ten_toDigits (n := m), h', Nat.ofDigitChars_ten_toDigits]

private theorem exists_unused (used : List String) :
    ∃ n < used.length + 1, positionalKey n ∉ used := by
  by_contra hall
  push Not at hall
  have hsub : (List.range (used.length + 1)).map positionalKey ⊆ used := by
    intro k hk
    obtain ⟨n, hn, rfl⟩ := mem_map.mp hk
    exact hall n (mem_range.mp hn)
  have hnodup : ((List.range (used.length + 1)).map positionalKey).Nodup :=
    nodup_range.map positionalKey_injective
  have hlen := (hnodup.subperm hsub).length_le
  rw [length_map, length_range] at hlen
  omega

theorem freshKey_spec (used : List String) :
    ∃ n, freshKey used = positionalKey n ∧ positionalKey n ∉ used ∧
      ∀ j < n, positionalKey j ∈ used := by
  obtain ⟨m, hm, hmu⟩ := exists_unused used
  cases hfind : (List.range (used.length + 1)).find? fun n ↦ positionalKey n ∉ used with
  | none =>
    have := List.find?_eq_none.mp hfind m (mem_range.mpr hm)
    simp [hmu] at this
  | some n =>
    obtain ⟨hn, -, hlt⟩ := List.find?_range_eq_some.mp hfind
    refine ⟨n, by rw [freshKey, hfind, Option.getD_some], by simpa using hn, fun j hj ↦ ?_⟩
    simpa using hlt j hj

theorem freshKey_congr {used used' : List String}
    (h : ∀ n, positionalKey n ∈ used ↔ positionalKey n ∈ used') : freshKey used = freshKey used' := by
  obtain ⟨m, hm, hmu, hmlt⟩ := freshKey_spec used
  obtain ⟨n, hn, hnu, hnlt⟩ := freshKey_spec used'
  have hmn : m = n := by
    rcases Nat.lt_trichotomy m n with hlt | heq | hlt
    · exact absurd ((h m).mpr (hnlt m hlt)) hmu
    · exact heq
    · exact absurd ((h n).mp (hmlt n hlt)) hnu
  rw [hm, hn, hmn]

/-! ## Entries by key -/

theorem keyKind_freshKey (used : List String) : keyKind (freshKey used) = .cookie := by
  obtain ⟨n, hn, -⟩ := freshKey_spec used
  rw [hn]
  exact keyKind_cookiePrefix _

theorem putHeader_perm (name : List Char) (e : MetaEntry) (base : List MetaEntry) :
    (putHeader name e base).Perm (e :: base.filter fun b ↦ !headerNameIs b name) := by
  unfold putHeader
  dsimp only
  split
  · exact perm_insertIdx _ _ (Nat.min_le_right _ _)
  · exact perm_append_singleton _ _

theorem setByKey_perm (e : MetaEntry) {base : List MetaEntry} (h : (keysOf base).Nodup) :
    (setByKey e base).Perm (e :: base.filter fun b ↦ b.key ≠ e.key) := by
  induction base with
  | nil => exact List.Perm.refl _
  | cons b base ih =>
    rw [keysOf, map_cons, nodup_cons] at h
    rw [setByKey]
    by_cases hb : b.key = e.key
    · have hkeep : base.filter (fun b ↦ b.key ≠ e.key) = base := by
        refine filter_eq_self.mpr fun x hx ↦ ?_
        have hne : x.key ≠ e.key := fun hxe ↦
          h.1 (mem_map.mpr ⟨x, hx, hxe.trans hb.symm⟩)
        simpa using hne
      rw [if_pos hb, filter_cons_of_neg (by simpa using hb), hkeep, hb]
    · rw [if_neg hb, filter_cons_of_pos (by simpa using hb)]
      exact ((ih h.2).cons b).trans (List.Perm.swap e b _)

theorem isFieldValue_unionTokens {values : List (List Char)}
    (h : ∀ v ∈ values, isFieldValue v = true) : isFieldValue (unionTokens values) = true := by
  have hfold (l acc : List (List Char)) (hl : ∀ t ∈ l, isFieldValue t = true)
      (hacc : ∀ t ∈ acc, isFieldValue t = true) :
      ∀ t ∈ l.foldl (fun kept t ↦ if kept.any (eqIgnoreAsciiCase · t) then kept else kept ++ [t])
        acc, isFieldValue t = true := by
    induction l generalizing acc with
    | nil => exact hacc
    | cons x l ih =>
      refine ih _ (fun t ht ↦ hl t (mem_cons_of_mem x ht)) ?_
      dsimp only
      split
      · exact hacc
      · intro t ht
        rcases mem_append.mp ht with ht | ht
        · exact hacc t ht
        · exact mem_singleton.mp ht ▸ hl x mem_cons_self
  unfold unionTokens
  dsimp only
  split
  · decide
  · refine isFieldValue_join (by decide) (hfold _ [] ?_ fun t ht ↦ absurd ht not_mem_nil)
    intro t ht
    obtain ⟨v, hv, ht⟩ := mem_flatMap.mp ht
    obtain ⟨piece, hpiece, rfl⟩ := mem_map.mp (mem_filter.mp ht).1
    exact isFieldValue_of_subset (h v hv) fun c hc ↦ mem_of_mem_splitOn hpiece (mem_of_mem_trim hc)

theorem isFieldValue_mergedValue {name own : List Char} {displaced : List (List Char)}
    (hown : isFieldValue own = true) (h : ∀ v ∈ displaced, isFieldValue v = true) :
    isFieldValue (mergedValue name displaced own) = true := by
  have hall : ∀ v ∈ displaced ++ [own], isFieldValue v = true := by
    intro v hv
    rcases mem_append.mp hv with hv | hv
    · exact h v hv
    · exact mem_singleton.mp hv ▸ hown
  have hfold (l : List (List Char)) (v : List Char) (hv : isFieldValue v = true)
      (hl : ∀ w ∈ l, isFieldValue w = true) :
      isFieldValue (l.foldl (fun a b ↦ (combine name a b).getD b) v) = true := by
    induction l generalizing v with
    | nil => exact hv
    | cons w l ih =>
      refine ih _ ?_ fun x hx ↦ hl x (mem_cons_of_mem w hx)
      have hw := hl w mem_cons_self
      dsimp only
      cases hc : combine name v w with
      | none => exact hw
      | some x => exact isFieldValue_combine hv hw hc
  unfold mergedValue
  split
  · exact isFieldValue_unionTokens hall
  · split
    · exact hown
    · next v vs =>
      refine hfold _ v (h v mem_cons_self) fun w hw ↦ hall w ?_
      exact mem_cons_of_mem v hw

/-! ## The accounting invariant -/

theorem standing_update_of_ne {record : ResponderRecord} {e : MetaEntry} {k : String}
    {v : Option (List MetaEntry)} (h : e.key ≠ k) :
    standing (Function.update record k v) e = standing record e := by
  rw [standing, standing, Function.update_of_ne h]

/-- The message `base`, with the cookies `pending` set aside, stands for exactly the headers and
cookies of `origin`. -/
structure Accounted (origin base pending : List MetaEntry) (record : ResponderRecord) : Prop where
  /-- No key is used twice. -/
  nodup : (keysOf base).Nodup
  /-- Everything on the message can be sent. -/
  sendable : ∀ e ∈ base, Sendable e
  /-- Only headers and cookies are recorded. -/
  recorded : ∀ k, record k ≠ none → keyKind k ≠ .other
  /-- Nothing is lost and nothing is added. -/
  account : ∀ m, ((∃ e ∈ base, keyKind e.key ≠ .other ∧ m ∈ standing record e) ∨
    ∃ d ∈ pending, m ∈ standing record d) ↔ m ∈ origin ∧ keyKind m.key ≠ .other

namespace Accounted

variable {origin base base' pending pending' D : List MetaEntry} {record : ResponderRecord}
  {e : MetaEntry} {p : MetaEntry → Bool}

private theorem nodup_of_perm (h : Accounted origin base pending record)
    (hperm : base'.Perm (e :: base.filter p)) (hkey : ∀ b ∈ base, p b = true → b.key ≠ e.key) :
    (keysOf base').Nodup := by
  refine ((hperm.map MetaEntry.key).nodup_iff).mpr ?_
  rw [map_cons, nodup_cons]
  constructor
  · intro hmem
    obtain ⟨b, hb, hbe⟩ := mem_map.mp hmem
    obtain ⟨hb, hp⟩ := mem_filter.mp hb
    exact hkey b hb hp hbe
  · exact h.nodup.sublist (filter_sublist.map MetaEntry.key)

private theorem sendable_of_perm (h : Accounted origin base pending record)
    (hperm : base'.Perm (e :: base.filter p)) (he : Sendable e) : ∀ b ∈ base', Sendable b := by
  intro b hb
  rcases mem_cons.mp (hperm.mem_iff.mp hb) with rfl | hb
  · exact he
  · exact h.sendable b (mem_filter.mp hb).1

/-- **One entry is written.** It takes the place of the entries `p` rejects and of some pending
cookies, all of which it displaces, and is recorded as standing for what they stood for. A cookie
that is still pending may only share its key if it stands for nothing. -/
theorem write (h : Accounted origin base pending record)
    (hperm : base'.Perm (e :: base.filter p)) (hkey : ∀ b ∈ base, p b = true → b.key ≠ e.key)
    (he : Sendable e) (htracked : keyKind e.key ≠ .other)
    (hgone : ∀ b ∈ base, p b = false → keyKind b.key ≠ .other)
    (hsplit : ∀ d, (d ∈ D ∨ d ∈ pending') ↔ ((d ∈ base ∧ p d = false) ∨ d ∈ pending))
    (hclash : ∀ d ∈ pending', d.key = e.key → standing record d = []) :
    Accounted origin base' pending' (recordWritten record ⟨e.key, D⟩) := by
  have hself : standing (recordWritten record ⟨e.key, D⟩) e = D.flatMap (standing record) := by
    rw [standing, recordWritten, Function.update_self, Option.getD_some]
  have hsame : ∀ {b : MetaEntry}, b.key ≠ e.key →
      standing (recordWritten record ⟨e.key, D⟩) b = standing record b :=
    fun hb ↦ standing_update_of_ne hb
  have hfrom : ∀ {d m : MetaEntry}, d ∈ D ∨ d ∈ pending' → m ∈ standing record d →
      m ∈ origin ∧ keyKind m.key ≠ .other := by
    intro d m hd hm
    refine (h.account m).mp ?_
    rcases (hsplit d).mp hd with ⟨hb, hp⟩ | hd
    · exact Or.inl ⟨d, hb, hgone d hb hp, hm⟩
    · exact Or.inr ⟨d, hd, hm⟩
  have hto : ∀ {d m : MetaEntry}, d ∈ D ∨ d ∈ pending' → m ∈ standing record d →
      (∃ b ∈ base', keyKind b.key ≠ .other ∧ m ∈ standing (recordWritten record ⟨e.key, D⟩) b) ∨
        ∃ d ∈ pending', m ∈ standing (recordWritten record ⟨e.key, D⟩) d := by
    rintro d m (hd | hd) hm
    · refine Or.inl ⟨e, hperm.mem_iff.mpr mem_cons_self, htracked, ?_⟩
      rw [hself]
      exact mem_flatMap.mpr ⟨d, hd, hm⟩
    · by_cases hk : d.key = e.key
      · rw [hclash d hd hk] at hm
        exact absurd hm not_mem_nil
      · exact Or.inr ⟨d, hd, (hsame hk).symm ▸ hm⟩
  refine ⟨nodup_of_perm h hperm hkey, sendable_of_perm h hperm he, ?_, ?_⟩
  · intro k hk
    by_cases hke : k = e.key
    · exact hke ▸ htracked
    · rw [recordWritten, Function.update_of_ne hke] at hk
      exact h.recorded k hk
  intro m
  constructor
  · have hD : m ∈ D.flatMap (standing record) → m ∈ origin ∧ keyKind m.key ≠ .other := by
      intro hm
      obtain ⟨d, hd, hm⟩ := mem_flatMap.mp hm
      exact hfrom (Or.inl hd) hm
    rintro (⟨b, hb, hkb, hm⟩ | ⟨d, hd, hm⟩)
    · rcases mem_cons.mp (hperm.mem_iff.mp hb) with rfl | hb
      · exact hD (hself ▸ hm)
      · obtain ⟨hb, hp⟩ := mem_filter.mp hb
        rw [hsame (hkey b hb hp)] at hm
        exact (h.account m).mp (Or.inl ⟨b, hb, hkb, hm⟩)
    · by_cases hk : d.key = e.key
      · -- a clash makes the pending cookie stand for what the new entry stands for
        rw [standing, hk, recordWritten, Function.update_self, Option.getD_some] at hm
        exact hD hm
      · exact hfrom (Or.inr hd) (hsame hk ▸ hm)
  · intro hm
    rcases (h.account m).mpr hm with ⟨b, hb, hkb, hm⟩ | ⟨d, hd, hm⟩
    · cases hp : p b with
      | false => exact hto ((hsplit b).mpr (Or.inl ⟨hb, hp⟩)) hm
      | true =>
        refine Or.inl ⟨b, hperm.mem_iff.mpr (mem_cons_of_mem e ?_), hkb, ?_⟩
        · exact mem_filter.mpr ⟨hb, hp⟩
        · rw [hsame (hkey b hb hp)]
          exact hm
    · exact hto ((hsplit d).mpr (Or.inr hd)) hm

theorem writeOther (h : Accounted origin base pending record)
    (hperm : base'.Perm (e :: base.filter p)) (hkey : ∀ b ∈ base, p b = true ↔ b.key ≠ e.key)
    (he : Sendable e) (hother : keyKind e.key = .other) :
    Accounted origin base' pending record := by
  refine ⟨nodup_of_perm h hperm fun b hb ↦ (hkey b hb).mp, sendable_of_perm h hperm he,
    h.recorded, fun m ↦ ?_⟩
  rw [← h.account m]
  refine or_congr ?_ Iff.rfl
  constructor
  · rintro ⟨b, hb, hkb, hm⟩
    rcases mem_cons.mp (hperm.mem_iff.mp hb) with rfl | hb
    · exact absurd hother hkb
    · exact ⟨b, (mem_filter.mp hb).1, hkb, hm⟩
  · rintro ⟨b, hb, hkb, hm⟩
    have hne : b.key ≠ e.key := fun hbe ↦ hkb (hbe ▸ hother)
    refine ⟨b, hperm.mem_iff.mpr (mem_cons_of_mem e ?_), hkb, hm⟩
    exact mem_filter.mpr ⟨hb, (hkey b hb).mpr hne⟩

end Accounted

/-! ## Displaced cookies -/

def pendingOf (ds : DisplacedCookies) : List MetaEntry := ds.flatMap Prod.snd

/-- The cookies set aside are filed under their identity, and one of the cookies to come claims
them. -/
structure Filed (ds : DisplacedCookies) (top : List MetaEntry) : Prop where
  nodup : (ds.map Prod.fst).Nodup
  id_eq : ∀ d ∈ ds, ∀ b ∈ d.2, cookieId b.value = d.1
  cookie : ∀ d ∈ ds, ∀ b ∈ d.2, keyKind b.key = .cookie
  claimed : ∀ d ∈ ds, d.2 ≠ [] → ∃ e ∈ top, isCookie e = true ∧ cookieId e.value = d.1

theorem mem_pendingOf {ds : DisplacedCookies} {b : MetaEntry} :
    b ∈ pendingOf ds ↔ ∃ d ∈ ds, b ∈ d.2 := mem_flatMap

theorem pendingOf_cons (d : CookieId × List MetaEntry) (ds : DisplacedCookies) :
    pendingOf (d :: ds) = d.2 ++ pendingOf ds := flatMap_cons

theorem map_fst_takeDisplaced (id : CookieId) (ds : DisplacedCookies) :
    (takeDisplaced id ds).2.map Prod.fst = ds.map Prod.fst := by
  induction ds with
  | nil => rfl
  | cons d ds ih =>
    rw [takeDisplaced]
    split
    · rfl
    · rw [map_cons, ih, map_cons]

/-- Taking the cookies of an identity takes exactly the pending cookies of that identity. -/
theorem mem_takeDisplaced (id : CookieId) {ds : DisplacedCookies} (hn : (ds.map Prod.fst).Nodup)
    (hid : ∀ d ∈ ds, ∀ b ∈ d.2, cookieId b.value = d.1) (b : MetaEntry) :
    (b ∈ (takeDisplaced id ds).1 ↔ b ∈ pendingOf ds ∧ cookieId b.value = id) ∧
      (b ∈ pendingOf (takeDisplaced id ds).2 ↔ b ∈ pendingOf ds ∧ cookieId b.value ≠ id) := by
  induction ds with
  | nil => simp [takeDisplaced, pendingOf]
  | cons d ds ih =>
    obtain ⟨seen, D⟩ := d
    rw [map_cons, nodup_cons] at hn
    have hhead : ∀ b ∈ D, cookieId b.value = seen := hid (seen, D) mem_cons_self
    have htail : ∀ d ∈ ds, ∀ b ∈ d.2, cookieId b.value = d.1 :=
      fun d hd ↦ hid d (mem_cons_of_mem _ hd)
    have hrest : b ∈ pendingOf ds → cookieId b.value ≠ seen := by
      intro hb hseen
      obtain ⟨d, hd, hb⟩ := mem_pendingOf.mp hb
      exact hn.1 (mem_map.mpr ⟨d, hd, (htail d hd b hb).symm.trans hseen⟩)
    obtain ⟨ih1, ih2⟩ := ih hn.2 htail
    rw [takeDisplaced, pendingOf_cons, mem_append]
    split
    · next hseen =>
      subst hseen
      rw [pendingOf_cons, nil_append]
      constructor
      · constructor
        · exact fun hb ↦ ⟨Or.inl hb, hhead b hb⟩
        · rintro ⟨hb | hb, heq⟩
          · exact hb
          · exact absurd heq (hrest hb)
      · constructor
        · exact fun hb ↦ ⟨Or.inr hb, hrest hb⟩
        · rintro ⟨hb | hb, hne⟩
          · exact absurd (hhead b hb) hne
          · exact hb
    · next hseen =>
      rw [pendingOf_cons, mem_append, ih1, ih2]
      have hD : b ∈ D → cookieId b.value ≠ id := fun hb heq ↦ hseen ((hhead b hb).symm.trans heq)
      constructor
      · constructor
        · exact fun h ↦ ⟨Or.inr h.1, h.2⟩
        · rintro ⟨hb | hb, heq⟩
          · exact absurd heq (hD hb)
          · exact ⟨hb, heq⟩
      · constructor
        · rintro (hb | ⟨hb, hne⟩)
          · exact ⟨Or.inl hb, hD hb⟩
          · exact ⟨Or.inr hb, hne⟩
        · rintro ⟨hb | hb, hne⟩
          · exact Or.inl hb
          · exact Or.inr ⟨hb, hne⟩

theorem mem_snd_takeDisplaced {id : CookieId} {ds : DisplacedCookies} (hn : (ds.map Prod.fst).Nodup)
    {d : CookieId × List MetaEntry} (h : d ∈ (takeDisplaced id ds).2) :
    d.2 = [] ∨ (d ∈ ds ∧ d.1 ≠ id) := by
  induction ds with
  | nil => exact absurd h not_mem_nil
  | cons d' ds ih =>
    rw [map_cons, nodup_cons] at hn
    rw [takeDisplaced] at h
    split at h
    · next hseen =>
      rcases mem_cons.mp h with rfl | h
      · exact Or.inl rfl
      · refine Or.inr ⟨mem_cons_of_mem _ h, fun hid ↦ hn.1 ?_⟩
        exact mem_map.mpr ⟨d, h, hid.trans hseen.symm⟩
    · next hseen =>
      rcases mem_cons.mp h with rfl | h
      · exact Or.inr ⟨mem_cons_self, hseen⟩
      · exact (ih hn.2 h).imp_right fun hd ↦ ⟨mem_cons_of_mem _ hd.1, hd.2⟩

theorem Filed.take {ds : DisplacedCookies} {e : MetaEntry} {top : List MetaEntry}
    (h : Filed ds (e :: top)) : Filed (takeDisplaced (cookieId e.value) ds).2 top := by
  have hold {d : CookieId × List MetaEntry} {b : MetaEntry}
      (hd : d ∈ (takeDisplaced (cookieId e.value) ds).2) (hb : b ∈ d.2) : d ∈ ds := by
    rcases mem_snd_takeDisplaced h.nodup hd with hnil | ⟨hd, -⟩
    · rw [hnil] at hb
      exact absurd hb not_mem_nil
    · exact hd
  refine ⟨(map_fst_takeDisplaced _ ds).symm ▸ h.nodup, ?_, ?_, ?_⟩
  · exact fun d hd b hb ↦ h.id_eq d (hold hd hb) b hb
  · exact fun d hd b hb ↦ h.cookie d (hold hd hb) b hb
  · intro d hd hne
    rcases mem_snd_takeDisplaced h.nodup hd with hnil | ⟨hd, hid⟩
    · exact absurd hnil hne
    · obtain ⟨e', he', hc, hide⟩ := h.claimed d hd hne
      rcases mem_cons.mp he' with rfl | he'
      · exact absurd hide.symm hid
      · exact ⟨e', he', hc, hide⟩

theorem Filed.pendingOf_eq_nil {ds : DisplacedCookies} (h : Filed ds []) : pendingOf ds = [] := by
  refine eq_nil_iff_forall_not_mem.mpr fun b hb ↦ ?_
  obtain ⟨d, hd, hb⟩ := mem_pendingOf.mp hb
  obtain ⟨e, he, -⟩ := h.claimed d hd (ne_nil_of_mem hb)
  exact absurd he not_mem_nil

theorem Filed.skip {ds : DisplacedCookies} {e : MetaEntry} {top : List MetaEntry}
    (h : Filed ds (e :: top)) (he : isCookie e = false) : Filed ds top := by
  refine ⟨h.nodup, h.id_eq, h.cookie, fun d hd hne ↦ ?_⟩
  obtain ⟨e', he', hc, hid⟩ := h.claimed d hd hne
  rcases mem_cons.mp he' with rfl | he'
  · exact absurd (hc.symm.trans he) (by decide)
  · exact ⟨e', he', hc, hid⟩

/-- The condition under which a response loses nothing. Its cookies are read in order, with the
cookie keys in use and the cookies of the message that are still to be replaced: none is stored
under the key of a cookie that a later one replaces and that stands for a middleware entry. -/
def keepsKeys (record : ResponderRecord) : List MetaEntry → List String → List MetaEntry → Bool
  | _, _, [] => true
  | later, used, e :: top =>
    if isCookie e then
      let key := if e.key ∈ used then freshKey used else e.key
      let later := later.filter fun d ↦ cookieId d.value ≠ cookieId e.value
      later.all (fun d ↦ d.key = key → standing record d = []) &&
        keepsKeys record later (used ++ [key]) top
    else keepsKeys record later used top

def isReplacedBy (top : List MetaEntry) (b : MetaEntry) : Bool :=
  isCookie b && top.any fun e ↦ isCookie e && cookieId e.value = cookieId b.value

def respondsSafely (s : FlowMeta) (top : List MetaEntry) : Bool :=
  keepsKeys s.record (s.msg.filter (isReplacedBy top))
    (keysOf (s.msg.filter fun b ↦ isCookie b && !isReplacedBy top b)) top

/-! ## One response -/

/-- What holds while a response is being laid over the message. The keys of `used` are the cookie
keys on the message, and a cookie key that is not among them is recorded as it was before. -/
structure Overlaying (origin : List MetaEntry) (record₀ : ResponderRecord) (base : List MetaEntry)
    (ds : DisplacedCookies) (record : ResponderRecord) (later : List MetaEntry)
    (used : List String) (top : List MetaEntry) : Prop where
  accounted : Accounted origin base (pendingOf ds) record
  filed : Filed ds top
  later_iff : ∀ d, d ∈ later ↔ d ∈ pendingOf ds
  used_iff : ∀ k, keyKind k = .cookie → (k ∈ keysOf base ↔ k ∈ used)
  unrecorded : ∀ k, keyKind k = .cookie → k ∉ used → record k = record₀ k

theorem keyKind_of_isCookie {e : MetaEntry} (hs : Sendable e) (h : isCookie e = true) :
    keyKind e.key = .cookie ∧ isFieldValue e.value.toList = true := by
  have hk : keyKind e.key = .cookie := (kind_eq_keyKind hs).1.symm.trans (of_decide_eq_true h)
  exact ⟨hk, (kind_eq_keyKind hs).2 (by rw [hk]; decide)⟩

namespace Overlaying

variable {origin base top later : List MetaEntry} {record₀ record : ResponderRecord}
  {ds : DisplacedCookies} {used : List String} {e : MetaEntry}

theorem cookieKey_eq (h : Overlaying origin record₀ base ds record later used top)
    (hk : keyKind e.key = .cookie) :
    cookieKey base e = if e.key ∈ used then freshKey used else e.key := by
  have hany : (base.any fun b ↦ b.key = e.key) = true ↔ e.key ∈ used := by
    rw [← h.used_iff e.key hk, keysOf, any_eq_true, mem_map]
    simp
  have hfresh : freshCookieKey base = freshKey used :=
    freshKey_congr fun n ↦ h.used_iff _ (keyKind_cookiePrefix _)
  rw [cookieKey]
  by_cases hu : e.key ∈ used
  · rw [if_pos (hany.mpr hu), if_pos hu, hfresh]
  · rw [if_neg (mt hany.mp hu), if_neg hu]

theorem cookieKey_spec (h : Overlaying origin record₀ base ds record later used top)
    (hk : keyKind e.key = .cookie) :
    keyKind (cookieKey base e) = .cookie ∧ cookieKey base e ∉ used := by
  rw [h.cookieKey_eq hk]
  split
  · obtain ⟨n, hn, hnu, -⟩ := freshKey_spec used
    exact ⟨keyKind_freshKey used, hn ▸ hnu⟩
  · next hu => exact ⟨hk, hu⟩

/-- Laying a cookie over the message. -/
theorem cookie (h : Overlaying origin record₀ base ds record later used (e :: top))
    (hs : Sendable e) (hc : isCookie e = true) {ds' : DisplacedCookies} {D : List MetaEntry}
    (htake : takeDisplaced (cookieId e.value) ds = (D, ds'))
    (hclash : ∀ d ∈ later, cookieId d.value ≠ cookieId e.value → d.key = cookieKey base e →
      standing record₀ d = []) :
    Overlaying origin record₀ (base ++ [⟨cookieKey base e, e.value⟩]) ds'
      (recordWritten record ⟨cookieKey base e, D⟩)
      (later.filter fun d ↦ cookieId d.value ≠ cookieId e.value)
      (used ++ [cookieKey base e]) top := by
  obtain ⟨hk, hv⟩ := keyKind_of_isCookie hs hc
  obtain ⟨hkey, hused⟩ := h.cookieKey_spec hk
  have htaken := mem_takeDisplaced (cookieId e.value) h.filed.nodup h.filed.id_eq
  rw [htake] at htaken
  refine ⟨?_, ?_, ?_, ?_, ?_⟩
  · refine h.accounted.write (e := ⟨cookieKey base e, e.value⟩) (p := fun _ ↦ true) ?_ ?_ ?_ ?_ ?_
      ?_ ?_
    · rw [filter_true]
      exact perm_append_singleton _ _
    · intro b hb _ hbk
      exact hused ((h.used_iff _ hkey).mp (mem_map.mpr ⟨b, hb, hbk⟩))
    · exact sendable_of_keyKind (by rw [hkey]; decide) hv
    · rw [hkey]
      decide
    · intro b _ hb
      exact absurd hb (by decide)
    · intro d
      rw [(htaken d).1, (htaken d).2]
      tauto
    · intro d hd hdk
      obtain ⟨hd, hne⟩ := (htaken d).2.mp hd
      have hstand := hclash d ((h.later_iff d).mpr hd) hne hdk
      rw [standing, hdk] at hstand ⊢
      rw [h.unrecorded _ hkey hused]
      exact hstand
  · have := h.filed.take
    rwa [htake] at this
  · intro d
    rw [mem_filter, h.later_iff, (htaken d).2]
    simp
  · intro k hkk
    rw [keysOf, map_append, mem_append, mem_append, ← keysOf, h.used_iff k hkk]
    rfl
  · intro k hkk hku
    rw [mem_append, not_or, mem_singleton] at hku
    rw [recordWritten, Function.update_of_ne hku.2]
    exact h.unrecorded k hkk hku.1

/-- Laying a header over the message. -/
theorem header (h : Overlaying origin record₀ base ds record later used (e :: top))
    (hs : Sendable e) {name : List Char} (hkind : kind e = .header name) {value : String}
    (hv : isFieldValue value.toList = true) :
    Overlaying origin record₀ (putHeader name ⟨e.key, value⟩ base) ds
      (recordWritten record ⟨e.key, base.filter fun b ↦ headerNameIs b name⟩) later used top := by
  have hk : keyKind e.key = .header name := (kind_eq_keyKind hs).1.symm.trans hkind
  have hname {b : MetaEntry} (hb : b ∈ base) :
      headerNameIs b name = true ↔ keyKind b.key = .header name := by
    rw [headerNameIs, decide_eq_true_eq, (kind_eq_keyKind (h.accounted.sendable b hb)).1]
  have hne {k : String} (hkk : keyKind k = .cookie) : k ≠ e.key := by
    rintro rfl
    exact absurd (hkk.symm.trans hk) (by simp)
  have hperm := putHeader_perm name ⟨e.key, value⟩ base
  refine ⟨?_, h.filed.skip (by rw [isCookie, hkind]; simp), h.later_iff, ?_, ?_⟩
  · refine h.accounted.write (e := ⟨e.key, value⟩) hperm ?_ ?_ ?_ ?_ ?_ ?_
    · intro b hb hp hbe
      rw [Bool.not_eq_true', Bool.eq_false_iff, ne_eq, hname hb, hbe] at hp
      exact hp hk
    · exact sendable_of_keyKind (by rw [hk]; simp) hv
    · rw [hk]
      simp
    · intro b hb hp
      rw [Bool.not_eq_false', hname hb] at hp
      rw [hp]
      simp
    · intro d
      rw [mem_filter, Bool.not_eq_false']
    · intro d hd hde
      obtain ⟨f, hf, hd⟩ := mem_pendingOf.mp hd
      exact absurd hde (hne (h.filed.cookie f hf d hd))
  · intro k hkk
    rw [← h.used_iff k hkk, keysOf, (hperm.map MetaEntry.key).mem_iff, map_cons, mem_cons,
      keysOf, or_iff_right (hne hkk), mem_map, mem_map]
    constructor
    · rintro ⟨b, hb, rfl⟩
      exact ⟨b, (mem_filter.mp hb).1, rfl⟩
    · rintro ⟨b, hb, rfl⟩
      refine ⟨b, mem_filter.mpr ⟨hb, ?_⟩, rfl⟩
      rw [Bool.not_eq_true', Bool.eq_false_iff, ne_eq, hname hb, hkk]
      simp
  · intro k hkk hku
    rw [recordWritten, Function.update_of_ne (hne hkk)]
    exact h.unrecorded k hkk hku

theorem other (h : Overlaying origin record₀ base ds record later used (e :: top))
    (hs : Sendable e) (hkind : kind e = .other) :
    Overlaying origin record₀ (setByKey e base) ds record later used top := by
  have hk : keyKind e.key = .other := (kind_eq_keyKind hs).1.symm.trans hkind
  have hperm := setByKey_perm e h.accounted.nodup
  refine ⟨?_, h.filed.skip (by rw [isCookie, hkind]; simp), h.later_iff, ?_, h.unrecorded⟩
  · exact h.accounted.writeOther hperm (fun b _ ↦ by simp) hs hk
  · intro k hkk
    have hne : k ≠ e.key := by
      rintro rfl
      exact absurd (hkk.symm.trans hk) (by simp)
    rw [← h.used_iff k hkk, keysOf, (hperm.map MetaEntry.key).mem_iff, map_cons, mem_cons,
      keysOf, or_iff_right hne, mem_map, mem_map]
    constructor
    · rintro ⟨b, hb, rfl⟩
      exact ⟨b, (mem_filter.mp hb).1, rfl⟩
    · rintro ⟨b, hb, rfl⟩
      exact ⟨b, mem_filter.mpr ⟨hb, by simpa using hne⟩, rfl⟩

/-- **The whole response.** If its cookies keep clear of the keys of cookies still to be replaced,
the accounts are in order when all of it has been laid over the message and recorded. -/
theorem loop (h : Overlaying origin record₀ base ds record later used top)
    (hs : ∀ e ∈ top, Sendable e) (hkeep : keepsKeys record₀ later used top = true) :
    Accounted origin (overlayLoop base ds top).1 []
      ((overlayLoop base ds top).2.foldl recordWritten record) := by
  induction top generalizing base ds record later used with
  | nil =>
    have := h.accounted
    rwa [h.filed.pendingOf_eq_nil] at this
  | cons e top ih =>
    have hse := hs e mem_cons_self
    have hst : ∀ e ∈ top, Sendable e := fun x hx ↦ hs x (mem_cons_of_mem e hx)
    have hstep : overlayLoop base ds (e :: top) =
        ((overlayLoop (overlayEntry base ds e).1 (overlayEntry base ds e).2.1 top).1,
          (overlayEntry base ds e).2.2.toList ++
            (overlayLoop (overlayEntry base ds e).1 (overlayEntry base ds e).2.1 top).2) := rfl
    rw [hstep, foldl_append]
    rw [keepsKeys] at hkeep
    cases hkind : kind e with
    | cookie =>
      have hc : isCookie e = true := by rw [isCookie, hkind]; rfl
      have hentry : overlayEntry base ds e =
          (base ++ [⟨cookieKey base e, e.value⟩], (takeDisplaced (cookieId e.value) ds).2,
            some ⟨cookieKey base e, (takeDisplaced (cookieId e.value) ds).1⟩) := by
        rw [overlayEntry, hkind]
      have hkey := h.cookieKey_eq (keyKind_of_isCookie hse hc).1
      rw [if_pos hc, ← hkey, Bool.and_eq_true, all_eq_true] at hkeep
      rw [hentry]
      refine ih (h.cookie hse hc rfl ?_) hst hkeep.2
      intro d hd hne hdk
      have := hkeep.1 d (mem_filter.mpr ⟨hd, by simpa using hne⟩)
      rw [decide_eq_true_eq] at this
      exact this hdk
    | header name =>
      have hc : isCookie e = false := by rw [isCookie, hkind]; simp
      rw [if_neg (by rw [hc]; decide)] at hkeep
      have hk := kind_eq_keyKind hse
      rw [hkind] at hk
      have hv : isFieldValue (String.ofList (mergedValue name
          ((base.filter fun b ↦ headerNameIs b name).map fun d ↦ d.value.toList)
          e.value.toList)).toList = true := by
        rw [String.toList_ofList]
        refine isFieldValue_mergedValue (hk.2 (by rw [← hk.1]; simp)) fun v hv ↦ ?_
        obtain ⟨b, hb, rfl⟩ := mem_map.mp hv
        obtain ⟨hb, hn⟩ := mem_filter.mp hb
        have hkb := kind_eq_keyKind (h.accounted.sendable b hb)
        rw [headerNameIs, decide_eq_true_eq, hkb.1] at hn
        exact hkb.2 (by rw [hn]; simp)
      have hentry := h.header hse hkind hv
      rw [overlayEntry, hkind]
      exact ih hentry hst hkeep
    | other =>
      have hc : isCookie e = false := by rw [isCookie, hkind]; simp
      rw [if_neg (by rw [hc]; decide)] at hkeep
      rw [overlayEntry, hkind]
      exact ih (h.other hse hkind) hst hkeep

end Overlaying

/-! ## Setting cookies aside -/

structure SetAside (base seen : List MetaEntry) (ds : DisplacedCookies) : Prop where
  nodup : (ds.map Prod.fst).Nodup
  files : ∀ d ∈ ds, d.2 = base.filter fun b ↦ isCookie b && cookieId b.value = d.1
  ids : ∀ id, id ∈ ds.map Prod.fst ↔ ∃ e ∈ seen, cookieId e.value = id

theorem SetAside.note {base seen : List MetaEntry} {ds : DisplacedCookies}
    (h : SetAside base seen ds) (e : MetaEntry) :
    SetAside base (seen ++ [e]) (noteDisplaced base ds e) := by
  have hseen (id : CookieId) : (∃ x ∈ seen ++ [e], cookieId x.value = id) ↔
      (∃ x ∈ seen, cookieId x.value = id) ∨ cookieId e.value = id := by
    simp only [mem_append, mem_singleton, or_and_right, exists_or, exists_eq_left]
  have hall : (ds.all fun d ↦ d.1 ≠ cookieId e.value) = true ↔
      cookieId e.value ∉ ds.map Prod.fst := by
    rw [all_eq_true, mem_map]
    simp only [decide_eq_true_eq, not_exists, not_and]
  unfold noteDisplaced
  dsimp only
  by_cases hnew : cookieId e.value ∈ ds.map Prod.fst
  · rw [if_neg (fun hd ↦ hall.mp hd hnew)]
    refine ⟨h.nodup, h.files, fun id ↦ ?_⟩
    rw [h.ids, hseen, or_iff_left_of_imp]
    rintro rfl
    exact (h.ids _).mp hnew
  · rw [if_pos (hall.mpr hnew)]
    refine ⟨?_, ?_, fun id ↦ ?_⟩
    · rw [map_append, map_singleton, ← concat_eq_append]
      exact h.nodup.concat hnew
    · intro d hd
      rcases mem_append.mp hd with hd | hd
      · exact h.files d hd
      · rw [mem_singleton.mp hd]
    · rw [map_append, mem_append, h.ids, hseen, map_singleton, mem_singleton,
        eq_comm (a := id)]

theorem setAside_displacedCookies (base top : List MetaEntry) :
    SetAside base (top.filter isCookie) (displacedCookies base top) := by
  have hfold (l seen : List MetaEntry) (ds : DisplacedCookies) (h : SetAside base seen ds) :
      SetAside base (seen ++ l) (l.foldl (noteDisplaced base) ds) := by
    induction l generalizing seen ds with
    | nil => rwa [append_nil]
    | cons e l ih =>
      have := ih (seen ++ [e]) _ (h.note e)
      rwa [append_assoc, singleton_append] at this
  refine hfold (top.filter isCookie) [] [] ⟨nodup_nil, ?_, ?_⟩
  · exact fun d hd ↦ absurd hd not_mem_nil
  · simp

section Start

variable {origin base top : List MetaEntry} {record : ResponderRecord}

private theorem exists_file_iff (base top : List MetaEntry) (b : MetaEntry) :
    (∃ d ∈ displacedCookies base top, d.1 = cookieId b.value) ↔
      ∃ e ∈ top, isCookie e = true ∧ cookieId e.value = cookieId b.value := by
  have := (setAside_displacedCookies base top).ids (cookieId b.value)
  rw [mem_map] at this
  rw [this]
  simp only [mem_filter, and_assoc]

private theorem isReplacedBy_iff {b : MetaEntry} :
    isReplacedBy top b = true ↔
      isCookie b = true ∧ ∃ e ∈ top, isCookie e = true ∧ cookieId e.value = cookieId b.value := by
  rw [isReplacedBy, Bool.and_eq_true, any_eq_true]
  simp only [Bool.and_eq_true, decide_eq_true_eq]

theorem mem_pendingOf_displacedCookies {b : MetaEntry} :
    b ∈ pendingOf (displacedCookies base top) ↔ b ∈ base ∧ isReplacedBy top b = true := by
  have hfiles := (setAside_displacedCookies base top).files
  rw [mem_pendingOf, isReplacedBy_iff, ← exists_file_iff base top b]
  constructor
  · rintro ⟨d, hd, hb⟩
    rw [hfiles d hd, mem_filter, Bool.and_eq_true, decide_eq_true_eq] at hb
    exact ⟨hb.1, hb.2.1, d, hd, hb.2.2.symm⟩
  · rintro ⟨hb, hc, d, hd, hid⟩
    refine ⟨d, hd, ?_⟩
    rw [hfiles d hd, mem_filter, Bool.and_eq_true, decide_eq_true_eq]
    exact ⟨hb, hc, hid.symm⟩

theorem withoutDisplaced_eq :
    withoutDisplaced base (displacedCookies base top) = base.filter fun b ↦ !isReplacedBy top b := by
  rw [withoutDisplaced]
  refine filter_congr fun b _ ↦ ?_
  rw [Bool.eq_iff_iff, Bool.or_eq_true, Bool.not_eq_true', Bool.not_eq_true', Bool.eq_false_iff,
    Bool.eq_false_iff, ne_eq, ne_eq, isReplacedBy_iff, ← exists_file_iff base top b,
    all_eq_true]
  simp only [decide_eq_true_eq]
  push Not
  exact imp_iff_not_or.symm

theorem Accounted.setAside (h : Accounted origin base [] record) (top : List MetaEntry) :
    Accounted origin (withoutDisplaced base (displacedCookies base top))
      (pendingOf (displacedCookies base top)) record := by
  rw [withoutDisplaced_eq]
  refine ⟨h.nodup.sublist (filter_sublist.map MetaEntry.key),
    fun e he ↦ h.sendable e (mem_filter.mp he).1, h.recorded, fun m ↦ ?_⟩
  rw [← h.account m]
  constructor
  · rintro (⟨e, he, hk, hm⟩ | ⟨d, hd, hm⟩)
    · exact Or.inl ⟨e, (mem_filter.mp he).1, hk, hm⟩
    · obtain ⟨hd, hr⟩ := mem_pendingOf_displacedCookies.mp hd
      have hc := (keyKind_of_isCookie (h.sendable d hd) (isReplacedBy_iff.mp hr).1).1
      exact Or.inl ⟨d, hd, by rw [hc]; decide, hm⟩
  · rintro (⟨e, he, hk, hm⟩ | ⟨d, hd, -⟩)
    · cases hr : isReplacedBy top e with
      | true => exact Or.inr ⟨e, mem_pendingOf_displacedCookies.mpr ⟨he, hr⟩, hm⟩
      | false => exact Or.inl ⟨e, mem_filter.mpr ⟨he, by rw [hr]; rfl⟩, hk, hm⟩
    · exact absurd hd not_mem_nil

theorem keyKind_bodyHints {k : String} (h : k ∈ bodyHints) : keyKind k = .other := by
  rw [bodyHints, mem_cons, mem_singleton] at h
  rcases h with rfl | rfl <;> decide

theorem filed_displacedCookies (hs : ∀ e ∈ base, Sendable e) :
    Filed (displacedCookies base top) top := by
  have h := setAside_displacedCookies base top
  have hfile {d : CookieId × List MetaEntry} {b : MetaEntry} (hd : d ∈ displacedCookies base top)
      (hb : b ∈ d.2) : b ∈ base ∧ isCookie b = true ∧ cookieId b.value = d.1 := by
    rw [h.files d hd, mem_filter, Bool.and_eq_true, decide_eq_true_eq] at hb
    exact hb
  refine ⟨h.nodup, fun d hd b hb ↦ (hfile hd hb).2.2, fun d hd b hb ↦ ?_, fun d hd _ ↦ ?_⟩
  · obtain ⟨hb, hc, -⟩ := hfile hd hb
    exact (keyKind_of_isCookie (hs b hb) hc).1
  · obtain ⟨e, he, hid⟩ := (h.ids d.1).mp (mem_map_of_mem hd)
    obtain ⟨he, hc⟩ := mem_filter.mp he
    exact ⟨e, he, hc, hid⟩

theorem Accounted.dropHints (h : Accounted origin base [] record) :
    Accounted origin (base.filter fun e ↦ e.key ∉ bodyHints) [] record := by
  refine ⟨h.nodup.sublist (filter_sublist.map MetaEntry.key),
    fun e he ↦ h.sendable e (mem_filter.mp he).1, h.recorded, fun m ↦ ?_⟩
  rw [← h.account m]
  refine or_congr (exists_congr fun e ↦ ?_) Iff.rfl
  rw [mem_filter, and_assoc]
  refine and_congr_right fun _ ↦ and_iff_right_of_imp fun hk ↦ ?_
  rw [decide_eq_true_eq]
  exact fun hmem ↦ hk.1 (keyKind_bodyHints hmem)

end Start

/-- **A response that keeps clear of the keys of replaced cookies** keeps the accounts in order. -/
theorem Accounted.applyResponse {origin top : List MetaEntry} {s : FlowMeta}
    (h : Accounted origin s.msg [] s.record) (hs : ∀ e ∈ top, Sendable e)
    (hsafe : respondsSafely s top = true) :
    Accounted origin (applyResponse s top).msg [] (applyResponse s top).record := by
  have hd := h.dropHints
  have hkeep {b : MetaEntry} (hb : b ∈ s.msg) (hc : isCookie b = true) :
      b ∈ s.msg.filter fun e ↦ e.key ∉ bodyHints := by
    refine mem_filter.mpr ⟨hb, ?_⟩
    rw [decide_eq_true_eq]
    intro hmem
    have := (keyKind_of_isCookie (h.sendable b hb) hc).1
    rw [keyKind_bodyHints hmem] at this
    exact absurd this (by decide)
  have hstart : Overlaying origin s.record
      (withoutDisplaced (s.msg.filter fun e ↦ e.key ∉ bodyHints)
        (displacedCookies (s.msg.filter fun e ↦ e.key ∉ bodyHints) top))
      (displacedCookies (s.msg.filter fun e ↦ e.key ∉ bodyHints) top) s.record
      (s.msg.filter (isReplacedBy top))
      (keysOf (s.msg.filter fun b ↦ isCookie b && !isReplacedBy top b)) top := by
    refine ⟨hd.setAside top, filed_displacedCookies hd.sendable, fun d ↦ ?_, fun k hk ↦ ?_,
      fun _ _ _ ↦ rfl⟩
    · rw [mem_pendingOf_displacedCookies, mem_filter]
      constructor
      · exact fun ⟨hmem, hr⟩ ↦ ⟨hkeep hmem (isReplacedBy_iff.mp hr).1, hr⟩
      · exact fun ⟨hmem, hr⟩ ↦ ⟨(mem_filter.mp hmem).1, hr⟩
    · rw [withoutDisplaced_eq, keysOf, keysOf, mem_map, mem_map]
      constructor
      · rintro ⟨b, hb, rfl⟩
        obtain ⟨hb, hr⟩ := mem_filter.mp hb
        have hb' := (mem_filter.mp hb).1
        have hc : isCookie b = true := by
          rw [isCookie, decide_eq_true_eq, (kind_eq_keyKind (h.sendable b hb')).1, hk]
        exact ⟨b, mem_filter.mpr ⟨hb', by rw [hc]; exact hr⟩, rfl⟩
      · rintro ⟨b, hb, rfl⟩
        obtain ⟨hb, hcr⟩ := mem_filter.mp hb
        rw [Bool.and_eq_true] at hcr
        exact ⟨b, mem_filter.mpr ⟨hkeep hb hcr.1, hcr.2⟩, rfl⟩
  exact hstart.loop hs hsafe

/-! ## Whole flows -/

inductive MetaStep
  | respond (top : List MetaEntry)
  | passThrough
deriving DecidableEq, Repr

def MetaStep.isSendable : MetaStep → Bool
  | .respond top => top.all fun e ↦ Sendable e
  | .passThrough => true

def FlowMeta.step (s : FlowMeta) : MetaStep → FlowMeta
  | .respond top => applyResponse s top
  | .passThrough => ⟨afterContinue s.record s.msg s.msg, s.msg⟩

def FlowMeta.run (s : FlowMeta) (steps : List MetaStep) : FlowMeta := steps.foldl FlowMeta.step s

def FlowMeta.start (origin : List MetaEntry) : FlowMeta := ⟨fun _ ↦ none, origin⟩

/-- Every response of a run meets its condition in the state it is laid over. -/
def runsSafely (s : FlowMeta) : List MetaStep → Bool
  | [] => true
  | .respond top :: steps => respondsSafely s top && runsSafely (applyResponse s top) steps
  | .passThrough :: steps => runsSafely (s.step .passThrough) steps

theorem accounted_start {origin : List MetaEntry} (hn : (keysOf origin).Nodup)
    (hs : ∀ e ∈ origin, Sendable e) : Accounted origin origin [] fun _ ↦ none := by
  refine ⟨hn, hs, fun k hk ↦ absurd rfl hk, fun m ↦ ?_⟩
  constructor
  · rintro (⟨e, he, hk, hm⟩ | ⟨d, hd, -⟩)
    · obtain rfl := mem_singleton.mp hm
      exact ⟨he, hk⟩
    · exact absurd hd not_mem_nil
  · exact fun ⟨hm, hk⟩ ↦ Or.inl ⟨m, hm, hk, mem_singleton_self m⟩

theorem standing_afterContinue {record : ResponderRecord} {msg : List MetaEntry} {e : MetaEntry}
    (he : e ∈ msg) : standing (afterContinue record msg msg) e = standing record e := by
  have hsome : valueOf msg e.key ≠ none := by
    rw [valueOf, ne_eq, Option.map_eq_none_iff, List.find?_eq_none]
    exact fun hall ↦ hall e he (by simp)
  rw [standing, standing, afterContinue, if_pos ⟨hsome, rfl⟩]

theorem Accounted.passThrough {origin : List MetaEntry} {s : FlowMeta}
    (h : Accounted origin s.msg [] s.record) :
    Accounted origin s.msg [] (afterContinue s.record s.msg s.msg) := by
  refine ⟨h.nodup, h.sendable, fun k hk ↦ h.recorded k fun hnone ↦ hk ?_, fun m ↦ ?_⟩
  · rw [afterContinue, hnone, ite_self]
  · rw [← h.account m]
    refine or_congr (exists_congr fun e ↦ and_congr_right fun he ↦ ?_) ?_
    · rw [standing_afterContinue he]
    · simp

theorem accounted_run {origin : List MetaEntry} {s : FlowMeta} {steps : List MetaStep}
    (h : Accounted origin s.msg [] s.record)
    (hs : ∀ step ∈ steps, step.isSendable = true) (hsafe : runsSafely s steps = true) :
    Accounted origin (s.run steps).msg [] (s.run steps).record := by
  induction steps generalizing s with
  | nil => exact h
  | cons step steps ih =>
    have hs' : ∀ step ∈ steps, step.isSendable = true :=
      fun step ht ↦ hs step (mem_cons_of_mem _ ht)
    cases step with
    | respond top =>
      rw [runsSafely, Bool.and_eq_true] at hsafe
      have htop : ∀ e ∈ top, Sendable e := fun e he ↦
        of_decide_eq_true (all_eq_true.mp (hs _ mem_cons_self) e he)
      exact ih (h.applyResponse htop hsafe.1) hs' hsafe.2
    | passThrough => exact ih h.passThrough hs' hsafe

theorem Accounted.mem_carried {origin : List MetaEntry} {s : FlowMeta}
    (h : Accounted origin s.msg [] s.record) (ho : ∀ e ∈ origin, Sendable e) (m : MetaEntry) :
    m ∈ carried s ↔ m ∈ origin ∧ inherited m = true := by
  have hkind {m : MetaEntry} (hm : kind m = .other) : inherited m = false := by
    rw [inherited, hm]
  rw [carried, mem_filter, mem_flatMap]
  refine and_congr_left fun hin ↦ ?_
  constructor
  · rintro ⟨e, he, hm⟩
    by_cases hk : keyKind e.key = .other
    · -- an entry that is neither header nor cookie stands for itself
      have hnone : s.record e.key = none := by
        by_contra hrec
        exact h.recorded _ hrec hk
      rw [standing, hnone, Option.getD_none, mem_singleton] at hm
      have := hkind ((kind_eq_keyKind (h.sendable e he)).1.trans hk)
      rw [← hm, hin] at this
      exact absurd this (by decide)
    · exact ((h.account m).mp (Or.inl ⟨e, he, hk, hm⟩)).1
  · intro hm
    have hk : keyKind m.key ≠ .other := by
      intro hk
      have := hkind ((kind_eq_keyKind (ho m hm)).1.trans hk)
      rw [hin] at this
      exact absurd this (by decide)
    rcases (h.account m).mpr ⟨hm, hk⟩ with ⟨e, he, -, hm⟩ | ⟨d, hd, -⟩
    · exact ⟨e, he, hm⟩
    · exact absurd hd not_mem_nil

/-- **Short-circuit terminals inherit the middleware's view.** In a run whose responses all keep
clear of the keys of cookies they have yet to replace, the entries carried are the headers and
cookies the flow started with, less the headers that describe a body. -/
theorem carried_iff_of_keepsKeys {origin : List MetaEntry} (hn : (keysOf origin).Nodup)
    (ho : ∀ e ∈ origin, Sendable e) {steps : List MetaStep}
    (hs : ∀ step ∈ steps, step.isSendable = true)
    (hsafe : runsSafely (.start origin) steps = true) (e : MetaEntry) :
    e ∈ carried ((FlowMeta.start origin).run steps) ↔ e ∈ origin ∧ inherited e = true :=
  (accounted_run (s := .start origin) (accounted_start hn ho) hs hsafe).mem_carried ho e

def sessionMeta : List MetaEntry :=
  [⟨"resp.header.Vary", "Origin"⟩, ⟨"resp.set_cookie.0", "sid=mw; Path=/"⟩]

def renewingResponse : List MetaEntry :=
  [⟨"resp.header.vary", "Accept"⟩, ⟨"resp.set_cookie.0", "sid=new; Path=/"⟩,
    ⟨"resp.set_cookie.1", "theme=dark"⟩]

theorem carried_iff_of_keepsKeys_session :
    (keysOf sessionMeta).Nodup ∧ (∀ e ∈ sessionMeta, Sendable e) ∧
      (∀ step ∈ [MetaStep.respond renewingResponse, .passThrough], step.isSendable = true) ∧
      runsSafely (.start sessionMeta) [.respond renewingResponse, .passThrough] = true ∧
      ∀ e, e ∈ carried
          ((FlowMeta.start sessionMeta).run [.respond renewingResponse, .passThrough]) ↔
        e ∈ sessionMeta ∧ inherited e = true := by
  have hn : (keysOf sessionMeta).Nodup := by decide
  have ho : ∀ e ∈ sessionMeta, Sendable e := by decide
  have hs : ∀ step ∈ [MetaStep.respond renewingResponse, .passThrough], step.isSendable = true := by
    decide
  have hsafe : runsSafely (.start sessionMeta) [.respond renewingResponse, .passThrough] = true := by
    decide
  exact ⟨hn, ho, hs, hsafe, carried_iff_of_keepsKeys hn ho hs hsafe⟩

/-- The same cookies in the other order: the key of the session cookie is free, the first cookie
takes it, and the second is recorded as having displaced what the first one did. -/
def reorderedResponse : List MetaEntry :=
  [⟨"resp.set_cookie.0", "theme=dark"⟩, ⟨"resp.set_cookie.1", "sid=new; Path=/"⟩]

/-- The middleware's session cookie is not among the cookies carried. -/
theorem session_lost_after_reorderedResponse :
    (keysOf sessionMeta).Nodup ∧ (∀ e ∈ sessionMeta, Sendable e) ∧
      (∀ step ∈ [MetaStep.respond reorderedResponse], step.isSendable = true) ∧
      ⟨"resp.set_cookie.0", "sid=mw; Path=/"⟩ ∈ sessionMeta ∧
      isCookie ⟨"resp.set_cookie.0", "sid=mw; Path=/"⟩ = true ∧
      ∀ e ∈ carried ((FlowMeta.start sessionMeta).run [.respond reorderedResponse]),
        ¬(isCookie e = true ∧ cookieId e.value = cookieId "sid=mw; Path=/") := by
  refine ⟨?_, ?_, ?_, ?_, ?_, ?_⟩ <;> decide

end WaferRun
