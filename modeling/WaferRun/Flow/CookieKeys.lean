import Mathlib
import WaferRun.Flow.Overlay

/-!
# The keys of cookies

A cookie is stored under a key that spells out its identity: the name, then the domain and the path
if the directive sets them. Neither part can hold a semicolon, since a directive is cut at its
semicolons, so the key can be read back part by part (`cookieMetaKey_eq_iff`). Writing by key
therefore replaces a cookie by the last directive for the same cookie, and by no other.
-/

open List

namespace WaferRun

open Text

def Continues {α : Type*} (c : α) (rest : List α) : Prop := rest = [] ∨ rest.head? = some c

theorem append_inj_of_continues {α : Type*} {c : α} {a a' rest rest' : List α} (ha : c ∉ a)
    (ha' : c ∉ a') (hr : Continues c rest) (hr' : Continues c rest')
    (h : a ++ rest = a' ++ rest') : a = a' ∧ rest = rest' := by
  induction a generalizing a' with
  | nil =>
    match a' with
    | [] => exact ⟨rfl, h⟩
    | x :: a' =>
      -- the other text would have to begin with the separator
      rcases hr with rfl | hr
      · exact absurd h nofun
      · rw [nil_append] at h
        rw [h, cons_append, List.head?_cons, Option.some_inj] at hr
        exact absurd (hr ▸ mem_cons_self) ha'
  | cons x a ih =>
    match a' with
    | [] =>
      rcases hr' with rfl | hr'
      · exact absurd h nofun
      · rw [nil_append] at h
        rw [← h, cons_append, List.head?_cons, Option.some_inj] at hr'
        exact absurd (hr' ▸ mem_cons_self) ha
    | y :: a' =>
      rw [cons_append, cons_append, List.cons.injEq] at h
      obtain ⟨rfl, hrest⟩ := ih (not_mem_of_not_mem_cons ha) (not_mem_of_not_mem_cons ha') h.2
      exact ⟨by rw [h.1], hrest⟩

/-! ## The parts of an identity -/

/-- An identity whose parts hold no semicolon. -/
structure CookieId.Cut (id : CookieId) : Prop where
  name : ';' ∉ id.name
  path : ';' ∉ id.path
  domain : ';' ∉ id.domain

theorem CookieId.Cut.readAttr {id : CookieId} (hid : id.Cut) {attr : List Char}
    (hattr : ';' ∉ attr) : (id.readAttr attr).Cut := by
  have hvalue : ';' ∉ trim ((splitOnce ['='] attr).getD (attr, [])).2 := by
    intro hmem
    have hmem := mem_of_mem_trim hmem
    cases hs : splitOnce ['='] attr with
    | none =>
      rw [hs] at hmem
      exact absurd hmem not_mem_nil
    | some pieces =>
      obtain ⟨key, value⟩ := pieces
      rw [hs] at hmem
      rw [eq_of_splitOnce hs] at hattr
      exact hattr (mem_append_right _ hmem)
  unfold CookieId.readAttr
  split
  next key value hpieces =>
  rw [hpieces] at hvalue
  split
  · exact ⟨hid.name, hvalue, hid.domain⟩
  · split
    · refine ⟨hid.name, hid.path, fun hmem ↦ ?_⟩
      obtain ⟨c, hc, hlower⟩ := mem_map.mp hmem
      rw [(toLower_eq_iff (by decide)).mp hlower] at hc
      exact hvalue (dropWhile_subset _ hc)
    · exact hid

theorem cookieId_cut (directive : String) : (cookieId directive).Cut := by
  have hpieces : ∀ piece ∈ directive.toList.splitOn ';', ';' ∉ piece :=
    fun piece hpiece ↦ not_mem_of_mem_splitOn hpiece
  unfold cookieId
  split
  · exact ⟨not_mem_nil, not_mem_nil, not_mem_nil⟩
  next pair attrs hsplit =>
    rw [hsplit] at hpieces
    have hname : ';' ∉ trim ((pair.splitOn '=').headD []) := by
      intro hmem
      have hmem := mem_of_mem_trim hmem
      cases hp : pair.splitOn '=' with
      | nil =>
        rw [hp] at hmem
        exact absurd hmem not_mem_nil
      | cons piece rest =>
        rw [hp] at hmem
        have hpiece : piece ∈ pair.splitOn '=' := hp ▸ mem_cons_self
        exact hpieces pair mem_cons_self (mem_of_mem_splitOn hpiece hmem)
    have hattrs := fun attr hattr ↦ hpieces attr (mem_cons_of_mem _ hattr)
    have hfold (attrs : List (List Char)) (hattrs : ∀ attr ∈ attrs, ';' ∉ attr) (id : CookieId)
        (hid : id.Cut) : (attrs.foldl CookieId.readAttr id).Cut := by
      induction attrs generalizing id with
      | nil => exact hid
      | cons attr attrs ih =>
        exact ih (fun a ha ↦ hattrs a (mem_cons_of_mem _ ha)) _
          (hid.readAttr (hattrs attr mem_cons_self))
    exact hfold attrs hattrs _ ⟨hname, not_mem_nil, not_mem_nil⟩

/-! ## The key of a cookie -/

def keyAttr (attr : String) (value : List Char) : List Char :=
  if value = [] then [] else attr.toList ++ value

def CookieId.suffix (id : CookieId) : List Char :=
  id.name ++ (keyAttr ";Domain=" id.domain ++ keyAttr ";Path=" id.path)

def cookieMetaKey (directive : String) : String :=
  metaRespCookiePrefix ++ String.ofList (cookieId directive).suffix

def cookieMeta (directive : String) : MetaEntry := ⟨cookieMetaKey directive, directive⟩

theorem keyAttr_continues {attr : String} (hattr : attr.toList.head? = some ';')
    (value : List Char) : Continues ';' (keyAttr attr value) := by
  unfold keyAttr
  split
  · exact .inl rfl
  · refine .inr ?_
    rw [List.head?_append, hattr]
    rfl

theorem keyAttr_inj {attr : String} (hattr : attr.toList ≠ []) {value value' : List Char}
    (h : keyAttr attr value = keyAttr attr value') : value = value' := by
  unfold keyAttr at h
  split at h <;> split at h
  next h₁ h₂ => rw [h₁, h₂]
  · exact absurd (append_eq_nil_iff.mp h.symm).1 hattr
  · exact absurd (append_eq_nil_iff.mp h).1 hattr
  · exact append_cancel_left h

theorem keyAttrs_inj {d d' p p' : List Char} (hd : ';' ∉ d) (hd' : ';' ∉ d')
    (h : keyAttr ";Domain=" d ++ keyAttr ";Path=" p =
      keyAttr ";Domain=" d' ++ keyAttr ";Path=" p') : d = d' ∧ p = p' := by
  have hpath (q : List Char) : Continues ';' (keyAttr ";Path=" q) := keyAttr_continues rfl q
  -- an attribute of either name is told from the other by its second character
  have hother {e q r : List Char} (he : e ≠ []) :
      keyAttr ";Domain=" e ++ r ≠ keyAttr ";Path=" q := by
    rw [keyAttr, if_neg he, keyAttr]
    intro heq
    have h₂ := congrArg (fun l : List Char ↦ l[1]?) heq
    split at h₂ <;> simp at h₂
  by_cases h₀ : d = []
  · by_cases h₀' : d' = []
    · subst h₀ h₀'
      exact ⟨rfl, keyAttr_inj (by decide) h⟩
    · rw [h₀] at h
      exact absurd h.symm (hother h₀')
  · by_cases h₀' : d' = []
    · rw [h₀'] at h
      exact absurd h (hother h₀)
    · rw [keyAttr, if_neg h₀, keyAttr.eq_def _ d', if_neg h₀', append_assoc,
        append_assoc] at h
      obtain ⟨rfl, hp⟩ :=
        append_inj_of_continues hd hd' (hpath p) (hpath p') (append_cancel_left h)
      exact ⟨rfl, keyAttr_inj (by decide) hp⟩

theorem CookieId.Cut.suffix_inj {id id' : CookieId} (hid : id.Cut) (hid' : id'.Cut)
    (h : id.suffix = id'.suffix) : id = id' := by
  have hrest (d p : List Char) : Continues ';' (keyAttr ";Domain=" d ++ keyAttr ";Path=" p) := by
    rcases @keyAttr_continues ";Domain=" rfl d with hd | hd
    · rw [hd]
      exact keyAttr_continues rfl p
    · exact .inr (by rw [List.head?_append, hd]; rfl)
  obtain ⟨hname, hattrs⟩ :=
    append_inj_of_continues hid.name hid'.name (hrest _ _) (hrest _ _) h
  obtain ⟨hdomain, hpath⟩ := keyAttrs_inj hid.domain hid'.domain hattrs
  cases id
  cases id'
  congr

theorem cookieMetaKey_eq_iff (d d' : String) :
    cookieMetaKey d = cookieMetaKey d' ↔ cookieId d = cookieId d' := by
  constructor
  · intro h
    have hlist := congrArg String.toList h
    rw [cookieMetaKey, cookieMetaKey, String.toList_append, String.toList_append] at hlist
    have hsuffix := append_cancel_left hlist
    rw [String.toList_ofList, String.toList_ofList] at hsuffix
    exact (cookieId_cut d).suffix_inj (cookieId_cut d') hsuffix
  · intro h
    rw [cookieMetaKey, cookieMetaKey, h]

example : cookieMetaKey "sid=1; path=/; DOMAIN=.A.Example; Max-Age=0" =
    "resp.set_cookie.sid;Domain=a.example;Path=/" := by decide

/-- **Cookie keys identify cookies**: two directives have the same key exactly when they set the
same cookie, so writing directives by key leaves, under the key of any cookie, the last directive
written for that cookie, or what stood there if none was. -/
theorem cookie_keys_identify_cookies :
    (∀ d d' : String, cookieMetaKey d = cookieMetaKey d' ↔ cookieId d = cookieId d') ∧
    ∀ (base : List MetaEntry) (directives : List String) (d : String),
      (setByKeys base (directives.map cookieMeta)).filter (fun e ↦ e.key = cookieMetaKey d) =
        ((directives.filter fun d' ↦ cookieId d' = cookieId d).getLast?).elim
          (base.filter fun e ↦ e.key = cookieMetaKey d)
          fun last ↦ cookieMeta last :: (base.filter fun e ↦ e.key = cookieMetaKey d).tail := by
  refine ⟨cookieMetaKey_eq_iff, fun base directives d ↦ ?_⟩
  have htop : (directives.map cookieMeta).filter (fun e ↦ e.key = cookieMetaKey d) =
      (directives.filter fun d' ↦ cookieId d' = cookieId d).map cookieMeta := by
    rw [filter_map]
    refine congrArg _ (filter_congr fun d' _ ↦ ?_)
    exact decide_eq_decide.mpr (cookieMetaKey_eq_iff d' d)
  rw [filter_key_setByKeys, htop, List.getLast?_map]
  cases (directives.filter fun d' ↦ cookieId d' = cookieId d).getLast? <;> rfl

end WaferRun
