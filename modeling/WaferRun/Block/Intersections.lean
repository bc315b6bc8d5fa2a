import WaferRun.Block.Capabilities
import WaferRun.Lib.Covering

/-!
# What an intersection of allowlists admits

Two capability sets are combined list by list. For lists of storage folders the combination admits
exactly what both lists admit (`storage_intersection_exact`), whatever entries they have. Lists of
URLs also match by paths, but they are combined like lists that match exactly. The combination
admits less than both lists do where an entry of one lies below an entry of the other and no common
entry covers it, and nowhere else (`network_intersection_exact_iff`).
-/

open List

namespace WaferRun

open Covering

namespace Allowlist

/-! ## Storage folders -/

theorem nested_pathPrefixCovers : Nested fun x y ↦ pathPrefixCovers x y = true := by
  refine ⟨fun _ _ _ ↦ pathPrefixCovers_trans, fun x y v hx hy ↦ ?_⟩
  rw [pathPrefixCovers_iff] at hx hy
  rw [pathPrefixCovers_iff, pathPrefixCovers_iff]
  obtain ⟨hx0, hx⟩ := hx
  obtain ⟨hy0, hy⟩ := hy
  rcases hx with rfl | hx
  · rcases hy with rfl | hy
    · exact .inl ⟨hx0, .inl rfl⟩
    · exact .inr ⟨hy0, .inr hy⟩
  · rcases hy with rfl | hy
    · exact .inl ⟨hx0, .inr hx⟩
    · -- both lie above the resource, so the shorter one lies above the longer one
      have hxv := (prefix_append x.toList ['/']).trans hx
      have hyv := (prefix_append y.toList ['/']).trans hy
      rcases lt_trichotomy x.toList.length y.toList.length with hlt | heq | hlt
      · have hlen : (x.toList ++ ['/']).length ≤ y.toList.length := by
          rw [length_append]
          exact hlt
        exact .inl ⟨hx0, .inr (prefix_of_prefix_length_le hx hyv hlen)⟩
      · have hxy := prefix_of_prefix_length_le hxv hyv heq.le
        exact .inl ⟨hx0, .inl (String.toList_inj.mp (hxy.eq_of_length heq))⟩
      · have hlen : (y.toList ++ ['/']).length ≤ x.toList.length := by
          rw [length_append]
          exact hlt
        exact .inr ⟨hy0, .inr (prefix_of_prefix_length_le hy hxv hlen)⟩

theorem allowsStorageFolder_only {a : Finset String} {resource : String} :
    (only a).allowsStorageFolder resource = true ↔ isTraversalSafePath resource = true ∧
      Admits (fun x y ↦ pathPrefixCovers x y = true) a resource := by
  rw [allowsStorageFolder, Bool.and_eq_true]
  exact and_congr_right fun _ ↦ decide_eq_true_iff

theorem allowsStorageFolder_inter (a b : Allowlist) (resource : String) :
    (a.intersectPathPrefix b).allowsStorageFolder resource = true ↔
      a.allowsStorageFolder resource = true ∧ b.allowsStorageFolder resource = true := by
  have hany : ∀ l : Allowlist, l.allowsStorageFolder resource = true →
      any.allowsStorageFolder resource = true := by
    intro l h
    rw [allowsStorageFolder.eq_def, Bool.and_eq_true] at h
    exact Bool.and_eq_true_iff.mpr ⟨h.1, rfl⟩
  have hnone : ¬none.allowsStorageFolder resource = true := by
    change ¬(isTraversalSafePath resource && false) = true
    rw [Bool.and_false]
    decide
  rcases a with _ | _ | a
  · exact iff_of_false hnone fun h ↦ hnone h.1
  · rcases b with _ | _ | b
    · exact iff_of_false hnone fun h ↦ hnone h.2
    · exact ⟨fun h ↦ ⟨h, h⟩, And.left⟩
    · exact ⟨fun h ↦ ⟨hany _ h, h⟩, And.right⟩
  · rcases b with _ | _ | b
    · exact iff_of_false hnone fun h ↦ hnone h.2
    · exact ⟨fun h ↦ ⟨h, hany _ h⟩, And.left⟩
    · have hcombined : (only a).intersectPathPrefix (only b) =
          only (meet (fun x y ↦ pathPrefixCovers x y = true) a b) := rfl
      rw [hcombined, allowsStorageFolder_only, allowsStorageFolder_only, allowsStorageFolder_only,
        admits_meet_iff nested_pathPrefixCovers, and_and_left]

/-- **Storage allowlists intersect by meaning.** A combination of two admits what both admit, a
combination of any number what all of them admit, in whatever order they are combined. -/
theorem storage_intersection_exact (a b : Allowlist) (l : List Allowlist) (resource : String) :
    ((a.intersectPathPrefix b).allowsStorageFolder resource = true ↔
      a.allowsStorageFolder resource = true ∧ b.allowsStorageFolder resource = true) ∧
    ((l.foldl intersectPathPrefix a).allowsStorageFolder resource = true ↔
      ∀ x ∈ a :: l, x.allowsStorageFolder resource = true) ∧
    ∀ (c : Allowlist) (m : List Allowlist), (c :: m).Perm (a :: l) →
      (m.foldl intersectPathPrefix c).allowsStorageFolder resource =
        (l.foldl intersectPathPrefix a).allowsStorageFolder resource := by
  have hfold : ∀ (l : List Allowlist) (a : Allowlist),
      (l.foldl intersectPathPrefix a).allowsStorageFolder resource = true ↔
        ∀ x ∈ a :: l, x.allowsStorageFolder resource = true := by
    intro l
    induction l with
    | nil =>
      intro a
      rw [foldl_nil, forall_mem_singleton]
    | cons b l ih =>
      intro a
      rw [foldl_cons, ih, forall_mem_cons, allowsStorageFolder_inter,
        forall_mem_cons, forall_mem_cons, and_assoc]
  refine ⟨allowsStorageFolder_inter a b resource, hfold l a, fun c m hperm ↦ ?_⟩
  rw [Bool.eq_iff_iff, hfold, hfold]
  exact ⟨fun h x hx ↦ h x (hperm.mem_iff.mpr hx), fun h x hx ↦ h x (hperm.mem_iff.mp hx)⟩

end Allowlist

/-! ## URLs -/

def opensEncoded : List Char → Bool
  | a :: b :: c :: _ => a = '%' && (b = '2' && c.toLower = 'f' || b = '5' && c.toLower = 'c')
  | _ => false

theorem hasEncodedSeparator_cons (a : Char) (s : List Char) :
    hasEncodedSeparator (a :: s) = (opensEncoded (a :: s) || hasEncodedSeparator s) := by
  rcases s with _ | ⟨b, _ | ⟨c, s⟩⟩
  · rfl
  · rfl
  · rw [hasEncodedSeparator, opensEncoded]

theorem opensEncoded_append {s t : List Char} (h : opensEncoded s = true) :
    opensEncoded (s ++ t) = true := by
  rcases s with _ | ⟨a, _ | ⟨b, _ | ⟨c, s⟩⟩⟩
  · cases h
  · cases h
  · cases h
  · exact h

theorem hasEncodedSeparator_of_append {s t : List Char} (h : hasEncodedSeparator (s ++ t) = false) :
    hasEncodedSeparator s = false ∧ hasEncodedSeparator t = false := by
  induction s with
  | nil => exact ⟨rfl, h⟩
  | cons a s ih =>
    rw [cons_append, hasEncodedSeparator_cons, Bool.or_eq_false_iff] at h
    obtain ⟨hs, ht⟩ := ih h.2
    refine ⟨?_, ht⟩
    rw [hasEncodedSeparator_cons, hs, Bool.or_false]
    by_contra hopen
    have := opensEncoded_append (t := t) (Bool.not_eq_false _ ▸ hopen)
    rw [cons_append, h.1] at this
    cases this

theorem hasEncodedSeparator_append_slash {s t : List Char} (hs : hasEncodedSeparator s = false)
    (ht : hasEncodedSeparator t = false) : hasEncodedSeparator (s ++ '/' :: t) = false := by
  induction s with
  | nil =>
    rw [nil_append, hasEncodedSeparator_cons, ht, Bool.or_false]
    rcases t with _ | ⟨b, _ | ⟨c, t⟩⟩ <;> rfl
  | cons a s ih =>
    rw [hasEncodedSeparator_cons, Bool.or_eq_false_iff] at hs
    rw [cons_append, hasEncodedSeparator_cons, ih hs.2, Bool.or_false]
    rcases s with _ | ⟨b, _ | ⟨c, s⟩⟩
    · rcases t with _ | ⟨d, t⟩
      · rfl
      · exact Bool.and_false _
    · have hfalse : ('/' : Char).toLower ≠ 'f' ∧ ('/' : Char).toLower ≠ 'c' := by decide
      simp only [opensEncoded, hfalse.1, hfalse.2, nil_append, cons_append,
        decide_false, Bool.and_false, Bool.or_self]
    · exact hs.1

theorem hasEncodedSeparator_append {s t : List Char} (hs : hasEncodedSeparator s = false)
    (ht : hasEncodedSeparator t = false)
    (hslash : s.getLast? = some '/' ∨ t = [] ∨ t.head? = some '/') :
    hasEncodedSeparator (s ++ t) = false := by
  rcases hslash with hslash | rfl | hslash
  · obtain ⟨s, rfl⟩ := List.getLast?_eq_some_iff.mp hslash
    rw [append_assoc]
    exact hasEncodedSeparator_append_slash (hasEncodedSeparator_of_append hs).1 ht
  · rwa [append_nil]
  · obtain ⟨t, rfl⟩ := List.head?_eq_some_iff.mp hslash
    exact hasEncodedSeparator_append_slash hs (hasEncodedSeparator_of_append (s := ['/']) ht).2

theorem urlPathCovers_iff {p t : List Char} :
    urlPathCovers p t = true ↔ ∃ rest, t = p ++ rest ∧
      (p.getLast? = some '/' ∨ rest = [] ∨ rest.head? = some '/') ∧
        hasEncodedSeparator rest = false := by
  unfold urlPathCovers
  dsimp only
  constructor
  · intro h
    split at h
    · rename_i hslash
      split at h
      · rename_i hpre
        obtain ⟨rest, rfl⟩ := isPrefixOf_iff_prefix.mp hpre
        rw [drop_left] at h
        exact ⟨rest, rfl, .inl hslash, by simpa using h⟩
      · cases h
    · split at h
      · rename_i heq
        exact ⟨[], by rw [heq, append_nil], .inr (.inl rfl), rfl⟩
      · split at h
        · rename_i hbelow
          obtain ⟨hpre, hhead⟩ := Bool.and_eq_true_iff.mp hbelow
          obtain ⟨rest, rfl⟩ := isPrefixOf_iff_prefix.mp hpre
          rw [drop_left] at h hhead
          exact ⟨rest, rfl, .inr (.inr (of_decide_eq_true hhead)), by simpa using h⟩
        · cases h
  · rintro ⟨rest, rfl, hboundary, hrest⟩
    have hpre : p.isPrefixOf (p ++ rest) = true :=
      isPrefixOf_iff_prefix.mpr (prefix_append p rest)
    split
    · rw [drop_left, Option.any_some, hrest]
      rfl
    · rename_i hslash
      rcases hboundary.resolve_left hslash with rfl | hhead
      · rw [if_pos (append_nil p)]
        rfl
      · have hne : p ++ rest ≠ p := by
          intro heq
          rw [append_right_eq_self.mp heq] at hhead
          cases hhead
        rw [if_neg hne, hpre, drop_left, hhead, if_pos (by decide), Option.any_some, hrest]
        rfl

theorem nested_urlPathCovers : Nested fun p t ↦ urlPathCovers p t = true := by
  refine ⟨fun x y v hxy hyv ↦ ?_, fun x y v hxv hyv ↦ ?_⟩
  · rw [urlPathCovers_iff] at hxy hyv ⊢
    obtain ⟨r, rfl, hr, hrsep⟩ := hxy
    obtain ⟨s, rfl, hs, hssep⟩ := hyv
    refine ⟨r ++ s, append_assoc .., ?_, ?_⟩
    · rcases hr with hr | rfl | hr
      · exact .inl hr
      · rw [append_nil] at hs
        exact hs
      · obtain ⟨r, rfl⟩ := List.head?_eq_some_iff.mp hr
        exact .inr (.inr rfl)
    · rcases eq_nil_or_concat r with rfl | ⟨r, c, rfl⟩
      · exact hssep
      · refine hasEncodedSeparator_append hrsep hssep (hs.imp_left fun hs ↦ ?_)
        rw [← hs, concat_eq_append, ← append_assoc, List.getLast?_concat,
          List.getLast?_concat]
  · -- the shorter path is the beginning of the longer one
    have hbelow : ∀ x y, x.length ≤ y.length → urlPathCovers x v = true →
        urlPathCovers y v = true → urlPathCovers x y = true := by
      intro x y hlen hxv hyv
      rw [urlPathCovers_iff] at hxv hyv ⊢
      obtain ⟨r, rfl, hr, hrsep⟩ := hxv
      obtain ⟨s, hs, -⟩ := hyv
      obtain ⟨m, rfl⟩ := prefix_of_prefix_length_le (prefix_append x r)
        ⟨s, hs.symm⟩ hlen
      rw [append_assoc, append_cancel_left_eq] at hs
      subst hs
      refine ⟨m, rfl, hr.imp_right fun hr ↦ ?_, (hasEncodedSeparator_of_append hrsep).1⟩
      rcases m with _ | ⟨c, m⟩
      · exact .inl rfl
      · exact .inr (hr.resolve_left (cons_ne_nil _ _))
    rcases le_total x.length y.length with hlen | hlen
    · exact .inl (hbelow x y hlen hxv hyv)
    · exact .inr (hbelow y x hlen hyv hxv)

section Network

variable {parse : String → Option NetworkUrl}

theorem urlCovers_iff {target : NetworkUrl} {entry : String} :
    urlCovers parse target entry = true ↔ ∃ pat, parse entry = some pat ∧
      (pat.scheme = target.scheme ∧ pat.host = target.host ∧
        pat.portOrKnownDefault = target.portOrKnownDefault) ∧
      urlPathCovers pat.path.toList target.path.toList = true := by
  simp only [urlCovers, Option.any_eq_true, Bool.and_eq_true, decide_eq_true_eq, and_assoc]

variable (parse) in
def networkCovers (entry url : String) : Prop :=
  ∃ target, parse url = some target ∧ urlCovers parse target entry = true

theorem nested_networkCovers : Nested (networkCovers parse) := by
  refine ⟨?_, ?_⟩
  · rintro x y v ⟨ty, hy, hxy⟩ ⟨tv, hv, hyv⟩
    rw [urlCovers_iff] at hxy hyv
    obtain ⟨px, hx, ⟨hscheme, hhost, hport⟩, hpath⟩ := hxy
    obtain ⟨py, hy', ⟨hscheme', hhost', hport'⟩, hpath'⟩ := hyv
    rw [hy] at hy'
    cases hy'
    exact ⟨tv, hv, urlCovers_iff.mpr ⟨px, hx, ⟨hscheme.trans hscheme', hhost.trans hhost',
      hport.trans hport'⟩, nested_urlPathCovers.trans _ _ _ hpath hpath'⟩⟩
  · rintro x y v ⟨tv, hv, hxv⟩ ⟨tv', hv', hyv⟩
    rw [hv] at hv'
    cases hv'
    rw [urlCovers_iff] at hxv hyv
    obtain ⟨px, hx, ⟨hscheme, hhost, hport⟩, hpath⟩ := hxv
    obtain ⟨py, hy, ⟨hscheme', hhost', hport'⟩, hpath'⟩ := hyv
    apply (nested_urlPathCovers.chain _ _ _ hpath hpath').imp
    · intro h
      exact ⟨py, hy, urlCovers_iff.mpr ⟨px, hx, ⟨hscheme.trans hscheme'.symm,
        hhost.trans hhost'.symm, hport.trans hport'.symm⟩, h⟩⟩
    · intro h
      exact ⟨px, hx, urlCovers_iff.mpr ⟨py, hy, ⟨hscheme'.trans hscheme.symm,
        hhost'.trans hhost.symm, hport'.trans hport.symm⟩, h⟩⟩

theorem networkCovers_self {x y : String} (h : networkCovers parse x y) :
    networkCovers parse y y := by
  obtain ⟨t, ht, -⟩ := h
  refine ⟨t, ht, urlCovers_iff.mpr ⟨t, ht, ⟨rfl, rfl, rfl⟩, urlPathCovers_iff.mpr ?_⟩⟩
  exact ⟨[], (append_nil _).symm, .inr (.inl rfl), rfl⟩

theorem Allowlist.allowsNetworkUrl_only {a : Finset String} {url : String} :
    (only a).allowsNetworkUrl parse url = true ↔ Admits (networkCovers parse) a url := by
  rw [allowsNetworkUrl, Option.any_eq_true]
  constructor
  · rintro ⟨target, htarget, h⟩
    obtain ⟨entry, hentry, hcovers⟩ := of_decide_eq_true h
    exact ⟨entry, hentry, target, htarget, hcovers⟩
  · rintro ⟨entry, hentry, target, htarget, hcovers⟩
    exact ⟨target, htarget, decide_eq_true ⟨entry, hentry, hcovers⟩⟩

variable (parse) in
/-- Of every two entries, one of each list and one below the other, the lower one is covered by an
entry of both lists. -/
def NetworkShared : Allowlist → Allowlist → Prop
  | .only a, .only b => Shared (networkCovers parse) a b
  | _, _ => True

/-- **Network allowlists intersect by entries.** Combining two sets of capabilities admits every URL
that both admit if and only if their lists share the lower one of every two nested entries. -/
theorem BlockCapabilities.network_intersection_exact_iff (parse : String → Option NetworkUrl)
    (a b : BlockCapabilities) :
    (∀ url, (a.intersect b).network.allowsNetworkUrl parse url = true ↔
      a.network.allowsNetworkUrl parse url = true ∧ b.network.allowsNetworkUrl parse url = true) ↔
    NetworkShared parse a.network b.network := by
  have hnetwork : (a.intersect b).network = a.network.intersect b.network := rfl
  rw [hnetwork]
  generalize a.network = l
  generalize b.network = m
  have hall : ∀ {P : String → Prop}, (∀ url, P url) → ((∀ url, P url) ↔ True) :=
    fun h ↦ iff_true_intro h
  have hnone : ∀ url, ¬Allowlist.none.allowsNetworkUrl parse url = true :=
    fun _ ↦ Bool.false_ne_true
  rcases l with _ | _ | s
  · exact hall fun url ↦ iff_of_false (hnone url) fun h ↦ hnone url h.1
  · rcases m with _ | _ | t
    · exact hall fun url ↦ iff_of_false (hnone url) fun h ↦ hnone url h.2
    · exact hall fun url ↦ ⟨fun h ↦ ⟨h, h⟩, And.left⟩
    · exact hall fun url ↦ ⟨fun h ↦ ⟨rfl, h⟩, And.right⟩
  · rcases m with _ | _ | t
    · exact hall fun url ↦ iff_of_false (hnone url) fun h ↦ hnone url h.2
    · exact hall fun url ↦ ⟨fun h ↦ ⟨h, rfl⟩, And.left⟩
    · have hcombined : (Allowlist.only s).intersect (.only t) = .only (s ∩ t) := rfl
      simp only [hcombined, Allowlist.allowsNetworkUrl_only]
      exact forall_admits_inter_iff nested_networkCovers (fun _ _ ↦ networkCovers_self) s t

end Network

/-- An operator that narrows a host to one folder of it leaves nothing. -/
theorem network_intersection_drops_nested :
    ∃ (parse : String → Option NetworkUrl) (a b : BlockCapabilities) (url : String),
      a.network = .only {"https://a.com/"} ∧ b.network = .only {"https://a.com/v1"} ∧
      url = "https://a.com/v1" ∧ a.network.allowsNetworkUrl parse url = true ∧
      b.network.allowsNetworkUrl parse url = true ∧
      (a.intersect b).network.allowsNetworkUrl parse url = false := by
  refine ⟨fun s ↦ if s = "https://a.com/" then some ⟨"https", some "a.com", some 443, "/"⟩
    else if s = "https://a.com/v1" then some ⟨"https", some "a.com", some 443, "/v1"⟩ else none,
    { BlockCapabilities.none with network := .only {"https://a.com/"} },
    { BlockCapabilities.none with network := .only {"https://a.com/v1"} },
    "https://a.com/v1", rfl, rfl, rfl, ?_, ?_, ?_⟩ <;> decide +kernel

end WaferRun
