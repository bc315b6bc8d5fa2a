import WaferRun.Lib.Joined
import WaferRun.Router.Paths

/-!
# The shape of a route

The names of its placeholders do not decide which paths a route pattern matches. What is left of it
without them is its shape, and that does (`matchPath_routeShape`). The names say where the segments
of a path go. If no two are the same then nothing of a path is lost, and the pattern with the
variables in it is the path (`routeShape_matchPath`).
-/

open List

namespace WaferRun.Router

open JoinedTexts

def braced : List Char → Option (List Char)
  | [] => none
  | c :: rest => if c = '{' ∧ rest.getLast? = some '}' then some rest.dropLast else none

def shapeOf (segment : List Char) : List Char :=
  match braced segment with
  | some inner =>
    if 3 < (String.ofList inner).utf8ByteSize ∧ "...".toList <:+ inner then "{...}".toList
    else "{}".toList
  | none => segment

/-- The part of a pattern that decides which paths it matches. -/
def routeShape (pattern : List Char) : List Char :=
  if "/**".toList <:+ pattern ∨ ∀ s ∈ pattern.splitOn '/', shapeOf s = s then pattern
  else join '/' ((pattern.splitOn '/').map shapeOf)

/-! ## Segments -/

theorem braced_eq (s : List Char) :
    braced s = if isPlaceholder s then some s.tail.dropLast else none := by
  rcases s with _ | ⟨c, _ | ⟨d, rest⟩⟩
  · rfl
  · have hc : isPlaceholder [c] = false := by
      by_cases h : c = '{'
      · subst h
        rfl
      · simp [isPlaceholder, h]
    rw [hc, braced]
    exact if_neg fun h ↦ by cases h.2
  · simp [braced, isPlaceholder, getLast?_cons_cons]

theorem shapeOf_of_not_placeholder {s : List Char} (h : isPlaceholder s = false) :
    shapeOf s = s := by
  rw [shapeOf, braced_eq, h]
  rfl

theorem shapeOf_of_placeholder {s : List Char} (h : isPlaceholder s = true) :
    shapeOf s = "{...}".toList ∨ shapeOf s = "{}".toList := by
  rw [shapeOf, braced_eq, h]
  exact ite_eq_or_eq _ _ _

theorem isPlaceholder_shapeOf (s : List Char) : isPlaceholder (shapeOf s) = isPlaceholder s := by
  cases h : isPlaceholder s with
  | false => rwa [shapeOf_of_not_placeholder h]
  | true => rcases shapeOf_of_placeholder h with hs | hs <;> rw [hs] <;> rfl

theorem slash_notMem_shapeOf {s : List Char} (h : '/' ∉ s) : '/' ∉ shapeOf s := by
  cases hs : isPlaceholder s with
  | false => rwa [shapeOf_of_not_placeholder hs]
  | true => rcases shapeOf_of_placeholder hs with hs | hs <;> rw [hs] <;> decide

theorem matchSegment_shapeOf (s actual : List Char) :
    matchSegment (shapeOf s) actual = matchSegment s actual := by
  rw [matchSegment, matchSegment, isPlaceholder_shapeOf]
  cases h : isPlaceholder s with
  | false => rw [shapeOf_of_not_placeholder h]
  | true => rfl

theorem matchSegment_self (s : List Char) : matchSegment s s = true := by
  rw [matchSegment]
  split_ifs with h
  · refine decide_eq_true ?_
    rintro rfl
    cases h
  · exact decide_eq_true rfl

/-! ## Patterns -/

theorem endsInRest_iff (pattern : List Char) : "/**".toList <:+ pattern ↔
    ∃ init ≠ [], pattern.splitOn '/' = init ++ ["**".toList] := by
  constructor
  · rintro ⟨base, rfl⟩
    have hne : base.splitOn '/' ≠ [] := splitOn_ne_nil '/' base
    have hjoin : join '/' (base.splitOn '/' ++ ["**".toList]) = base ++ "/**".toList := by
      rw [join_append '/' hne (cons_ne_nil _ _), join_splitOn, join_singleton]
      rfl
    refine ⟨base.splitOn '/', hne, ?_⟩
    rw [← hjoin]
    refine splitOn_join ?_ (append_ne_nil_of_left_ne_nil hne _)
    intro s hs
    rcases mem_append.mp hs with hs | hs
    · exact Text.not_mem_of_mem_splitOn hs
    · rw [mem_singleton.mp hs]
      decide
  · rintro ⟨init, hne, hsplit⟩
    have hjoin := join_splitOn '/' pattern
    rw [hsplit, join_append '/' hne (cons_ne_nil _ _), join_singleton] at hjoin
    exact ⟨_, hjoin⟩

theorem routeShape_eq {pattern : List Char} (h : ¬"/**".toList <:+ pattern) :
    routeShape pattern = join '/' ((pattern.splitOn '/').map shapeOf) := by
  rw [routeShape]
  split_ifs with hsame
  · have hmap : (pattern.splitOn '/').map shapeOf = (pattern.splitOn '/').map id :=
      map_congr_left (hsame.resolve_left h)
    rw [hmap, map_id, join_splitOn]
  · rfl

theorem splitOn_routeShape {pattern : List Char} (h : ¬"/**".toList <:+ pattern) :
    (routeShape pattern).splitOn '/' = (pattern.splitOn '/').map shapeOf := by
  rw [routeShape_eq h]
  refine splitOn_join ?_ fun hnil ↦ splitOn_ne_nil '/' pattern (map_eq_nil_iff.mp hnil)
  intro shape hshape
  obtain ⟨s, hs, rfl⟩ := mem_map.mp hshape
  exact slash_notMem_shapeOf (Text.not_mem_of_mem_splitOn hs)

/-- A shape does not end in `/**` if the pattern does not. -/
theorem not_rest_routeShape {pattern : List Char} (h : ¬"/**".toList <:+ pattern) :
    ¬"/**".toList <:+ routeShape pattern := by
  intro hrest
  obtain ⟨init, hne, hsplit⟩ := (endsInRest_iff _).mp hrest
  rw [splitOn_routeShape h] at hsplit
  obtain ⟨before, after, heq, hbefore, hafter⟩ := map_eq_append_iff.mp hsplit
  obtain ⟨s, rfl, hs⟩ := map_eq_singleton_iff.mp hafter
  have hplain : isPlaceholder s = false := by
    rw [← isPlaceholder_shapeOf, hs]
    rfl
  rw [shapeOf_of_not_placeholder hplain] at hs
  refine h ((endsInRest_iff pattern).mpr ⟨before, ?_, hs ▸ heq⟩)
  rintro rfl
  exact hne hbefore.symm

theorem matchPath_iff {pattern : List Char} (h : ¬"/**".toList <:+ pattern) (path : List Char) :
    matchPath pattern path = true ↔
      Forall₂ (fun s actual ↦ matchSegment s actual = true) (pattern.splitOn '/')
        (path.splitOn '/') := by
  rw [matchPath]
  by_cases heq : pattern = path
  · subst heq
    rw [if_pos rfl]
    exact iff_of_true rfl (forall₂_same.mpr fun s _ ↦ matchSegment_self s)
  · rw [if_neg heq, stripRest, if_neg h, forall₂_iff_zip, Bool.and_eq_true, decide_eq_true_iff,
      all_eq_true, Prod.forall]

/-- The shape of a pattern matches what the pattern matches. -/
theorem matchPath_routeShape (pattern path : List Char) :
    matchPath (routeShape pattern) path = matchPath pattern path := by
  by_cases h : "/**".toList <:+ pattern
  · rw [routeShape, if_pos (.inl h)]
  · rw [Bool.eq_iff_iff, matchPath_iff (not_rest_routeShape h), matchPath_iff h,
      splitOn_routeShape h, forall₂_map_left_iff]
    simp only [matchSegment_shapeOf]

/-! ## Variables -/

def placeholders (pattern : List Char) : List (List Char) :=
  (pattern.splitOn '/').filter isPlaceholder

def placeholderName (segment : List Char) : List Char := segment.tail.dropLast

def paramKey (segment : List Char) : String :=
  metaReqParamPrefix ++ String.ofList (placeholderName segment)

def substituted (entries : List MetaEntry) (pattern : List Char) : List Char :=
  join '/' ((pattern.splitOn '/').map fun s ↦
    if isPlaceholder s then ((metaGet entries (paramKey s)).getD "").toList else s)

def pathVars (pattern path : List Char) : List MetaEntry :=
  (((pattern.splitOn '/').zip (path.splitOn '/')).filter fun p ↦ isPlaceholder p.1).map fun p ↦
    ⟨paramKey p.1, String.ofList p.2⟩

theorem lastValue_of_mem {top : List MetaEntry} (h : (keysOf top).Nodup) {e : MetaEntry}
    (he : e ∈ top) : lastValue top e.key = some e.value := by
  have hmem : e ∈ top.filter fun b ↦ b.key = e.key := mem_filter.mpr ⟨he, decide_eq_true rfl⟩
  obtain ⟨b, hb⟩ := Option.isSome_iff_exists.mp (getLast?_isSome.mpr (ne_nil_of_mem hmem))
  obtain ⟨hbtop, hbkey⟩ := mem_filter.mp (mem_of_getLast? hb)
  obtain rfl : b = e := inj_on_of_nodup_map h hbtop he (of_decide_eq_true hbkey)
  rw [lastValue, hb, Option.map_some]

theorem lastValue_of_notMem {top : List MetaEntry} {key : String} (h : key ∉ keysOf top) :
    lastValue top key = none := by
  have hnone : (top.filter fun e ↦ e.key = key) = [] :=
    filter_eq_nil_iff.mpr fun e he hkey ↦
      h (of_decide_eq_true hkey ▸ mem_map_of_mem he)
  rw [lastValue, hnone]
  rfl

section

variable {pattern path : List Char}

theorem extractPathVars_eq (h : ¬"/**".toList <:+ pattern) (entries : List MetaEntry) :
    extractPathVars pattern path entries = setByKeys entries (pathVars pattern path) := by
  rw [extractPathVars, stripRest, if_neg h, setByKeys, pathVars, foldl_map, foldl_filter]
  rfl

theorem keysOf_pathVars (hlen : (pattern.splitOn '/').length = (path.splitOn '/').length) :
    keysOf (pathVars pattern path) = (placeholders pattern).map paramKey := by
  have hfst : ((pattern.splitOn '/').zip (path.splitOn '/')).map Prod.fst = pattern.splitOn '/' :=
    map_fst_zip hlen.le
  rw [keysOf, pathVars, placeholders, map_map]
  conv_rhs => rw [← hfst, filter_map, map_map]
  rfl

theorem nodup_paramKeys (h : ((placeholders pattern).map placeholderName).Nodup) :
    ((placeholders pattern).map paramKey).Nodup := by
  have hinj : Function.Injective fun name : List Char ↦ metaReqParamPrefix ++ String.ofList name :=
    fun a b hab ↦ String.ofList_injective (String.append_right_inj _ |>.mp hab)
  have hmap := h.map hinj
  rwa [map_map] at hmap

theorem metaGet_extractPathVars (h : ¬"/**".toList <:+ pattern)
    (hnames : ((placeholders pattern).map placeholderName).Nodup)
    (hmatch : matchPath pattern path = true) (entries : List MetaEntry) {s actual : List Char}
    (hmem : (s, actual) ∈ (pattern.splitOn '/').zip (path.splitOn '/'))
    (hs : isPlaceholder s = true) :
    metaGet (extractPathVars pattern path entries) (paramKey s) = some (String.ofList actual) := by
  have hlen := ((matchPath_iff h path).mp hmatch).length_eq
  have hnodup : (keysOf (pathVars pattern path)).Nodup := by
    rw [keysOf_pathVars hlen]
    exact nodup_paramKeys hnames
  have hvar : ⟨paramKey s, String.ofList actual⟩ ∈ pathVars pattern path :=
    mem_map.mpr ⟨(s, actual), mem_filter.mpr ⟨hmem, hs⟩, rfl⟩
  rw [extractPathVars_eq h, metaGet_setByKeys, lastValue_of_mem hnodup hvar, Option.some_or]

theorem substituted_extractPathVars (h : ¬"/**".toList <:+ pattern)
    (hnames : ((placeholders pattern).map placeholderName).Nodup)
    (hmatch : matchPath pattern path = true) (entries : List MetaEntry) :
    substituted (extractPathVars pattern path entries) pattern = path := by
  have hsegments := (matchPath_iff h path).mp hmatch
  obtain ⟨hlen, hzip⟩ := forall₂_iff_zip.mp hsegments
  have hmap : ((pattern.splitOn '/').map fun s ↦ if isPlaceholder s then
      ((metaGet (extractPathVars pattern path entries) (paramKey s)).getD "").toList else s) =
      path.splitOn '/' := by
    rw [← forall₂_eq_eq_eq, forall₂_map_left_iff, forall₂_iff_zip]
    refine ⟨hlen, fun {s actual} hmem ↦ ?_⟩
    by_cases hs : isPlaceholder s = true
    · rw [if_pos hs, metaGet_extractPathVars h hnames hmatch entries hmem hs, Option.getD_some,
        String.toList_ofList]
    · have hseg := hzip hmem
      rw [matchSegment, if_neg hs] at hseg
      rw [if_neg hs]
      exact of_decide_eq_true hseg
  rw [substituted, hmap, join_splitOn]

end

/-- **Routes.** Patterns of one shape match the same paths. Where a pattern without `/**` and with
distinct names matches a path, there is a variable for each placeholder, a segment of the path; no
other entry is touched, and the pattern with the variables in it is the path. -/
theorem routeShape_matchPath :
    (∀ pattern pattern' : List Char, routeShape pattern = routeShape pattern' →
      ∀ path, matchPath pattern path = matchPath pattern' path) ∧
    ∀ (pattern path : List Char) (entries : List MetaEntry), ¬"/**".toList <:+ pattern →
      ((placeholders pattern).map placeholderName).Nodup → matchPath pattern path = true →
      let after := extractPathVars pattern path entries
      (∀ s ∈ placeholders pattern, ∃ value, metaGet after (paramKey s) = some value ∧
        value ≠ "" ∧ '/' ∉ value.toList) ∧
      (∀ key ∉ (placeholders pattern).map paramKey, metaGet after key = metaGet entries key) ∧
      substituted after pattern = path := by
  refine ⟨?_, ?_⟩
  · intro pattern pattern' hshape path
    rw [← matchPath_routeShape pattern, hshape, matchPath_routeShape]
  intro pattern path entries h hnames hmatch
  obtain ⟨hlen, hzip⟩ := forall₂_iff_zip.mp ((matchPath_iff h path).mp hmatch)
  refine ⟨?_, ?_, substituted_extractPathVars h hnames hmatch entries⟩
  · intro s hs
    obtain ⟨hs, hplaceholder⟩ := mem_filter.mp hs
    rw [← map_fst_zip hlen.le] at hs
    obtain ⟨⟨s, actual⟩, hmem, rfl⟩ := mem_map.mp hs
    have hseg := hzip hmem
    rw [matchSegment, if_pos hplaceholder] at hseg
    refine ⟨_, metaGet_extractPathVars h hnames hmatch entries hmem hplaceholder, ?_, ?_⟩
    · intro hempty
      refine of_decide_eq_true hseg ?_
      rw [← String.toList_ofList (l := actual), hempty]
      rfl
    · rw [String.toList_ofList]
      exact Text.not_mem_of_mem_splitOn (of_mem_zip hmem).2
  · intro key hkey
    rw [← keysOf_pathVars hlen] at hkey
    rw [extractPathVars_eq h, metaGet_setByKeys, lastValue_of_notMem hkey, Option.none_or]

theorem routeShape_matchPath_users :
    matchPath "/users/{id}".toList "/users/42".toList =
        matchPath "/users/{user}".toList "/users/42".toList ∧
      substituted (extractPathVars "/users/{id}".toList "/users/42".toList [])
        "/users/{id}".toList = "/users/42".toList :=
  ⟨routeShape_matchPath.1 _ _ (by decide) _,
    (routeShape_matchPath.2 _ _ [] (by decide) (by decide) (by decide)).2.2⟩

end WaferRun.Router
