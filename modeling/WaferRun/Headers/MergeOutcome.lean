import WaferRun.Headers.Occurrences

/-!
# What a merge makes of a directive

A directive is merged once, so what becomes of it depends on the sources that count for it in the
baseline and in the operator's policy, and on nothing else (`mergedSources`). A browser reads just
that from the merged policy (`sourcesOf_mergeCsp`), and so does the parser (`counted_mergeCsp`).
-/

open List

namespace WaferRun.SecurityHeaders

open Text

variable (sameOrigin : Word → Bool)

variable {sources : List Word} {name : Word} {baseline custom : List Char}

/-! ## One directive -/

def accepted (name : Word) (sources : List Word) : List Word :=
  sources.filter fun source ↦ sourceRule sameOrigin name source = none

def WhollyRefused (name : Word) (sources : List Word) : Prop :=
  name = frameAncestorsDirective ∨ name = reportToDirective ∧ 1 < sources.length

instance (name : Word) (sources : List Word) : Decidable (WhollyRefused name sources) := by
  unfold WhollyRefused
  infer_instance

def known (base : List Word) (source : Word) : Bool :=
  isNone source || base.any (eqIgnoreAsciiCase · source)

theorem narrow_of_isNone {base : List Word} (h : ∃ s ∈ sources, isNone s = true) :
    narrow base sources = [noneSource] := by
  obtain ⟨s, hs, hnone⟩ := h
  refine if_pos (any_eq_true.mpr ⟨s, mem_filter.mpr ⟨hs, ?_⟩, hnone⟩)
  rw [hnone, Bool.true_or]

theorem narrow_of_not_isNone {base : List Word} (h : ¬∃ s ∈ sources, isNone s = true) :
    narrow base sources =
      if sources.filter (known base) ≠ [] then sources.filter (known base) else base := by
  refine if_neg fun hany ↦ h ?_
  obtain ⟨s, hs, hnone⟩ := any_eq_true.mp hany
  exact ⟨s, mem_of_mem_filter hs, hnone⟩

def entryAfter (name : Word) (existing : Option (List Word)) (sources : List Word) :
    Option (List Word) :=
  if WhollyRefused name sources then existing
  else
    match existing with
    | some base =>
      if name ∈ narrowOnlyDirectives then some (narrow base sources)
      else some ((accepted sameOrigin name sources).foldl addSource base)
    | none =>
      if accepted sameOrigin name sources = [] ∧ sources ≠ [] then none
      else some ((accepted sameOrigin name sources).foldl addSource [])

def sourceRefusal (name : Word) (existing : Option (List Word)) (source : Word) : Option String :=
  match existing with
  | some base =>
    if name ∈ narrowOnlyDirectives then
      if known base source then none
      else some "can only narrow the baseline for this directive"
    else sourceRule sameOrigin name source
  | none => sourceRule sameOrigin name source

/-- What is reported when sources of the operator are merged. -/
def refusalsOf (name : Word) (existing : Option (List Word)) (sources : List Word) : List Refusal :=
  if name = frameAncestorsDirective then
    [⟨name, none, "set by the `frame_ancestors` config key, not the CSP"⟩]
  else if name = reportToDirective ∧ 1 < sources.length then
    [⟨name, none, "takes exactly one reporting group name"⟩]
  else sources.filterMap fun source ↦
    (sourceRefusal sameOrigin name existing source).map fun reason ↦ ⟨name, some source, reason⟩

theorem narrowOnly_ne (h : name ∈ narrowOnlyDirectives) :
    name ≠ frameAncestorsDirective ∧ name ≠ reportToDirective :=
  (by decide : ∀ n ∈ narrowOnlyDirectives, n ≠ frameAncestorsDirective ∧ n ≠ reportToDirective)
    name h

variable {sameOrigin} {m : Merging} {d : Csp.Directive}

theorem entryAfter_of_whollyRefused (h : WhollyRefused name sources)
    (existing : Option (List Word)) :
    entryAfter sameOrigin name existing sources = existing := by
  unfold entryAfter
  exact if_pos h

theorem entryAfter_none (h : ¬WhollyRefused name sources) :
    entryAfter sameOrigin name none sources =
      if accepted sameOrigin name sources = [] ∧ sources ≠ [] then none
      else some ((accepted sameOrigin name sources).foldl addSource []) := by
  unfold entryAfter
  exact if_neg h

theorem entryAfter_some (h : ¬WhollyRefused name sources) (base : List Word) :
    entryAfter sameOrigin name (some base) sources =
      if name ∈ narrowOnlyDirectives then some (narrow base sources)
      else some ((accepted sameOrigin name sources).foldl addSource base) := by
  unfold entryAfter
  exact if_neg h

theorem refusalsOf_of_not {existing : Option (List Word)} (h : ¬WhollyRefused name sources) :
    refusalsOf sameOrigin name existing sources =
      sources.filterMap fun source ↦ (sourceRefusal sameOrigin name existing source).map
        fun reason ↦ ⟨name, some source, reason⟩ := by
  rw [refusalsOf, if_neg fun heq ↦ h (.inl heq), if_neg fun heq ↦ h (.inr heq)]

theorem lookup_insert (ds : Directives) (name key : Word) (sources : List Word) :
    (ds.insert key sources).lookup name =
      if name = key then some sources else ds.lookup name := by
  split
  · rename_i heq
    rw [heq, AList.lookup_insert]
  · rename_i hne
    exact AList.lookup_insert_ne hne

theorem lookup_self (ds : Directives) (name key : Word) :
    ds.lookup name = if name = key then ds.lookup key else ds.lookup name := by
  split
  · rename_i heq
    rw [heq]
  · rfl

theorem addDirective_of_not (h : ¬(name = reportToDirective ∧ 1 < sources.length)) :
    addDirective sameOrigin m name sources =
      ⟨if accepted sameOrigin name sources = [] ∧ sources ≠ [] ∧ name ∉ m.directives then
          m.directives
        else m.directives.insert name
          ((accepted sameOrigin name sources).foldl addSource ((m.directives.lookup name).getD [])),
        m.refused ++ sources.filterMap fun source ↦ (sourceRule sameOrigin name source).map
          fun reason ↦ ⟨name, some source, reason⟩⟩ := by
  unfold addDirective
  dsimp only
  rw [if_neg h]
  by_cases hnone : accepted sameOrigin name sources = [] ∧ sources ≠ [] ∧ name ∉ m.directives
  · rw [if_pos hnone]
    exact if_pos hnone
  · rw [if_neg hnone]
    exact if_neg hnone

/-- Sources that a directive takes by its rule. -/
theorem addDirective_eq (hframe : d.name ≠ frameAncestorsDirective)
    (hnarrow : d.name ∈ narrowOnlyDirectives → m.directives.lookup d.name = none) (name : Word) :
    (addDirective sameOrigin m d.name d.sources).directives.lookup name =
        (if name = d.name then entryAfter sameOrigin d.name (m.directives.lookup d.name) d.sources
          else m.directives.lookup name) ∧
      (addDirective sameOrigin m d.name d.sources).refused =
        m.refused ++ refusalsOf sameOrigin d.name (m.directives.lookup d.name) d.sources := by
  by_cases hreport : d.name = reportToDirective ∧ 1 < d.sources.length
  · rw [addDirective, if_pos hreport, entryAfter_of_whollyRefused (.inr hreport), refusalsOf,
      if_neg hframe, if_pos hreport]
    exact ⟨lookup_self _ _ _, rfl⟩
  · have hnot : ¬WhollyRefused d.name d.sources := not_or.mpr ⟨hframe, hreport⟩
    have hrule (source : Word) : sourceRefusal sameOrigin d.name (m.directives.lookup d.name) source =
        sourceRule sameOrigin d.name source := by
      unfold sourceRefusal
      split
      · rename_i base hlookup
        rw [if_neg fun h ↦ nomatch (hnarrow h).symm.trans hlookup]
      · rfl
    rw [addDirective_of_not hreport, refusalsOf_of_not hnot]
    simp only [hrule, and_true]
    rcases hlookup : m.directives.lookup d.name with _ | base
    · have hmem : d.name ∉ m.directives := AList.lookup_eq_none.mp hlookup
      rw [entryAfter_none hnot]
      by_cases hnone : accepted sameOrigin d.name d.sources = [] ∧ d.sources ≠ []
      · rw [if_pos ⟨hnone.1, hnone.2, hmem⟩, if_pos hnone]
        exact hlookup ▸ lookup_self m.directives name d.name
      · rw [if_neg fun h ↦ hnone ⟨h.1, h.2.1⟩, if_neg hnone]
        exact lookup_insert _ _ _ _
    · have hmem : d.name ∈ m.directives :=
        AList.lookup_isSome.mp (Option.isSome_of_eq_some hlookup)
      rw [entryAfter_some hnot, if_neg fun h ↦ h.2.2 hmem,
        if_neg fun h ↦ nomatch (hnarrow h).symm.trans hlookup]
      exact lookup_insert _ _ _ _

theorem narrowRefusals_eq (h : name ∈ narrowOnlyDirectives) (base sources : List Word) :
    narrowRefusals name base sources = sources.filterMap fun source ↦
      (sourceRefusal sameOrigin name (some base) source).map
        fun reason ↦ ⟨name, some source, reason⟩ := by
  induction sources with
  | nil => rfl
  | cons s sources ih =>
    rw [narrowRefusals] at ih ⊢
    rw [filterMap_cons, ← ih, sourceRefusal, if_pos h, filter_cons, known]
    cases isNone s || base.any (eqIgnoreAsciiCase · s) <;> rfl

theorem mergeDirective_eq (name : Word) :
    (mergeDirective sameOrigin m d).directives.lookup name =
        (if name = d.name then entryAfter sameOrigin d.name (m.directives.lookup d.name) d.sources
          else m.directives.lookup name) ∧
      (mergeDirective sameOrigin m d).refused =
        m.refused ++ refusalsOf sameOrigin d.name (m.directives.lookup d.name) d.sources := by
  unfold mergeDirective
  by_cases hframe : d.name = frameAncestorsDirective
  · rw [if_pos hframe, entryAfter_of_whollyRefused (.inl hframe), refusalsOf, if_pos hframe]
    exact ⟨lookup_self _ _ _, rfl⟩
  · rw [if_neg hframe]
    by_cases hnarrow : d.name ∈ narrowOnlyDirectives
    · rw [if_pos hnarrow]
      split
      · rename_i base hlookup
        have hnot : ¬WhollyRefused d.name d.sources :=
          not_or.mpr ⟨hframe, fun h ↦ (narrowOnly_ne hnarrow).2 h.1⟩
        rw [hlookup, entryAfter_some hnot, if_pos hnarrow]
        refine ⟨lookup_insert _ _ _ _, congrArg (m.refused ++ ·) ?_⟩
        rw [refusalsOf_of_not hnot, narrowRefusals_eq hnarrow]
      · rename_i hlookup
        exact addDirective_eq hframe (fun _ ↦ hlookup) name
    · rw [if_neg hnarrow]
      exact addDirective_eq hframe (fun h ↦ absurd h hnarrow) name

theorem foldl_mergeDirective_eq {ds : List Csp.Directive} (h : (ds.map (·.name)).Nodup) (m : Merging)
    (name : Word) :
    (ds.foldl (mergeDirective sameOrigin) m).directives.lookup name =
        (match Csp.sourcesOf ds name with
          | some sources => entryAfter sameOrigin name (m.directives.lookup name) sources
          | none => m.directives.lookup name) ∧
      (ds.foldl (mergeDirective sameOrigin) m).refused = m.refused ++ ds.flatMap fun d ↦
        refusalsOf sameOrigin d.name (m.directives.lookup d.name) d.sources := by
  induction ds generalizing m with
  | nil => exact ⟨rfl, (append_nil _).symm⟩
  | cons d ds ih =>
    rw [map_cons, nodup_cons] at h
    obtain ⟨hnotin, hnodup⟩ := h
    obtain ⟨hlookup, hrefused⟩ := ih hnodup (mergeDirective sameOrigin m d)
    rw [foldl_cons, hlookup, hrefused, (mergeDirective_eq name).1, (mergeDirective_eq name).2]
    constructor
    · rw [Csp.sourcesOf, Csp.sourcesOf, List.find?_cons]
      by_cases heq : d.name = name
      · have hnone : ds.find? (·.name = name) = none := by
          refine List.find?_eq_none.mpr fun e he hname ↦ hnotin ?_
          rw [heq, ← of_decide_eq_true hname]
          exact mem_map_of_mem he
        rw [hnone, heq, if_pos rfl, decide_eq_true rfl]
        rfl
      · rw [if_neg (Ne.symm heq), decide_eq_false heq]
    · have hrest : ∀ e ∈ ds, (mergeDirective sameOrigin m d).directives.lookup e.name =
          m.directives.lookup e.name := by
        intro e he
        have hne : e.name ≠ d.name := fun heq ↦ hnotin (heq ▸ mem_map_of_mem he)
        rw [(mergeDirective_eq e.name).1, if_neg hne]
      rw [flatMap_cons, append_assoc, flatMap_congr fun e he ↦ by rw [hrest e he]]

theorem sourcesOf_inOrder (ds : Directives) (name : Word) :
    Csp.sourcesOf ds.inOrder name = ds.lookup name := by
  rw [Csp.sourcesOf]
  generalize hfind : List.find? _ ds.inOrder = found
  rcases found with _ | d
  · have hnone : name ∉ ds := by
      intro hmem
      obtain ⟨sources, hlookup⟩ := Option.isSome_iff_exists.mp (AList.lookup_isSome.mpr hmem)
      have hne := List.find?_eq_none.mp hfind ⟨name, sources⟩ (mem_inOrder.mpr hlookup)
      exact hne (decide_eq_true rfl)
    exact (AList.lookup_eq_none.mpr hnone).symm
  · have hname := List.find?_some hfind
    have hlookup := mem_inOrder.mp (List.mem_of_find?_eq_some hfind)
    rw [of_decide_eq_true hname] at hlookup
    exact hlookup.symm

/-! ## The merge -/

section

variable (sameOrigin)

def mergedSources (baseline custom : List Char) (name : Word) : Option (List Word) :=
  match counted custom name with
  | some sources => entryAfter sameOrigin name (counted baseline name) sources
  | none => counted baseline name

def mergedMap (baseline custom : List Char) : Merging :=
  (parse custom (parse baseline []).refused).directives.inOrder.foldl (mergeDirective sameOrigin)
    ⟨(parse baseline []).directives, (parse custom (parse baseline []).refused).refused⟩

end

theorem mergeCsp_eq (baseline custom : List Char) :
    mergeCsp sameOrigin baseline custom =
      ⟨serialize (mergedMap sameOrigin baseline custom).directives,
        (mergedMap sameOrigin baseline custom).refused⟩ := rfl

theorem lookup_mergedMap (baseline custom : List Char) (name : Word) :
    (mergedMap sameOrigin baseline custom).directives.lookup name =
      mergedSources sameOrigin baseline custom name := by
  rw [mergedMap, (foldl_mergeDirective_eq (nodup_inOrder _) _ name).1, sourcesOf_inOrder,
    lookup_parse, lookup_parse, mergedSources]
  rfl

/-- What is reported of a merge: what the two policies give occasion for, and what is refused of each
directive. -/
theorem refused_mergeCsp (baseline custom : List Char) :
    (mergeCsp sameOrigin baseline custom).refused =
      (parse baseline []).refused ++ (parse custom []).refused ++
        (parse custom (parse baseline []).refused).directives.inOrder.flatMap fun d ↦
          refusalsOf sameOrigin d.name (counted baseline d.name) d.sources := by
  rw [mergeCsp_eq, mergedMap, (foldl_mergeDirective_eq (nodup_inOrder _) _ []).2, refused_parse]
  simp only [lookup_parse]

theorem mem_offered {d : Csp.Directive} :
    d ∈ (parse custom (parse baseline []).refused).directives.inOrder ↔
      counted custom d.name = some d.sources := by
  rw [mem_inOrder, lookup_parse]

/-! ## What is read of the merged policy -/

theorem plain_of_counted {input : List Char} (h : counted input name = some sources) :
    (⟨name, sources⟩ : Csp.Directive).Plain :=
  plainMap_parse input [] name sources ((lookup_parse input [] name).trans h)

theorem mem_entryAfter {existing : Option (List Word)} {merged : List Word}
    (h : entryAfter sameOrigin name existing sources = some merged) {s : Word} (hs : s ∈ merged) :
    s = noneSource ∨ s ∈ sources ∨ ∃ base, existing = some base ∧ s ∈ base := by
  have haccepted {base : List Word}
      (hs : s ∈ (accepted sameOrigin name sources).foldl addSource base) :
      s ∈ sources ∨ s ∈ base :=
    (mem_foldl_addSource hs).symm.imp_left mem_of_mem_filter
  by_cases hrefused : WhollyRefused name sources
  · rw [entryAfter_of_whollyRefused hrefused] at h
    exact .inr (.inr ⟨merged, h, hs⟩)
  · rcases existing with _ | base
    · rw [entryAfter_none hrefused] at h
      split at h
      · cases h
      · rw [← Option.some.inj h] at hs
        exact .inr (.inl ((haccepted hs).resolve_right not_mem_nil))
    · rw [entryAfter_some hrefused] at h
      split at h <;> rw [← Option.some.inj h] at hs
      · exact (mem_narrow hs).imp_right fun h ↦ h.imp_right fun h ↦ ⟨base, rfl, h⟩
      · exact .inr ((haccepted hs).imp_right fun h ↦ ⟨base, rfl, h⟩)

theorem plain_of_mergedSources (h : mergedSources sameOrigin baseline custom name = some sources) :
    (⟨name, sources⟩ : Csp.Directive).Plain := by
  unfold mergedSources at h
  split at h
  · rename_i offered hoffered
    have hplain := plain_of_counted hoffered
    refine ⟨hplain.name, hplain.lower, fun s hs ↦ ?_⟩
    rcases mem_entryAfter h hs with rfl | hs | ⟨base, hbase, hs⟩
    · decide
    · exact hplain.sources s hs
    · exact (plain_of_counted hbase).sources s hs
  · exact plain_of_counted h

theorem plain_mergedMap :
    ∀ d ∈ (mergedMap sameOrigin baseline custom).directives.inOrder, d.Plain :=
  fun _ hd ↦ plain_of_mergedSources ((lookup_mergedMap _ _ _).symm.trans (mem_inOrder.mp hd))

theorem policy_mergeCsp (baseline custom : List Char) :
    (mergeCsp sameOrigin baseline custom).policy =
      Csp.print (mergedMap sameOrigin baseline custom).directives.inOrder :=
  serialize_eq_print _

/-- **A browser reads what the merge has made of each directive.** -/
theorem sourcesOf_mergeCsp (baseline custom : List Char) (name : Word) :
    Csp.sourcesOf (Csp.read (mergeCsp sameOrigin baseline custom).policy) name =
      mergedSources sameOrigin baseline custom name := by
  rw [policy_mergeCsp, Csp.read_print plain_mergedMap, sourcesOf_inOrder, lookup_mergedMap]

/-! ## What the parser reads of the merged policy -/

theorem isDirectiveName_asciiLower {w : Word} (h : isDirectiveName w = true) :
    isDirectiveName (asciiLower w) = true := by
  simp only [isDirectiveName, Bool.and_eq_true, decide_eq_true_eq, all_eq_true,
    Bool.or_eq_true] at h ⊢
  refine ⟨fun hnil ↦ h.1 (map_eq_nil_iff.mp hnil), fun c hc ↦ ?_⟩
  obtain ⟨d, hd, rfl⟩ := mem_map.mp hc
  exact (toLower_of_isAlphanum (h.2 d hd)).1

theorem isDirectiveName_of_counted {input : List Char} (h : counted input name = some sources) :
    isDirectiveName name = true := by
  obtain ⟨o, ho, -⟩ := Option.map_eq_some_iff.mp h
  have hnames := of_decide_eq_true (mem_filter.mp (List.mem_of_find?_eq_some ho)).2
  exact hnames.2 ▸ isDirectiveName_asciiLower hnames.1

theorem isDirectiveName_of_mergedSources
    (h : mergedSources sameOrigin baseline custom name = some sources) :
    isDirectiveName name = true := by
  unfold mergedSources at h
  split at h
  · rename_i offered hoffered
    exact isDirectiveName_of_counted hoffered
  · exact isDirectiveName_of_counted h

theorem occurrences_print {ds : List Csp.Directive} (h : ∀ d ∈ ds, d.Plain) :
    occurrences (Csp.print ds) = ds.map fun d ↦ ⟨d.name, d.sources⟩ := by
  have hread : ∀ d ∈ ds, readOccurrence d.print = some ⟨d.name, d.sources⟩ ∧
      readOccurrence (' ' :: d.print) = some ⟨d.name, d.sources⟩ := by
    intro d hd
    unfold readOccurrence
    rw [Csp.words_space_cons, (h d hd).words_print]
    exact ⟨rfl, rfl⟩
  rcases ds with _ | ⟨d, ds⟩
  · rfl
  · rw [occurrences, Csp.splitOn_print h, filterMap_cons_some (hread d mem_cons_self).1,
      filterMap_map, map_cons]
    refine congrArg _ ?_
    exact (filterMap_congr fun e he ↦ (hread e (mem_cons_of_mem d he)).2).trans
      (congrFun List.filterMap_eq_map' ds)

theorem isValueToken_of_isToken {w : Word} (h : Csp.IsToken w) : isValueToken w = true := by
  rw [isValueToken, all_eq_true]
  intro c hc
  rw [h.visible c hc, Bool.true_and, Bool.and_eq_true, decide_eq_true_eq, decide_eq_true_eq]
  exact ⟨fun heq ↦ h.no_comma (heq ▸ hc), fun heq ↦ h.no_semicolon (heq ▸ hc)⟩

theorem counted_print {ds : List Csp.Directive} (h : ∀ d ∈ ds, d.Plain)
    (hnames : ∀ d ∈ ds, isDirectiveName d.name = true) (name : Word) :
    counted (Csp.print ds) name = Csp.sourcesOf ds name := by
  rw [counted, named, occurrences_print h, Csp.sourcesOf]
  induction ds with
  | nil => rfl
  | cons d ds ih =>
    obtain ⟨hd, hplain⟩ := forall_mem_cons.mp h
    obtain ⟨hname, hnames⟩ := forall_mem_cons.mp hnames
    have hvalues : (⟨d.name, d.sources⟩ : Occurrence).values = d.sources :=
      filter_eq_self.mpr fun s hs ↦ isValueToken_of_isToken (hd.sources s hs)
    have hcounts : (⟨d.name, d.sources⟩ : Occurrence).Counts := by
      rw [Occurrence.Counts, hvalues]
      exact Classical.em _
    have hiff : (⟨d.name, d.sources⟩ : Occurrence).Names name ↔ d.name = name := by
      rw [Occurrence.Names, hd.lower]
      exact and_iff_right hname
    rw [map_cons, filter_cons, List.find?_cons]
    by_cases heq : d.name = name
    · rw [if_pos (decide_eq_true (hiff.mpr heq)), List.find?_cons, decide_eq_true hcounts,
        decide_eq_true heq]
      exact congrArg some hvalues
    · rw [if_neg (by simpa using fun h ↦ heq (hiff.mp h)), decide_eq_false heq]
      exact ih hplain hnames

theorem counted_mergeCsp (baseline custom : List Char) (name : Word) :
    counted (mergeCsp sameOrigin baseline custom).policy name =
      mergedSources sameOrigin baseline custom name := by
  rw [policy_mergeCsp, counted_print plain_mergedMap, sourcesOf_inOrder, lookup_mergedMap]
  exact fun d hd ↦ isDirectiveName_of_mergedSources
    ((lookup_mergedMap _ _ _).symm.trans (mem_inOrder.mp hd))

theorem inOrder_congr {ds es : Directives} (h : ∀ name, ds.lookup name = es.lookup name) :
    ds.inOrder = es.inOrder := by
  have : Std.Total fun d e : Csp.Directive ↦ d.name ≤ e.name := ⟨fun d e ↦ le_total d.name e.name⟩
  have : IsTrans Csp.Directive fun d e ↦ d.name ≤ e.name := ⟨fun _ _ _ ↦ le_trans⟩
  have hmem (d : Csp.Directive) : d ∈ ds.inOrder ↔ d ∈ es.inOrder := by
    rw [mem_inOrder, mem_inOrder, h]
  have hperm : ds.inOrder.Perm es.inOrder :=
    (perm_ext_iff_of_nodup (nodup_inOrder ds).of_map (nodup_inOrder es).of_map).mpr hmem
  refine hperm.eq_of_pairwise (fun d e hd he hde hed ↦ ?_) (pairwise_insertionSort _ _)
    (pairwise_insertionSort _ _)
  exact inj_on_of_nodup_map (nodup_inOrder ds) hd ((hmem e).mpr he) (le_antisymm hde hed)

theorem policy_eq_iff {baseline' custom' : List Char} :
    (mergeCsp sameOrigin baseline custom).policy = (mergeCsp sameOrigin baseline' custom').policy ↔
      ∀ name, mergedSources sameOrigin baseline custom name =
        mergedSources sameOrigin baseline' custom' name := by
  refine ⟨fun h name ↦ ?_, fun h ↦ ?_⟩
  · rw [← sourcesOf_mergeCsp, h, sourcesOf_mergeCsp]
  · rw [policy_mergeCsp, policy_mergeCsp]
    refine congrArg Csp.print (inOrder_congr fun name ↦ ?_)
    rw [lookup_mergedMap, lookup_mergedMap, h]

end WaferRun.SecurityHeaders
