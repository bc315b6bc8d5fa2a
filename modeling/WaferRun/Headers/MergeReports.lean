import WaferRun.Headers.AddSource

/-!
# What a merge loses

A merge is to lose nothing silently (`LosesNothing`): every source of the operator is in the merged
list as it is written or is reported, of several occurrences of a directive only the first one
counts, and merging the policy again changes nothing.

It does not always. A source is dropped without a word if the list has it in another case, and
`base-uri` and `form-action` drop what stands next to a `'none'`. An occurrence without a valid
source gives way to the next one. And a list that has no counterpart in the baseline is added by one
rule and narrowed by another, which may read it differently. That nothing of this happens is a
condition on the two policies (`Clean`), and the merge loses nothing exactly if it holds
(`losesNothing_iff`).
-/

open List Option

namespace WaferRun.SecurityHeaders

open Text Csp

variable (sameOrigin : Word → Bool) (baseline custom : List Char)

/-! ## What is asked of a merge -/

def CspMerge.sources (m : CspMerge) (name : Word) : List Word :=
  (sourcesOf (read m.policy) name).getD []

def Listed (refused : List Refusal) (o : Occurrence) (token : Word) : Prop :=
  ∃ r ∈ refused, (r.directive = o.written ∨ r.directive = asciiLower o.written) ∧
    (r.source = some token ∨ r.source = none ∧ r.reason ≠ repeated)

/-- The source is a `'none'` next to other sources. -/
def BesideOthers (others : List Word) (token : Word) : Prop :=
  isNone token = true ∧ ∃ s ∈ others, isNone s = false

structure AccountedFor (m : CspMerge) (o : Occurrence) : Prop where
  directive : (sourcesOf (read m.policy) (asciiLower o.written)).isSome = true ∨
    ∃ r ∈ m.refused, r.directive = o.written ∨ r.directive = asciiLower o.written
  sources : ∀ token ∈ o.tokens, token ∈ m.sources (asciiLower o.written) ∨
    Listed m.refused o token ∨
      BesideOthers (o.tokens ++ m.sources (asciiLower o.written)) token

structure LosesNothing : Prop where
  invalid : ∀ o ∈ occurrences custom, isDirectiveName o.written = false →
    ∃ r ∈ (mergeCsp sameOrigin baseline custom).refused, r.directive = o.written ∧ r.source = none
  first : ∀ name o later, named custom name = o :: later →
    AccountedFor (mergeCsp sameOrigin baseline custom) o
  /-- What the other occurrences say does not matter. -/
  alone : ∀ name o later, named custom name = o :: later → ∀ custom', named custom' name = [o] →
    sourcesOf (read (mergeCsp sameOrigin baseline custom).policy) name =
      sourcesOf (read (mergeCsp sameOrigin baseline custom').policy) name
  later : ∀ name o later, named custom name = o :: later →
    repetitions name (mergeCsp sameOrigin baseline custom).refused =
      repetitions name (mergeCsp sameOrigin baseline []).refused + later.length
  again : (mergeCsp sameOrigin (mergeCsp sameOrigin baseline custom).policy custom).policy =
    (mergeCsp sameOrigin baseline custom).policy

/-! ## The condition -/

def KeptAsWritten (name : Word) (existing : Option (List Word)) (offered : List Word)
    (source : Word) : Prop :=
  if name ∈ narrowOnlyDirectives ∧ existing ≠ none then
    (∃ s ∈ offered, isNone s = true) → source = noneSource
  else StandsFirst (existing.getD []) (accepted sameOrigin name offered) source

/-- Every source of the occurrence that is taken is kept as it is written, a `'none'` next to others
excepted. -/
def Spelled (name : Word) (existing : Option (List Word)) (o : Occurrence) : Prop :=
  ¬WhollyRefused name o.values → ∀ s ∈ o.values, sourceRefusal sameOrigin name existing s = none →
    BesideOthers (o.tokens ++ if name ∈ narrowOnlyDirectives then [] else existing.getD []) s ∨
      KeptAsWritten sameOrigin name existing o.values s

/-- A list that means the same when it is added and when it is narrowed. -/
structure Settled (sources : List Word) : Prop where
  none : (∃ s ∈ sources, isNone s = true) →
    (∀ s ∈ sources, isNone s = true) ∧ sources.head? = some noneSource
  nodup : (∀ s ∈ sources, isNone s = false) → (sources.map asciiLower).Nodup

/-- The two policies give no occasion to lose anything. -/
structure Clean : Prop where
  spelled : ∀ name o later, named custom name = o :: later →
    Spelled sameOrigin name (counted baseline name) o
  counts : ∀ name o later, named custom name = o :: later → later ≠ [] → o.Counts
  settled : ∀ name ∈ narrowOnlyDirectives, counted baseline name = none →
    ∀ sources, counted custom name = some sources → Settled (accepted sameOrigin name sources)

variable {sameOrigin baseline custom}

/-! ## What is reported -/

theorem named_cons {name : Word} {o : Occurrence} {later : List Occurrence}
    (h : named custom name = o :: later) : o ∈ occurrences custom ∧ o.Names name := by
  have hmem : o ∈ named custom name := h ▸ mem_cons_self
  obtain ⟨hmem, hnames⟩ := mem_filter.mp hmem
  exact ⟨hmem, of_decide_eq_true hnames⟩

theorem counted_of_counts {name : Word} {o : Occurrence} {later : List Occurrence}
    (h : named custom name = o :: later) (hcounts : o.Counts) :
    counted custom name = some o.values := by
  rw [counted, h, List.find?_cons, decide_eq_true hcounts]
  rfl

theorem subset_refused_custom :
    (parse custom []).refused ⊆ (mergeCsp sameOrigin baseline custom).refused := by
  rw [refused_mergeCsp]
  exact List.Subset.trans (subset_append_right _ _) (subset_append_left _ _)

theorem subset_refused_offered {name : Word} {sources : List Word}
    (h : counted custom name = some sources) :
    refusalsOf sameOrigin name (counted baseline name) sources ⊆
      (mergeCsp sameOrigin baseline custom).refused := by
  rw [refused_mergeCsp]
  intro r hr
  refine mem_append_right _ (mem_flatMap.mpr ⟨⟨name, sources⟩, mem_offered.mpr h, hr⟩)

theorem refusalsOf_of_whollyRefused {name : Word} {sources : List Word}
    (h : WhollyRefused name sources) (existing : Option (List Word)) : ∃ reason, reason ≠ repeated ∧
      refusalsOf sameOrigin name existing sources = [⟨name, none, reason⟩] := by
  unfold refusalsOf
  rcases h with hframe | hreport
  · rw [if_pos hframe]
    exact ⟨_, by decide, rfl⟩
  · rw [if_neg (by rw [hreport.1]; decide), if_pos hreport]
    exact ⟨_, by decide, rfl⟩

theorem mem_refusalsOf {name : Word} {existing : Option (List Word)} {sources : List Word}
    {r : Refusal} (h : r ∈ refusalsOf sameOrigin name existing sources) :
    r.directive = name ∧ (WhollyRefused name sources ∧ r.source = none ∧ r.reason ≠ repeated ∨
      ∃ s ∈ sources, r.source = some s ∧ sourceRefusal sameOrigin name existing s ≠ none) := by
  by_cases hrefused : WhollyRefused name sources
  · obtain ⟨reason, hreason, heq⟩ := refusalsOf_of_whollyRefused hrefused existing
    rw [heq] at h
    rw [mem_singleton.mp h]
    exact ⟨rfl, .inl ⟨hrefused, rfl, hreason⟩⟩
  · rw [refusalsOf_of_not hrefused] at h
    obtain ⟨s, hs, hr⟩ := mem_filterMap.mp h
    obtain ⟨reason, hreason, rfl⟩ := map_eq_some_iff.mp hr
    exact ⟨rfl, .inr ⟨s, hs, rfl, by rw [hreason]; exact some_ne_none _⟩⟩

theorem mem_refusalsOf_of_sourceRefusal {name : Word} {existing : Option (List Word)}
    {sources : List Word} (h : ¬WhollyRefused name sources) {s : Word} (hs : s ∈ sources)
    (hrefusal : sourceRefusal sameOrigin name existing s ≠ none) :
    ∃ r ∈ refusalsOf sameOrigin name existing sources, r.directive = name ∧ r.source = some s := by
  obtain ⟨reason, hreason⟩ := Option.ne_none_iff_exists'.mp hrefusal
  rw [refusalsOf_of_not h]
  exact ⟨⟨name, some s, reason⟩, mem_filterMap.mpr ⟨s, hs, by rw [hreason]; rfl⟩, rfl, rfl⟩

/-- A source that is taken is not reported. -/
theorem not_listed {name : Word} {o : Occurrence} {later : List Occurrence}
    (h : named custom name = o :: later) (hcounts : o.Counts)
    (hrefused : ¬WhollyRefused name o.values) {token : Word} (hvalid : isValueToken token = true)
    (htaken : sourceRefusal sameOrigin name (counted baseline name) token = none) :
    ¬Listed (mergeCsp sameOrigin baseline custom).refused o token := by
  rintro ⟨r, hr, hdirective, hsource⟩
  have hnames := (named_cons h).2
  have hvalidName : isDirectiveName r.directive = true := by
    rcases hdirective with heq | heq <;> rw [heq]
    · exact hnames.1
    · exact isDirectiveName_asciiLower hnames.1
  rw [refused_mergeCsp, mem_append, mem_append] at hr
  have hparse {input : List Char} (hr : r ∈ (parse input []).refused) : False := by
    obtain ⟨p, -, known, hr⟩ := exists_of_mem_refused_parse hr
    obtain ⟨hp, ⟨hnone, hreason⟩ | ⟨t, -, ht, hinvalid⟩⟩ := mem_refusals hr
    · rcases hsource with hsome | ⟨-, hne⟩
      · cases hnone.symm.trans hsome
      · refine hreason.elim (fun hinvalid ↦ ?_) hne
        rw [← hp, hvalidName] at hinvalid
        cases hinvalid
    · rcases hsource with hsome | ⟨hnone, -⟩
      · rw [some.inj (ht.symm.trans hsome), hvalid] at hinvalid
        cases hinvalid
      · cases ht.symm.trans hnone
  rcases hr with (hr | hr) | hr
  · exact hparse hr
  · exact hparse hr
  · obtain ⟨d, hd, hr⟩ := mem_flatMap.mp hr
    have hd := mem_offered.mp hd
    obtain ⟨hname, hr⟩ := mem_refusalsOf hr
    have hlower : d.name = name := by
      have hplain := (plain_of_counted hd).lower
      rw [← hnames.2]
      rcases hdirective with heq | heq
      · rw [← heq, hname, hplain]
      · rw [← heq, hname]
    rw [hlower, counted_of_counts h hcounts] at hd
    rw [hlower, ← some.inj hd] at hr
    rcases hr with ⟨hwhole, -⟩ | ⟨s, -, hs, hne⟩
    · exact hrefused hwhole
    · rcases hsource with hsome | ⟨hnone, -⟩
      · exact hne (some.inj (hs.symm.trans hsome) ▸ htaken)
      · cases hs.symm.trans hnone

/-! ## The first occurrence -/

theorem sources_mergeCsp (name : Word) :
    (mergeCsp sameOrigin baseline custom).sources name =
      (mergedSources sameOrigin baseline custom name).getD [] := by
  rw [CspMerge.sources, sourcesOf_mergeCsp]

theorem keptAsWritten_add_iff {base offered others : List Word} {s : Word}
    (hsub : offered ⊆ others) :
    s ∈ offered.foldl addSource base ∨
        BesideOthers (others ++ offered.foldl addSource base) s ↔
      BesideOthers (others ++ base) s ∨ StandsFirst base offered s := by
  have hbeside : BesideOthers (others ++ offered.foldl addSource base) s ↔
      BesideOthers (others ++ base) s := by
    refine and_congr_right fun _ ↦ exists_congr fun t ↦ and_congr_left fun ht ↦ ?_
    rw [mem_append, mem_append]
    refine ⟨fun h ↦ h.elim .inl fun h ↦ ?_, fun h ↦ h.imp_right (mem_foldl_addSource_of_mem ht)⟩
    exact (mem_foldl_addSource h).elim .inr fun h ↦ .inl (hsub h)
  rw [hbeside, or_comm]
  by_cases hothers : BesideOthers (others ++ base) s
  · exact iff_of_true (.inl hothers) (.inl hothers)
  · rw [or_iff_right hothers, or_iff_right hothers]
    refine mem_foldl_addSource_iff ?_
    by_cases hs : isNone s = true
    · refine .inr fun x hx ↦ not_not.mp fun hx' ↦ hothers ⟨hs, x, ?_, Bool.eq_false_iff.mpr hx'⟩
      exact mem_append.mpr ((mem_append.mp hx).imp_left fun hx ↦ hsub hx)
    · exact .inl (Bool.eq_false_iff.mpr hs)

/-- A source of a list that is narrowed is kept as it is written unless it stands next to a
`'none'`. -/
theorem keptAsWritten_narrow_iff {base offered others : List Word} {s : Word} (hs : s ∈ offered)
    (hknown : known base s = true) :
    s ∈ narrow base offered ∨ BesideOthers (others ++ narrow base offered) s ↔
      BesideOthers others s ∨ ((∃ t ∈ offered, isNone t = true) → s = noneSource) := by
  by_cases hnone : ∃ t ∈ offered, isNone t = true
  · have hbeside : BesideOthers (others ++ [noneSource]) s ↔ BesideOthers others s := by
      refine and_congr_right fun _ ↦ exists_congr fun t ↦ and_congr_left fun ht ↦ ?_
      rw [mem_append, mem_singleton]
      refine or_iff_left ?_
      rintro rfl
      exact absurd ht (by decide)
    rw [narrow_of_isNone hnone, hbeside, mem_singleton, or_comm, forall_prop_of_true hnone]
  · have hmem : s ∈ offered.filter (known base) := mem_filter.mpr ⟨hs, hknown⟩
    rw [narrow_of_not_isNone hnone, if_pos (ne_nil_of_mem hmem)]
    exact iff_of_true (.inl hmem) (.inr fun h ↦ absurd h hnone)

theorem kept_iff_keptAsWritten {name : Word} {existing : Option (List Word)}
    {offered others : List Word} (hrefused : ¬WhollyRefused name offered) (hsub : offered ⊆ others)
    {s : Word} (hs : s ∈ offered) (htaken : sourceRefusal sameOrigin name existing s = none) :
    s ∈ (entryAfter sameOrigin name existing offered).getD [] ∨
        BesideOthers (others ++ (entryAfter sameOrigin name existing offered).getD []) s ↔
      BesideOthers (others ++ if name ∈ narrowOnlyDirectives then [] else existing.getD []) s ∨
        KeptAsWritten sameOrigin name existing offered s := by
  have hsub' : accepted sameOrigin name offered ⊆ others :=
    List.Subset.trans (filter_subset_self _) hsub
  rcases existing with _ | base
  · have hmem : s ∈ accepted sameOrigin name offered :=
      mem_filter.mpr ⟨hs, decide_eq_true htaken⟩
    rw [entryAfter_none hrefused, if_neg fun h ↦ ne_nil_of_mem hmem h.1, KeptAsWritten,
      getD_some, getD_none, ite_self, if_neg fun h ↦ h.2 rfl]
    exact keptAsWritten_add_iff hsub'
  · rw [entryAfter_some hrefused, KeptAsWritten]
    by_cases hname : name ∈ narrowOnlyDirectives
    · rw [sourceRefusal, if_pos hname] at htaken
      have hknown : known base s = true := by
        by_contra hunknown
        rw [if_neg hunknown] at htaken
        cases htaken
      rw [if_pos hname, if_pos hname, if_pos ⟨hname, some_ne_none base⟩, getD_some,
        append_nil]
      exact keptAsWritten_narrow_iff hs hknown
    · rw [if_neg hname, if_neg hname, if_neg fun h ↦ hname h.1, getD_some, getD_some]
      exact keptAsWritten_add_iff hsub'

theorem listed_of_invalid {name : Word} {o : Occurrence} {later : List Occurrence}
    (h : named custom name = o :: later) {token : Word} (htoken : token ∈ o.tokens)
    (hinvalid : isValueToken token = false) :
    Listed (mergeCsp sameOrigin baseline custom).refused o token := by
  refine ⟨⟨o.written, some token, invalidSource⟩, ?_, .inl rfl, .inl rfl⟩
  refine subset_refused_custom (refusals_subset_of_named h ?_)
  rw [Occurrence.refusals, if_pos (named_cons h).2.1, if_neg Bool.false_ne_true]
  exact List.mem_map.mpr ⟨token, mem_filter.mpr ⟨htoken, by rw [hinvalid]; rfl⟩, rfl⟩

section

variable {name : Word} {o : Occurrence} {later : List Occurrence}
  (h : named custom name = o :: later) (hcounts : o.Counts)
include h hcounts

theorem listed_of_whollyRefused (hrefused : WhollyRefused name o.values) (token : Word) :
    Listed (mergeCsp sameOrigin baseline custom).refused o token := by
  obtain ⟨reason, hreason, heq⟩ :=
    @refusalsOf_of_whollyRefused sameOrigin _ _ hrefused (counted baseline name)
  exact ⟨_, subset_refused_offered (counted_of_counts h hcounts) (heq ▸ mem_cons_self),
    .inr (named_cons h).2.2.symm, .inr ⟨rfl, hreason⟩⟩

theorem listed_of_sourceRefusal (hrefused : ¬WhollyRefused name o.values) {token : Word}
    (htoken : token ∈ o.values)
    (hrefusal : sourceRefusal sameOrigin name (counted baseline name) token ≠ none) :
    Listed (mergeCsp sameOrigin baseline custom).refused o token := by
  obtain ⟨r, hr, hname, hsource⟩ := mem_refusalsOf_of_sourceRefusal hrefused htoken hrefusal
  exact ⟨r, subset_refused_offered (counted_of_counts h hcounts) hr,
    .inr (hname.trans (named_cons h).2.2.symm), .inl hsource⟩

theorem mergedSources_of_counts : mergedSources sameOrigin baseline custom name =
    entryAfter sameOrigin name (counted baseline name) o.values := by
  rw [mergedSources, counted_of_counts h hcounts]

theorem directive_accounted :
    (sourcesOf (read (mergeCsp sameOrigin baseline custom).policy) name).isSome = true ∨
      ∃ token, Listed (mergeCsp sameOrigin baseline custom).refused o token := by
  by_cases hrefused : WhollyRefused name o.values
  · exact .inr ⟨[], listed_of_whollyRefused h hcounts hrefused []⟩
  · rw [sourcesOf_mergeCsp, mergedSources_of_counts h hcounts]
    rcases hbase : counted baseline name with _ | base
    · rw [entryAfter_none hrefused]
      split
      · -- there are sources, and none of them is accepted
        rename_i hnone
        obtain ⟨s, hs⟩ := exists_mem_of_ne_nil _ hnone.2
        refine .inr ⟨s, listed_of_sourceRefusal h hcounts hrefused hs fun htaken ↦ ?_⟩
        rw [hbase] at htaken
        have hmem : s ∈ accepted sameOrigin name o.values :=
          mem_filter.mpr ⟨hs, decide_eq_true htaken⟩
        exact ne_nil_of_mem hmem hnone.1
      · exact .inl rfl
    · rw [entryAfter_some hrefused]
      exact .inl (by split <;> rfl)

end

/-- **An occurrence is accounted for exactly if its sources are spelled as they are kept.** -/
theorem accountedFor_iff {name : Word} {o : Occurrence} {later : List Occurrence}
    (h : named custom name = o :: later) :
    AccountedFor (mergeCsp sameOrigin baseline custom) o ↔
      Spelled sameOrigin name (counted baseline name) o := by
  have hname : asciiLower o.written = name := (named_cons h).2.2
  have hlisted {token : Word} (hl : Listed (mergeCsp sameOrigin baseline custom).refused o token) :
      ∃ r ∈ (mergeCsp sameOrigin baseline custom).refused,
        r.directive = o.written ∨ r.directive = asciiLower o.written :=
    hl.imp fun r hr ↦ ⟨hr.1, hr.2.1⟩
  by_cases hcounts : o.Counts
  · have hsub : o.values ⊆ o.tokens := filter_subset_self _
    have hsources : (mergeCsp sameOrigin baseline custom).sources (asciiLower o.written) =
        (entryAfter sameOrigin name (counted baseline name) o.values).getD [] := by
      rw [sources_mergeCsp, hname, mergedSources_of_counts h hcounts]
    constructor
    · intro hacc hrefused s hs htaken
      have hkept := hacc.sources s (hsub hs)
      rw [hsources, or_left_comm] at hkept
      exact (kept_iff_keptAsWritten hrefused hsub hs htaken).mp <| hkept.resolve_left <|
        not_listed h hcounts hrefused (mem_filter.mp hs).2 htaken
    · intro hspelled
      refine ⟨?_, fun token htoken ↦ ?_⟩
      · rw [hname]
        exact (directive_accounted h hcounts).imp_right fun ⟨_, hl⟩ ↦ hname ▸ hlisted hl
      · rw [hsources, or_left_comm]
        by_cases hvalid : isValueToken token = true
        · have hs : token ∈ o.values := mem_filter.mpr ⟨htoken, hvalid⟩
          by_cases hrefused : WhollyRefused name o.values
          · exact .inl (listed_of_whollyRefused h hcounts hrefused token)
          · by_cases htaken : sourceRefusal sameOrigin name (counted baseline name) token = none
            · exact .inr ((kept_iff_keptAsWritten hrefused hsub hs htaken).mpr
                (hspelled hrefused token hs htaken))
            · exact .inl (listed_of_sourceRefusal h hcounts hrefused hs htaken)
        · exact .inl (listed_of_invalid h htoken (Bool.eq_false_iff.mpr hvalid))
  · -- none of the sources is valid, and each is reported
    obtain ⟨htokens, hvalues⟩ := Occurrence.not_counts.mp hcounts
    have hinvalid : ∀ token ∈ o.tokens, isValueToken token = false := fun token htoken ↦
      Bool.eq_false_iff.mpr fun hvalid ↦
        ne_nil_of_mem (mem_filter.mpr ⟨htoken, hvalid⟩) hvalues
    obtain ⟨token, htoken⟩ := exists_mem_of_ne_nil _ htokens
    refine iff_of_true ⟨.inr (hlisted (listed_of_invalid h htoken (hinvalid token htoken))),
      fun t ht ↦ .inr (.inl (listed_of_invalid h ht (hinvalid t ht)))⟩ fun _ s hs ↦ ?_
    rw [hvalues] at hs
    exact absurd hs not_mem_nil

/-! ## The later occurrences -/

theorem repetitions_mergeCsp (name : Word) :
    repetitions name (mergeCsp sameOrigin baseline custom).refused =
      repetitions name (parse baseline []).refused + (afterCounted (named custom name)).length := by
  have hrest : repetitions name ((parse custom (parse baseline []).refused).directives.inOrder.flatMap
      fun d ↦ refusalsOf sameOrigin d.name (counted baseline d.name) d.sources) = 0 := by
    refine countP_eq_zero.mpr fun r hr hrep ↦ ?_
    obtain ⟨hnone, hreason, -⟩ := of_decide_eq_true hrep
    obtain ⟨d, -, hr⟩ := mem_flatMap.mp hr
    obtain ⟨-, ⟨-, -, hne⟩ | ⟨s, -, hs, -⟩⟩ := mem_refusalsOf hr
    · exact hne hreason
    · cases hs.symm.trans hnone
  rw [refused_mergeCsp, repetitions_append, repetitions_append, hrest, repetitions_parse custom,
    Nat.add_zero]

theorem length_afterCounted_le (os : List Occurrence) : (afterCounted os).length ≤ os.length - 1 := by
  have hdropped : (os.dropWhile fun o ↦ !decide o.Counts).Sublist os := dropWhile_sublist _
  have hle := hdropped.length_le
  rw [afterCounted, length_tail]
  omega

/-- **Every later occurrence is reported exactly if the first one counts**, where there is a later
one. -/
theorem later_iff {name : Word} {o : Occurrence} {later : List Occurrence}
    (h : named custom name = o :: later) :
    repetitions name (mergeCsp sameOrigin baseline custom).refused =
        repetitions name (mergeCsp sameOrigin baseline []).refused + later.length ↔
      (later ≠ [] → o.Counts) := by
  have hempty : named [] name = [] := rfl
  rw [repetitions_mergeCsp, repetitions_mergeCsp, hempty, h]
  change _ + _ = _ + 0 + _ ↔ _
  rw [Nat.add_zero, Nat.add_left_cancel_iff]
  by_cases hcounts : o.Counts
  · rw [afterCounted_cons_pos hcounts]
    exact iff_of_true rfl fun _ ↦ hcounts
  · rw [afterCounted_cons_neg hcounts]
    rcases later with _ | ⟨p, later⟩
    · exact iff_of_true rfl fun hne ↦ absurd rfl hne
    · have hle := length_afterCounted_le (p :: later)
      rw [length_cons] at hle ⊢
      exact iff_of_false (by omega) fun hall ↦ hcounts (hall (cons_ne_nil p later))

theorem alone_of_counts {name : Word} {o : Occurrence} {later : List Occurrence}
    (h : named custom name = o :: later) (hcounts : later ≠ [] → o.Counts) {custom' : List Char}
    (h' : named custom' name = [o]) :
    sourcesOf (read (mergeCsp sameOrigin baseline custom).policy) name =
      sourcesOf (read (mergeCsp sameOrigin baseline custom').policy) name := by
  have hcounted : counted custom name = counted custom' name := by
    rw [counted, counted, h, h']
    by_cases hlater : later = []
    · rw [hlater]
    · rw [List.find?_cons, List.find?_cons, decide_eq_true (hcounts hlater)]
  rw [sourcesOf_mergeCsp, sourcesOf_mergeCsp, mergedSources, mergedSources, hcounted]

/-! ## Merging again -/

theorem narrow_narrow (base sources : List Word) :
    narrow (narrow base sources) sources = narrow base sources := by
  by_cases hnone : ∃ s ∈ sources, isNone s = true
  · rw [narrow_of_isNone hnone, narrow_of_isNone hnone]
  · have hknown (l : List Word) {s : Word} (hs : s ∈ sources) : known l s = true ↔ Has l s := by
      rw [known, Bool.eq_false_iff.mpr fun h ↦ hnone ⟨s, hs, h⟩, Bool.false_or, any_iff_has]
    rw [narrow_of_not_isNone hnone, narrow_of_not_isNone hnone]
    by_cases hkept : sources.filter (known base) = []
    · rw [if_neg (not_not.mpr hkept), if_neg (not_not.mpr hkept)]
    · have hagain : sources.filter (known (sources.filter (known base))) =
          sources.filter (known base) := by
        refine filter_congr fun s hs ↦ Bool.eq_iff_iff.mpr ?_
        rw [hknown _ hs, hknown _ hs]
        constructor
        · rintro ⟨t, ht, heq⟩
          obtain ⟨ht, htbase⟩ := mem_filter.mp ht
          obtain ⟨b, hb, hbt⟩ := (hknown base ht).mp htbase
          exact ⟨b, hb, hbt.trans heq⟩
        · exact fun h ↦ ⟨s, mem_filter.mpr ⟨hs, (hknown base hs).mpr h⟩, rfl⟩
      rw [if_pos hkept, hagain, if_pos hkept]

theorem navigationSourceRefusal_congr {s t : Word} (h : asciiLower s = asciiLower t) :
    navigationSourceRefusal s = navigationSourceRefusal t := by
  unfold navigationSourceRefusal
  rw [h]

section

variable {name : Word} (hname : name ∈ narrowOnlyDirectives)
include hname

theorem sourceRule_of_narrowOnly : sourceRule sameOrigin name = navigationSourceRefusal := by
  have hscript : name ∉ scriptDirectives :=
    (by decide : ∀ n ∈ narrowOnlyDirectives, n ∉ scriptDirectives) name hname
  rw [sourceRule, if_neg hscript, if_pos hname]

theorem mem_accepted {sources : List Word} {s : Word} :
    s ∈ accepted sameOrigin name sources ↔ s ∈ sources ∧ navigationSourceRefusal s = none := by
  rw [accepted, mem_filter, sourceRule_of_narrowOnly hname, decide_eq_true_iff]

theorem mem_accepted_of_isNone {sources : List Word} {s : Word} (hs : s ∈ sources)
    (hnone : isNone s = true) : s ∈ accepted sameOrigin name sources := by
  refine (mem_accepted hname).mpr ⟨hs, ?_⟩
  rw [navigationSourceRefusal_congr (isNone_iff.mp hnone)]
  decide

/-- **A list that was added is left alone by narrowing exactly if it is settled.** -/
theorem narrow_foldl_iff (sources : List Word) :
    narrow ((accepted sameOrigin name sources).foldl addSource []) sources =
        (accepted sameOrigin name sources).foldl addSource [] ↔
      Settled (accepted sameOrigin name sources) := by
  have hsettles (s : Word) (hs : s ∈ accepted sameOrigin name sources) := settles_foldl hs []
  by_cases hnone : ∃ s ∈ sources, isNone s = true
  · obtain ⟨a, ha, hanone⟩ := hnone
    have hmem := @mem_accepted_of_isNone sameOrigin _ hname _ _ ha hanone
    rw [narrow_of_isNone ⟨a, ha, hanone⟩]
    generalize accepted sameOrigin name sources = acc at hsettles hmem
    obtain ⟨b, rest, rfl⟩ := exists_cons_of_ne_nil (ne_nil_of_mem hmem)
    constructor
    · intro heq
      have hall : ∀ s ∈ b :: rest, isNone s = true := by
        intro s hs
        rcases hsettles s hs with ⟨t, ht, hts⟩ | ⟨hs, -⟩
        · rw [← heq, mem_singleton] at ht
          exact isNone_iff.mpr (ht ▸ hts).symm
        · exact hs
      rw [foldl_addSource_of_isNone hall] at heq
      refine ⟨fun _ ↦ ⟨hall, congrArg some (cons.inj heq).1.symm⟩, fun hno ↦ ?_⟩
      rw [hno a hmem] at hanone
      cases hanone
    · intro hsettled
      obtain ⟨hall, hhead⟩ := hsettled.none ⟨a, hmem, hanone⟩
      rw [foldl_addSource_of_isNone hall, some.inj hhead]
  · have hmeans : ∀ s ∈ sources, isNone s = false :=
      fun s hs ↦ Bool.eq_false_iff.mpr fun h ↦ hnone ⟨s, hs, h⟩
    have hacc : ∀ s ∈ accepted sameOrigin name sources, isNone s = false :=
      fun s hs ↦ hmeans s (mem_of_mem_filter hs)
    have hkept : sources.filter (known ((accepted sameOrigin name sources).foldl addSource [])) =
        accepted sameOrigin name sources := by
      refine filter_congr fun s hs ↦ Bool.eq_iff_iff.mpr ?_
      rw [known, hmeans s hs, Bool.false_or, any_iff_has, sourceRule_of_narrowOnly hname,
        decide_eq_true_iff]
      constructor
      · rintro ⟨t, ht, heq⟩
        have ht := (mem_foldl_addSource ht).resolve_left not_mem_nil
        rw [← navigationSourceRefusal_congr heq]
        exact ((mem_accepted hname).mp ht).2
      · intro hrule
        have hs' := (@mem_accepted sameOrigin _ hname sources s).mpr ⟨hs, hrule⟩
        refine (hsettles s hs').resolve_right fun h ↦ ?_
        rw [hmeans s hs] at h
        cases h.1
    rw [narrow_of_not_isNone hnone, hkept]
    generalize accepted sameOrigin name sources = acc at hacc
    have hsettled : Settled acc ↔ (acc.map asciiLower).Nodup := by
      refine ⟨fun h ↦ h.nodup hacc, fun h ↦ ⟨fun hex ↦ ?_, fun _ ↦ h⟩⟩
      obtain ⟨s, hs, hsnone⟩ := hex
      rw [hacc s hs] at hsnone
      cases hsnone
    rw [hsettled]
    by_cases hnil : acc = []
    · rw [hnil]
      exact iff_of_true (if_neg (not_not.mpr rfl)) nodup_nil
    · rw [if_pos hnil]
      refine ⟨fun heq ↦ ?_, fun h ↦ (@foldl_addSource_of_nodup acc [] hacc h).symm⟩
      rw [heq]
      exact nodup_foldl_addSource hacc nodup_nil

end

theorem entryAfter_again_iff {name : Word} {existing : Option (List Word)} {sources : List Word} :
    entryAfter sameOrigin name (entryAfter sameOrigin name existing sources) sources =
        entryAfter sameOrigin name existing sources ↔
      (name ∈ narrowOnlyDirectives → existing = none →
        Settled (accepted sameOrigin name sources)) := by
  by_cases hrefused : WhollyRefused name sources
  · rw [entryAfter_of_whollyRefused hrefused, entryAfter_of_whollyRefused hrefused]
    refine iff_of_true rfl fun hname ↦ absurd hrefused (not_or.mpr ⟨(narrowOnly_ne hname).1, ?_⟩)
    exact fun h ↦ (narrowOnly_ne hname).2 h.1
  · rcases existing with _ | base
    · rw [entryAfter_none hrefused]
      by_cases hnone : accepted sameOrigin name sources = [] ∧ sources ≠ []
      · rw [if_pos hnone, entryAfter_none hrefused, if_pos hnone]
        refine iff_of_true rfl fun _ _ ↦ ?_
        rw [hnone.1]
        exact ⟨fun ⟨s, hs, _⟩ ↦ absurd hs not_mem_nil, fun _ ↦ nodup_nil⟩
      · rw [if_neg hnone, entryAfter_some hrefused]
        by_cases hname : name ∈ narrowOnlyDirectives
        · rw [if_pos hname, some_inj, narrow_foldl_iff hname]
          exact ⟨fun h _ _ ↦ h, fun h ↦ h hname rfl⟩
        · rw [if_neg hname, foldl_addSource_again]
          exact iff_of_true rfl fun h ↦ absurd h hname
    · refine iff_of_true ?_ fun _ h ↦ nomatch h
      rw [entryAfter_some hrefused]
      split <;> rw [entryAfter_some hrefused]
      · rename_i hname
        rw [if_pos hname, narrow_narrow]
      · rename_i hname
        rw [if_neg hname, foldl_addSource_again]

theorem again_iff :
    (mergeCsp sameOrigin (mergeCsp sameOrigin baseline custom).policy custom).policy =
        (mergeCsp sameOrigin baseline custom).policy ↔
      ∀ name ∈ narrowOnlyDirectives, counted baseline name = none →
        ∀ sources, counted custom name = some sources →
          Settled (accepted sameOrigin name sources) := by
  rw [policy_eq_iff]
  have heach (name : Word) : mergedSources sameOrigin (mergeCsp sameOrigin baseline custom).policy
        custom name = mergedSources sameOrigin baseline custom name ↔
      ∀ sources, counted custom name = some sources → name ∈ narrowOnlyDirectives →
        counted baseline name = none → Settled (accepted sameOrigin name sources) := by
    rw [mergedSources, counted_mergeCsp]
    unfold mergedSources
    rcases counted custom name with _ | sources
    · exact iff_of_true rfl fun _ h ↦ (by cases h)
    · rw [entryAfter_again_iff]
      exact ⟨fun h s hs ↦ some.inj hs ▸ h, fun h ↦ h sources rfl⟩
  simp only [heach]
  exact ⟨fun h name hname hnone sources hs ↦ h name sources hs hname hnone,
    fun h name sources hs hname hnone ↦ h name hname hnone sources hs⟩

/-- **A merge loses nothing exactly if the policies give no occasion.** -/
theorem losesNothing_iff (sameOrigin : Word → Bool) (baseline custom : List Char) :
    LosesNothing sameOrigin baseline custom ↔ Clean sameOrigin baseline custom := by
  constructor
  · intro h
    exact ⟨fun name o later hnamed ↦ (accountedFor_iff hnamed).mp (h.first name o later hnamed),
      fun name o later hnamed ↦ (later_iff hnamed).mp (h.later name o later hnamed),
      again_iff.mp h.again⟩
  · intro h
    refine ⟨fun o ho hinvalid ↦ ?_,
      fun name o later hnamed ↦ (accountedFor_iff hnamed).mpr (h.spelled name o later hnamed),
      fun name o later hnamed custom' ↦ alone_of_counts hnamed (h.counts name o later hnamed),
      fun name o later hnamed ↦ (later_iff hnamed).mpr (h.counts name o later hnamed),
      again_iff.mpr h.settled⟩
    have hrefusals : o.refusals false = [⟨o.written, none, "not a valid directive name"⟩] := by
      rw [Occurrence.refusals, hinvalid]
      rfl
    exact ⟨_, subset_refused_custom (refusals_subset_of_invalid ho hinvalid
      (hrefusals ▸ mem_cons_self)), rfl, rfl⟩

/-- A nonce is dropped because another one differs from it in case only. -/
theorem nonce_lost_silently : ∃ (sameOrigin : Word → Bool) (baseline custom : List Char),
    ¬LosesNothing sameOrigin baseline custom := by
  refine ⟨fun _ ↦ true, [], "script-src 'nonce-a' 'nonce-A'".toList, fun h ↦ ?_⟩
  have hnamed : named "script-src 'nonce-a' 'nonce-A'".toList "script-src".toList =
      [⟨"script-src".toList, ["'nonce-a'".toList, "'nonce-A'".toList]⟩] := by decide
  have hrefused : (mergeCsp (fun _ ↦ true) [] "script-src 'nonce-a' 'nonce-A'".toList).refused = [] := by
    decide +kernel
  have hsources : (mergeCsp (fun _ ↦ true) [] "script-src 'nonce-a' 'nonce-A'".toList).sources
      "script-src".toList = ["'nonce-a'".toList] := by decide +kernel
  have hlost := (h.first _ _ _ hnamed).sources "'nonce-A'".toList (by decide)
  have hname : asciiLower "script-src".toList = "script-src".toList := by decide
  rw [hname, hsources] at hlost
  rcases hlost with hmem | ⟨r, hr, -⟩ | ⟨hnone, -⟩
  · exact absurd hmem (by decide)
  · rw [hrefused] at hr
    exact absurd hr not_mem_nil
  · exact absurd hnone (by decide)

end WaferRun.SecurityHeaders
