import Mathlib
import WaferRun.Headers.ScriptSources
import WaferRun.Headers.SecurityHeaders

/-!
# What an operator cannot open

Whatever policy an operator configures, the one that is sent, read as a browser reads it, keeps the
script of the site to the baseline and to single named hosts (`CspFloor`).

The promise is kept by the directives as the merge holds them in its map (`MapFloor`), and every
directive that is merged keeps it (`mapFloor_mergeDirective`). A policy whose directives keep it is
read back from its text, so the two rewritings of the text are rewritings of the directives.
-/

open List

namespace WaferRun.SecurityHeaders

open Text Csp

variable {d : Csp.Directive} {blobWorkers : Bool} {ds : List Csp.Directive} {s : Word}

def baseline : List Csp.Directive := Csp.read defaultCsp

def baselineSources (name : Word) : List Word := (Csp.sourcesOf baseline name).getD []

def ScriptSource (blobWorkers : Bool) (name source : Word) : Prop :=
  source ∈ baselineSources name ∨ Admitted source ∨
    name = workerSrcDirective ∧ blobWorkers = true ∧ source = blobSource

def OnlySelfOrNone (sources : List Word) : Prop :=
  sources ≠ [] ∧ ((∀ s ∈ sources, eqIgnoreAsciiCase s selfSource = true) ∨
    ∀ s ∈ sources, eqIgnoreAsciiCase s noneSource = true)

structure DirectiveFloor (fa : FrameAncestors) (blobWorkers : Bool) (d : Csp.Directive) :
    Prop where
  plain : d.Plain
  frameAncestors : d.name = frameAncestorsDirective → d.sources = [fa.cspSource]
  navigation : d.name ∈ narrowOnlyDirectives → OnlySelfOrNone d.sources
  script : d.name ∈ scriptDirectives → ∀ s ∈ d.sources, ScriptSource blobWorkers d.name s
  report : d.name = reportUriDirective → ∀ s ∈ d.sources, StaysOnOrigin s

structure PolicyFloor (fa : FrameAncestors) (blobWorkers : Bool) (ds : List Csp.Directive) :
    Prop where
  each : ∀ d ∈ ds, DirectiveFloor fa blobWorkers d
  once : (ds.map (·.name)).Nodup
  present : ∀ b ∈ baseline, b.name ∈ ds.map (·.name)

/-- What is promised of the value that is sent: it is one policy of printable characters, and it
reads as directives that keep the promise. -/
structure CspFloor (fa : FrameAncestors) (blobWorkers : Bool) (value : List Char) : Prop where
  one : Csp.policies value = [value]
  printable : ∀ c ∈ value, 0x20 ≤ c.toNat ∧ c.toNat ≤ 0x7e
  directives : PolicyFloor fa blobWorkers (Csp.read value)

/-! ## The baseline -/

def baselineDirectives : List Csp.Directive :=
  [⟨"default-src".toList, [selfSource]⟩,
    ⟨"script-src".toList, [selfSource, "'unsafe-inline'".toList]⟩,
    ⟨"style-src".toList, [selfSource, "'unsafe-inline'".toList]⟩,
    ⟨"img-src".toList, [selfSource, "data:".toList, "blob:".toList, "https:".toList]⟩,
    ⟨"font-src".toList, [selfSource, "https:".toList]⟩,
    ⟨"connect-src".toList, [selfSource]⟩,
    ⟨"frame-ancestors".toList, [noneSource]⟩,
    ⟨"base-uri".toList, [selfSource]⟩,
    ⟨"form-action".toList, [selfSource]⟩]

theorem plain_baselineDirectives : ∀ d ∈ baselineDirectives, d.Plain := by decide

theorem defaultCsp_eq_print : defaultCsp = Csp.print baselineDirectives := by decide +kernel

theorem baseline_eq : baseline = baselineDirectives := by
  rw [baseline, defaultCsp_eq_print]
  exact Csp.read_print plain_baselineDirectives

theorem parse_defaultCsp :
    (parse defaultCsp []).directives.entries.map (fun entry ↦ (⟨entry.1, entry.2⟩ : Csp.Directive)) =
      baseline.reverse := by
  decide +kernel

theorem exists_baseline_of_narrowOnly {name : Word} (h : name ∈ narrowOnlyDirectives) :
    ∃ b ∈ baseline, b.name = name := by
  have hall : ∀ n ∈ narrowOnlyDirectives, ∃ b ∈ baseline, b.name = n := by
    rw [baseline_eq]
    decide
  exact hall name h

theorem directiveFloor_of_mem_baseline (h : d ∈ baseline) : DirectiveFloor .none false d := by
  have hplain : ∀ d ∈ baseline, d.Plain := baseline_eq ▸ plain_baselineDirectives
  have hframe : ∀ d ∈ baseline, d.name = frameAncestorsDirective → d.sources = [noneSource] := by
    rw [baseline_eq]
    decide
  have hnavigation : ∀ d ∈ baseline, d.name ∈ narrowOnlyDirectives → d.sources = [selfSource] := by
    rw [baseline_eq]
    decide
  have hsources : ∀ d ∈ baseline, ∀ s ∈ d.sources, s ∈ baselineSources d.name := by
    unfold baselineSources
    rw [baseline_eq]
    decide
  have hreport : ∀ d ∈ baseline, d.name ≠ reportUriDirective := by
    rw [baseline_eq]
    decide
  refine ⟨hplain d h, hframe d h, fun hmem ↦ ?_, fun _ s hs ↦ .inl (hsources d h s hs),
    fun heq ↦ absurd heq (hreport d h)⟩
  rw [hnavigation d h hmem]
  exact ⟨cons_ne_nil _ _, .inl (forall_mem_singleton.mpr (by decide))⟩

/-! ## Printed policies -/

theorem print_eq_ite (d : Csp.Directive) :
    d.print = if d.sources = [] then d.name else d.name ++ ' ' :: join [' '] d.sources := by
  rw [Csp.Directive.print]
  rcases d.sources with _ | ⟨s, sources⟩
  · rw [if_pos rfl]
    rfl
  · rw [join, if_neg (cons_ne_nil _ _), append_assoc, singleton_append]
    exact cons_ne_nil _ _

theorem serialize_eq_print (ds : Directives) : serialize ds = Csp.print ds.inOrder := by
  rw [serialize, Csp.print]
  exact congrArg _ (map_congr_left fun d _ ↦ (print_eq_ite d).symm)

theorem PolicyFloor.plain {fa : FrameAncestors} (h : PolicyFloor fa blobWorkers ds) :
    ∀ d ∈ ds, d.Plain :=
  fun d hd ↦ (h.each d hd).plain

theorem cspFloor_print {fa : FrameAncestors} (h : PolicyFloor fa blobWorkers ds) :
    CspFloor fa blobWorkers (Csp.print ds) := by
  have hchars : ∀ c ∈ Csp.print ds, (isVisible c = true ∨ c = ' ') ∧ c ≠ ',' := by
    refine forall_mem_join (by decide) fun piece hpiece c hc ↦ ?_
    obtain ⟨d, hd, rfl⟩ := mem_map.mp hpiece
    obtain ⟨hchar, hcomma, -⟩ := (h.plain d hd).print_chars c hc
    exact ⟨hchar, hcomma⟩
  refine ⟨splitOn_eq_singleton fun hmem ↦ (hchars _ hmem).2 rfl, fun c hc ↦ ?_, ?_⟩
  · rcases (hchars c hc).1 with hvisible | rfl
    · simp only [isVisible, Bool.and_eq_true, decide_eq_true_eq] at hvisible
      omega
    · decide
  · rwa [Csp.read_print h.plain]

/-! ## Parsing -/

theorem toNat_lt_of_isAlphanum {c : Char} (h : c.isAlphanum = true ∨ c = '-') : c.toNat < 128 := by
  rcases h with h | rfl
  · simp only [Char.isAlphanum, Char.isAlpha, Char.isUpper, ↓Char.isValue, Char.reduceVal,
      ge_iff_le, UInt32.le_iff_toNat_le, UInt32.reduceToNat, Char.toNat_val, Bool.decide_and,
      Char.isLower, Char.isDigit, Bool.or_eq_true, Bool.and_eq_true, decide_eq_true_eq] at h
    omega
  · decide

theorem toLower_of_isAlphanum {c : Char} (h : c.isAlphanum = true ∨ c = '-') :
    (c.toLower.isAlphanum = true ∨ c.toLower = '-') ∧
      isVisible c.toLower = true ∧ c.toLower ≠ ',' ∧ c.toLower ≠ ';' := by
  have hascii : ∀ n : Fin 128, (Char.ofNat n).isAlphanum = true ∨ Char.ofNat n = '-' →
      ((Char.ofNat n).toLower.isAlphanum = true ∨ (Char.ofNat n).toLower = '-') ∧
        isVisible (Char.ofNat n).toLower = true ∧ (Char.ofNat n).toLower ≠ ',' ∧
          (Char.ofNat n).toLower ≠ ';' := by decide
  have hc := hascii ⟨c.toNat, toNat_lt_of_isAlphanum h⟩
  rw [Char.ofNat_toNat] at hc
  exact hc h

theorem isToken_of_isValueToken {w : Word} (hne : w ≠ []) (h : isValueToken w = true) :
    IsToken w := by
  simp only [isValueToken, all_eq_true, Bool.and_eq_true, decide_eq_true_eq] at h
  exact ⟨hne, fun c hc ↦ (h c hc).1.1, fun hmem ↦ (h _ hmem).1.2 rfl, fun hmem ↦ (h _ hmem).2 rfl⟩

theorem isToken_asciiLower {w : Word} (h : isDirectiveName w = true) : IsToken (asciiLower w) := by
  simp only [isDirectiveName, Bool.and_eq_true, decide_eq_true_eq, all_eq_true,
    Bool.or_eq_true] at h
  obtain ⟨hne, hchars⟩ := h
  have hlower : ∀ c ∈ asciiLower w, isVisible c = true ∧ c ≠ ',' ∧ c ≠ ';' := by
    intro c hc
    obtain ⟨d, hd, rfl⟩ := mem_map.mp hc
    exact (toLower_of_isAlphanum (hchars d hd)).2
  exact ⟨fun h ↦ hne (map_eq_nil_iff.mp h), fun c hc ↦ (hlower c hc).1,
    fun hmem ↦ (hlower _ hmem).2.1 rfl, fun hmem ↦ (hlower _ hmem).2.2 rfl⟩

def PlainMap (ds : Directives) : Prop :=
  ∀ name sources, ds.lookup name = some sources → (⟨name, sources⟩ : Csp.Directive).Plain

theorem plainMap_parseDirective {out : Merging} (h : PlainMap out.directives) (raw : List Char) :
    PlainMap (parseDirective out raw).directives := by
  unfold parseDirective
  split
  · exact h
  · rename_i written tokens hwords
    have htoken : ∀ w ∈ written :: tokens, w ≠ [] := fun w hw ↦ (of_mem_words (hwords ▸ hw)).1
    split
    · exact h
    · rename_i hname
      dsimp only
      split
      · exact h
      · split
        · exact h
        · intro name sources hlookup
          change AList.lookup name (out.directives.insert (asciiLower written) _) = _ at hlookup
          by_cases heq : name = asciiLower written
          · subst heq
            rw [AList.lookup_insert] at hlookup
            rw [← Option.some.inj hlookup]
            refine ⟨isToken_asciiLower (by simpa using hname), asciiLower_asciiLower _, fun s hs ↦ ?_⟩
            obtain ⟨hmem, hvalue⟩ := mem_filter.mp hs
            exact isToken_of_isValueToken (htoken s (mem_cons_of_mem _ hmem)) hvalue
          · rw [AList.lookup_insert_ne heq] at hlookup
            exact h name sources hlookup

theorem plainMap_parse (input : List Char) (refused : List Refusal) :
    PlainMap (parse input refused).directives := by
  have hfold : ∀ (pieces : List (List Char)) (out : Merging), PlainMap out.directives →
      PlainMap (pieces.foldl parseDirective out).directives := by
    intro pieces
    induction pieces with
    | nil => exact fun _ h ↦ h
    | cons piece pieces ih => exact fun out h ↦ ih _ (plainMap_parseDirective h piece)
  exact hfold _ _ fun name sources h ↦ absurd h (by simp [AList.lookup_empty])

/-! ## Merging -/

theorem eqIgnoreAsciiCase_trans {t u : Word} (hst : eqIgnoreAsciiCase s t = true)
    (htu : eqIgnoreAsciiCase t u = true) : eqIgnoreAsciiCase s u = true :=
  decide_eq_true ((of_decide_eq_true hst).trans (of_decide_eq_true htu))

theorem mem_addSource {l : List Word} {source : Word} (h : s ∈ addSource l source) :
    s ∈ l ∨ s = source := by
  unfold addSource at h
  split at h
  · exact .inl h
  · split at h
    · split at h
      · exact .inr (mem_singleton.mp h)
      · exact .inl h
    · exact (mem_append.mp h).imp mem_of_mem_filter mem_singleton.mp

theorem mem_foldl_addSource {accepted l : List Word} (h : s ∈ accepted.foldl addSource l) :
    s ∈ l ∨ s ∈ accepted := by
  induction accepted generalizing l with
  | nil => exact .inl h
  | cons a accepted ih =>
    rcases ih h with h | h
    · exact (mem_addSource h).imp_right fun heq ↦ mem_cons.mpr (.inl heq)
    · exact .inr (mem_cons_of_mem a h)

/-- What is left of a list after narrowing was in it, or in the operator's list, or means
"nothing". -/
theorem mem_narrow {base sources : List Word} (h : s ∈ narrow base sources) :
    s = noneSource ∨ s ∈ sources ∨ s ∈ base := by
  unfold narrow at h
  dsimp only at h
  split at h
  · exact .inl (mem_singleton.mp h)
  · split at h
    · exact .inr (.inl (mem_of_mem_filter h))
    · exact .inr (.inr h)

theorem OnlySelfOrNone.narrow {base : List Word} (h : OnlySelfOrNone base) (sources : List Word) :
    OnlySelfOrNone (SecurityHeaders.narrow base sources) := by
  unfold SecurityHeaders.narrow
  dsimp only
  split
  · exact ⟨cons_ne_nil _ _, .inr (forall_mem_singleton.mpr (by decide))⟩
  · rename_i hnone
    split
    · rename_i hkept
      refine ⟨hkept, .inl fun s hs ↦ ?_⟩
      have hsnone : isNone s = false :=
        Bool.eq_false_iff.mpr fun h ↦ hnone (any_eq_true.mpr ⟨s, hs, h⟩)
      have hknown := (mem_filter.mp hs).2
      rw [hsnone, Bool.false_or] at hknown
      obtain ⟨b, hb, heq⟩ := any_eq_true.mp hknown
      have hsb : eqIgnoreAsciiCase s b = true :=
        decide_eq_true (of_decide_eq_true heq).symm
      rcases h.2 with hself | hnone
      · exact eqIgnoreAsciiCase_trans hsb (hself b hb)
      · -- a kept source that is not `'none'` is not in a list of nothing but that
        have hcontra : isNone s = true := eqIgnoreAsciiCase_trans hsb (hnone b hb)
        rw [hsnone] at hcontra
        cases hcontra
    · exact h

/-- The promise, kept by a map of directives before `frame-ancestors` and the workers are set. -/
structure MapFloor (ds : Directives) : Prop where
  each : ∀ name sources, ds.lookup name = some sources → DirectiveFloor .none false ⟨name, sources⟩
  present : ∀ b ∈ baseline, b.name ∈ ds

theorem MapFloor.insert {ds : Directives} (h : MapFloor ds) {name : Word} {sources : List Word}
    (hd : DirectiveFloor .none false ⟨name, sources⟩) : MapFloor (ds.insert name sources) := by
  refine ⟨fun name' sources' hlookup ↦ ?_, fun b hb ↦ AList.mem_insert _ |>.mpr (.inr (h.present b hb))⟩
  by_cases heq : name' = name
  · subst heq
    rw [AList.lookup_insert] at hlookup
    exact Option.some.inj hlookup ▸ hd
  · rw [AList.lookup_insert_ne heq] at hlookup
    exact h.each name' sources' hlookup

section

variable {sameOrigin : Word → Bool} {m : Merging}

theorem mapFloor_addDirective (h : MapFloor m.directives) (hd : d.Plain)
    (hframe : d.name ≠ frameAncestorsDirective) (hnarrow : d.name ∉ narrowOnlyDirectives) :
    MapFloor (addDirective sameOrigin m d.name d.sources).directives := by
  unfold addDirective
  dsimp only
  split
  · exact h
  · split
    · exact h
    · refine h.insert ?_
      -- every source was in the list before, or has passed the rule of the directive
      have hsource : ∀ s ∈ (d.sources.filter fun source ↦
          sourceRule sameOrigin d.name source = none).foldl addSource
            ((m.directives.lookup d.name).getD []),
          (∃ sources, m.directives.lookup d.name = some sources ∧ s ∈ sources) ∨
            s ∈ d.sources ∧ sourceRule sameOrigin d.name s = none := by
        intro s hs
        rcases mem_foldl_addSource hs with hs | hs
        · rcases hlookup : m.directives.lookup d.name with _ | sources
          · rw [hlookup] at hs
            exact absurd hs not_mem_nil
          · rw [hlookup] at hs
            exact .inl ⟨sources, rfl, hs⟩
        · obtain ⟨hmem, hrule⟩ := mem_filter.mp hs
          exact .inr ⟨hmem, of_decide_eq_true hrule⟩
      refine ⟨⟨hd.name, hd.lower, fun s hs ↦ ?_⟩, fun heq ↦ absurd heq hframe,
        fun hmem ↦ absurd hmem hnarrow, fun hscript s hs ↦ ?_, fun hreport s hs ↦ ?_⟩
      · rcases hsource s hs with ⟨sources, hlookup, hs⟩ | ⟨hs, -⟩
        · exact (h.each _ _ hlookup).plain.sources s hs
        · exact hd.sources s hs
      · rcases hsource s hs with ⟨sources, hlookup, hs⟩ | ⟨-, hrule⟩
        · exact (h.each _ _ hlookup).script hscript s hs
        · rw [sourceRule, if_pos hscript] at hrule
          exact .inr (.inl (admitted_of_scriptSourceRefusal hrule))
      · rcases hsource s hs with ⟨sources, hlookup, hs⟩ | ⟨hs, hrule⟩
        · exact (h.each _ _ hlookup).report hreport s hs
        · have hreport' : d.name = reportUriDirective := hreport
          rw [sourceRule, hreport', if_neg (by decide), if_neg (by decide), if_pos rfl] at hrule
          exact staysOnOrigin_of_reportUriRefusal (hd.sources s hs).visible hrule

/-- **The step lemma.** Merging a directive keeps the promise. -/
theorem mapFloor_mergeDirective (h : MapFloor m.directives) (hd : d.Plain) :
    MapFloor (mergeDirective sameOrigin m d).directives := by
  unfold mergeDirective
  split
  · exact h
  · rename_i hframe
    split
    · rename_i hnarrow
      split
      · rename_i base hlookup
        have hbase := h.each _ _ hlookup
        refine h.insert ⟨⟨hd.name, hd.lower, fun s hs ↦ ?_⟩, fun heq ↦ absurd heq hframe,
          fun hmem ↦ (hbase.navigation hmem).narrow _, fun hscript ↦ ?_, fun hreport ↦ ?_⟩
        · rcases mem_narrow hs with rfl | hs | hs
          · decide
          · exact hd.sources s hs
          · exact hbase.plain.sources s hs
        · exact absurd hscript ((by decide : ∀ n ∈ narrowOnlyDirectives, n ∉ scriptDirectives) _ hnarrow)
        · exact absurd hreport ((by decide : ∀ n ∈ narrowOnlyDirectives, n ≠ reportUriDirective) _ hnarrow)
      · rename_i hlookup
        -- the baseline has the directive, so it is in the map
        obtain ⟨b, hb, hname⟩ := exists_baseline_of_narrowOnly hnarrow
        exact absurd (hname ▸ h.present b hb) (AList.lookup_eq_none.mp hlookup)
    · rename_i hnarrow
      exact mapFloor_addDirective h hd hframe hnarrow

end

theorem mem_inOrder {ds : Directives} : d ∈ ds.inOrder ↔ ds.lookup d.name = some d.sources := by
  rw [Directives.inOrder, mem_insertionSort, mem_map]
  constructor
  · rintro ⟨entry, hentry, rfl⟩
    exact AList.mem_lookup_iff.mpr hentry
  · exact fun h ↦ ⟨⟨d.name, d.sources⟩, AList.mem_lookup_iff.mp h, rfl⟩

theorem nodup_inOrder (ds : Directives) : (ds.inOrder.map (·.name)).Nodup := by
  have hperm : (ds.inOrder.map (·.name)).Perm ds.keys := by
    refine ((perm_insertionSort _ _).map _).trans ?_
    rw [map_map]
    exact .refl _
  exact hperm.nodup_iff.mpr ds.keys_nodup

theorem MapFloor.inOrder {ds : Directives} (h : MapFloor ds) :
    PolicyFloor .none false ds.inOrder := by
  refine ⟨fun d hd ↦ h.each _ _ (mem_inOrder.mp hd), nodup_inOrder ds, fun b hb ↦ ?_⟩
  obtain ⟨sources, hlookup⟩ := Option.isSome_iff_exists.mp (AList.lookup_isSome.mpr (h.present b hb))
  exact mem_map.mpr ⟨⟨b.name, sources⟩, mem_inOrder.mpr hlookup, rfl⟩

theorem mapFloor_defaultCsp : MapFloor (parse defaultCsp []).directives := by
  refine ⟨fun name sources hlookup ↦ directiveFloor_of_mem_baseline ?_, fun b hb ↦ ?_⟩
  · have hmem := mem_map_of_mem (f := fun entry : Sigma fun _ : Word ↦ List Word ↦
      (⟨entry.1, entry.2⟩ : Csp.Directive)) (AList.mem_lookup_iff.mp hlookup)
    rw [parse_defaultCsp] at hmem
    exact mem_reverse.mp hmem
  · have hmem := mem_reverse.mpr hb
    rw [← parse_defaultCsp] at hmem
    obtain ⟨entry, hentry, rfl⟩ := mem_map.mp hmem
    exact AList.mem_keys.mpr (mem_map_of_mem hentry)

theorem exists_policyFloor_mergeCsp (sameOrigin : Word → Bool) (custom : List Char) :
    ∃ ds, PolicyFloor .none false ds ∧
      (mergeCsp sameOrigin defaultCsp custom).policy = Csp.print ds := by
  have hfold : ∀ (offered : List Csp.Directive) (m : Merging), (∀ d ∈ offered, d.Plain) →
      MapFloor m.directives → MapFloor (offered.foldl (mergeDirective sameOrigin) m).directives := by
    intro offered
    induction offered with
    | nil => exact fun _ _ h ↦ h
    | cons d offered ih =>
      intro m hplain h
      obtain ⟨hd, hplain⟩ := forall_mem_cons.mp hplain
      exact ih _ hplain (mapFloor_mergeDirective h hd)
  have hbase := mapFloor_defaultCsp
  unfold mergeCsp
  generalize parse defaultCsp [] = base at hbase ⊢
  have hoffered : ∀ d ∈ (parse custom base.refused).directives.inOrder, d.Plain :=
    fun d hd ↦ plainMap_parse custom _ _ _ (mem_inOrder.mp hd)
  let start : Merging := ⟨base.directives, (parse custom base.refused).refused⟩
  exact ⟨_, (hfold _ start hoffered hbase).inOrder, serialize_eq_print _⟩

/-! ## Rewriting the text -/

theorem directiveOf_print (h : d.Plain) : directiveOf d.print = d := by
  rw [directiveOf, h.words_print]

theorem withBlobWorkers_print (h : ∀ d ∈ ds, d.Plain) :
    withBlobWorkers (Csp.print ds) = Csp.print (addBlob ds) := by
  have hpieces : (((Csp.print ds).splitOn ';').map trim).filter (· ≠ []) =
      ds.map Csp.Directive.print := Csp.pieces_print h
  have hback : (ds.map Csp.Directive.print).map directiveOf = ds := by
    rw [map_map]
    exact (map_congr_left fun d hd ↦ directiveOf_print (h d hd)).trans (map_id ds)
  unfold withBlobWorkers
  dsimp only
  rw [hpieces, hback, Csp.print]
  exact congrArg _ (map_congr_left fun d _ ↦ (print_eq_ite d).symm)

/-- Set the sources of a directive if it is `frame-ancestors`. -/
def setFrameAncestors (fa : FrameAncestors) (d : Csp.Directive) : Csp.Directive :=
  if d.name = frameAncestorsDirective then ⟨frameAncestorsDirective, [fa.cspSource]⟩ else d

theorem withFrameAncestors_print (h : ∀ d ∈ ds, d.Plain) (fa : FrameAncestors) :
    withFrameAncestors (Csp.print ds) fa = Csp.print (ds.map (setFrameAncestors fa)) := by
  have hpieces : (((Csp.print ds).splitOn ';').map trim).filter (· ≠ []) =
      ds.map Csp.Directive.print := Csp.pieces_print h
  unfold withFrameAncestors
  rw [hpieces, Csp.print, map_map, map_map]
  refine congrArg _ (map_congr_left fun d hd ↦ ?_)
  simp only [Function.comp_apply, (h d hd).words_print, List.head?_cons, Option.some.injEq,
    setFrameAncestors]
  split
  · rcases fa with _ | _ <;> rfl
  · rfl

theorem DirectiveFloor.allowBlob (h : DirectiveFloor .none false d) : DirectiveFloor .none true d :=
  { h with
    script := fun hscript s hs ↦
      (h.script hscript s hs).imp_right fun h ↦ h.imp_right fun h ↦ ⟨h.1, rfl, h.2.2⟩ }

theorem directiveFloor_workerSrc {sources : List Word} (htoken : ∀ s ∈ sources, IsToken s)
    (h : ∀ s ∈ sources, ScriptSource true workerSrcDirective s) :
    DirectiveFloor .none true ⟨workerSrcDirective, sources ++ [blobSource]⟩ := by
  have hframe : workerSrcDirective ≠ frameAncestorsDirective := by decide
  have hnarrow : workerSrcDirective ∉ narrowOnlyDirectives := by decide
  have hreport : workerSrcDirective ≠ reportUriDirective := by decide
  have hplain : IsToken workerSrcDirective ∧ asciiLower workerSrcDirective = workerSrcDirective := by decide
  refine ⟨⟨hplain.1, hplain.2, fun s hs ↦ ?_⟩, fun heq ↦ absurd heq hframe,
    fun hmem ↦ absurd hmem hnarrow, fun _ s hs ↦ ?_, fun heq ↦ absurd heq hreport⟩
  · rcases mem_append.mp hs with hs | hs
    · exact htoken s hs
    · rw [mem_singleton.mp hs]
      decide
  · rcases mem_append.mp hs with hs | hs
    · exact h s hs
    · exact .inr (.inr ⟨rfl, rfl, mem_singleton.mp hs⟩)

theorem scriptSource_of_fallback {name : Word} (hname : name ∈ workerFallbacks)
    (h : ScriptSource false name s) : ScriptSource true workerSrcDirective s := by
  have hbaseline : ∀ n ∈ workerFallbacks, ∀ s ∈ baselineSources n, scriptSourceRefusal s = none := by
    unfold baselineSources
    rw [baseline_eq]
    decide
  rcases h with h | h | ⟨-, h, -⟩
  · exact .inr (.inl (admitted_of_scriptSourceRefusal (hbaseline name hname s h)))
  · exact .inr (.inl h)
  · cases h

theorem DirectiveFloor.withBlob {d : Csp.Directive} (h : DirectiveFloor .none false d)
    (hname : d.name = workerSrcDirective) : DirectiveFloor .none true
      (if blobSource ∈ d.sources then d else { d with sources := d.sources ++ [blobSource] }) := by
  split
  · exact h.allowBlob
  · rw [show d = ⟨workerSrcDirective, d.sources⟩ from hname ▸ rfl]
    exact directiveFloor_workerSrc h.plain.sources fun s hs ↦
      hname ▸ h.allowBlob.script (by rw [hname]; decide) s hs

theorem PolicyFloor.fallbackSources (h : PolicyFloor .none false ds) :
    ∀ s ∈ (workerFallbacks.findSome? fun name ↦
      (ds.find? (·.name = name)).map (·.sources)).getD [],
        IsToken s ∧ ScriptSource true workerSrcDirective s := by
  intro s hs
  rcases hfallback : workerFallbacks.findSome? fun name ↦
    (ds.find? (·.name = name)).map (·.sources) with _ | sources
  · rw [hfallback] at hs
    exact absurd hs not_mem_nil
  · rw [hfallback] at hs
    obtain ⟨name, hname, hlookup⟩ := List.exists_of_findSome?_eq_some hfallback
    obtain ⟨d, hfound, rfl⟩ := Option.map_eq_some_iff.mp hlookup
    have hdname := List.find?_some hfound
    obtain rfl := of_decide_eq_true hdname
    have hd := h.each d (List.mem_of_find?_eq_some hfound)
    have hscript : d.name ∈ scriptDirectives :=
      (by decide : ∀ n ∈ workerFallbacks, n ∈ scriptDirectives) _ hname
    exact ⟨hd.plain.sources s hs, scriptSource_of_fallback hname (hd.script hscript s hs)⟩

theorem PolicyFloor.addBlob (h : PolicyFloor .none false ds) :
    PolicyFloor .none true (SecurityHeaders.addBlob ds) := by
  unfold SecurityHeaders.addBlob
  dsimp only
  split
  · rename_i i hfind
    obtain ⟨hlt, hname, -⟩ := List.findIdx?_eq_some_iff_getElem.mp hfind
    obtain ⟨l₁, d, l₂, hds, hlen, hmodify⟩ := exists_of_modify (fun d : Csp.Directive ↦
      if blobSource ∈ d.sources then d else { d with sources := d.sources ++ [blobSource] }) hlt
    have hname : d.name = workerSrcDirective := by
      have hget : ds[i] = d := by simp [hds, ← hlen]
      exact hget ▸ of_decide_eq_true hname
    rw [hmodify]
    have hd := (h.each d (hds ▸ by simp)).withBlob hname
    have hnames : (if blobSource ∈ d.sources then d
        else { d with sources := d.sources ++ [blobSource] }).name = d.name := by
      split <;> rfl
    generalize (if blobSource ∈ d.sources then d
      else { d with sources := d.sources ++ [blobSource] }) = d' at hd hnames ⊢
    have hmap : (l₁ ++ d' :: l₂).map (·.name) = ds.map (·.name) := by
      rw [hds, map_append, map_append, map_cons, map_cons, hnames]
    refine ⟨fun e he ↦ ?_, hmap ▸ h.once, fun b hb ↦ hmap ▸ h.present b hb⟩
    rcases mem_append.mp he with he | he
    · exact (h.each e (hds ▸ mem_append_left _ he)).allowBlob
    · rcases mem_cons.mp he with rfl | he
      · exact hd
      · exact (h.each e (hds ▸ mem_append_right _ (mem_cons_of_mem d he))).allowBlob
  · rename_i hfind
    have hnone : workerSrcDirective ∉ ds.map (·.name) := by
      intro hmem
      obtain ⟨d, hd, hname⟩ := mem_map.mp hmem
      have := List.findIdx?_eq_none_iff.mp hfind d hd
      exact absurd hname (of_decide_eq_false this)
    refine ⟨fun e he ↦ ?_, ?_, fun b hb ↦ ?_⟩
    · rcases mem_append.mp he with he | he
      · exact (h.each e he).allowBlob
      · rw [mem_singleton.mp he]
        exact directiveFloor_workerSrc (fun s hs ↦ (h.fallbackSources s hs).1)
          fun s hs ↦ (h.fallbackSources s hs).2
    · rw [map_append, map_singleton, ← concat_eq_append]
      exact h.once.concat hnone
    · rw [map_append]
      exact mem_append_left _ (h.present b hb)

theorem PolicyFloor.setFrameAncestors (h : PolicyFloor .none blobWorkers ds) (fa : FrameAncestors) :
    PolicyFloor fa blobWorkers (ds.map (SecurityHeaders.setFrameAncestors fa)) := by
  have hnames : (ds.map (SecurityHeaders.setFrameAncestors fa)).map (·.name) =
      ds.map (·.name) := by
    rw [map_map]
    refine map_congr_left fun d _ ↦ ?_
    rw [Function.comp_apply, SecurityHeaders.setFrameAncestors]
    split
    · rename_i hname
      exact hname.symm
    · rfl
  have hnarrow : frameAncestorsDirective ∉ narrowOnlyDirectives := by decide
  have hscript : frameAncestorsDirective ∉ scriptDirectives := by decide
  have hreport : frameAncestorsDirective ≠ reportUriDirective := by decide
  refine ⟨fun e he ↦ ?_, hnames ▸ h.once, fun b hb ↦ hnames ▸ h.present b hb⟩
  obtain ⟨d, hd, rfl⟩ := mem_map.mp he
  rw [SecurityHeaders.setFrameAncestors]
  split
  · refine ⟨?_, fun _ ↦ rfl, fun hmem ↦ absurd hmem hnarrow, fun hmem ↦ absurd hmem hscript,
      fun heq ↦ absurd heq hreport⟩
    rcases fa with _ | _ <;> decide
  · rename_i hname
    exact { h.each d hd with frameAncestors := fun heq ↦ absurd heq hname }

/-! ## The block -/

theorem cspFloor_defaultCsp : CspFloor .none false defaultCsp := by
  have hprint : defaultCsp = Csp.print baseline := by rw [baseline_eq, defaultCsp_eq_print]
  rw [hprint]
  refine cspFloor_print ⟨fun d hd ↦ directiveFloor_of_mem_baseline hd, ?_,
    fun b hb ↦ mem_map_of_mem hb⟩
  rw [baseline_eq]
  decide

namespace SecurityHeadersBlock

variable (X : Externals)

theorem cspFloor_composeCsp (config : BlockConfig) (blobWorkers : Bool) (fa : FrameAncestors) :
    CspFloor fa blobWorkers (composeCsp X config blobWorkers fa) := by
  obtain ⟨ds, h, hpolicy⟩ :=
    exists_policyFloor_mergeCsp X.sameOrigin (config.strOr "csp" "").toList
  unfold composeCsp
  dsimp only
  rw [hpolicy]
  rcases blobWorkers with _ | _
  · rw [if_neg (by decide), withFrameAncestors_print h.plain]
    exact cspFloor_print (h.setFrameAncestors fa)
  · rw [if_pos rfl, withBlobWorkers_print h.plain, withFrameAncestors_print h.addBlob.plain]
    exact cspFloor_print (h.addBlob.setFrameAncestors fa)

def settingsOf (event : LifecycleEvent) : Option (FrameAncestors × Bool) :=
  if event.eventType = .init then
    let config := BlockConfig.fromEvent X.fromSlice event
    match allowBlobWorkers config, checkCspCharacters X.debug (config.strOr "csp" "").toList with
    | .ok blobWorkers, .ok () => some (frameAncestorsOf config, blobWorkers)
    | _, _ => none
  else none

theorem lifecycle_of_settingsOf {event : LifecycleEvent} {fa : FrameAncestors}
    (h : settingsOf X event = some (fa, blobWorkers)) (block : SecurityHeadersBlock) :
    ∃ config, (block.step X event).csp =
      (block.csp <|> some (composeCsp X config blobWorkers fa)) := by
  unfold settingsOf at h
  split at h
  · rename_i hinit
    dsimp only at h
    split at h
    · rename_i hblob hcheck
      obtain ⟨rfl, rfl⟩ := Prod.mk.inj (Option.some.inj h)
      refine ⟨BlockConfig.fromEvent X.fromSlice event, ?_⟩
      unfold step lifecycle
      rw [if_pos hinit]
      dsimp only
      rw [hblob, hcheck]
      rfl
    · cases h
  · cases h

theorem step_of_settingsOf_eq_none {event : LifecycleEvent} (h : settingsOf X event = none)
    (block : SecurityHeadersBlock) : block.step X event = block := by
  unfold settingsOf at h
  unfold step lifecycle
  split at h
  · rename_i hinit
    rw [if_pos hinit]
    dsimp only at h ⊢
    rcases hblob : allowBlobWorkers (BlockConfig.fromEvent X.fromSlice event) with err | blobWorkers
    · rfl
    · rcases hcheck : checkCspCharacters X.debug
        ((BlockConfig.fromEvent X.fromSlice event).strOr "csp" "").toList with err | ⟨⟩
      · rfl
      · rw [hblob, hcheck] at h
        cases h
  · rename_i hinit
    rw [if_neg hinit]

def Configured : Option (FrameAncestors × Bool) → SecurityHeadersBlock → Prop
  | none, block => block.csp = none
  | some (fa, blobWorkers), block => ∃ policy, block.csp = some policy ∧
      CspFloor fa blobWorkers policy

theorem configured_step {settings : Option (FrameAncestors × Bool)} {block : SecurityHeadersBlock}
    (h : Configured settings block) (event : LifecycleEvent) :
    Configured (settings <|> settingsOf X event) (block.step X event) := by
  rcases hevent : settingsOf X event with _ | ⟨fa, blobWorkers⟩
  · rw [step_of_settingsOf_eq_none X hevent]
    rcases settings with _ | settings <;> exact h
  · obtain ⟨config, hcsp⟩ := lifecycle_of_settingsOf X hevent block
    rcases settings with _ | settings
    · refine ⟨_, ?_, cspFloor_composeCsp X config blobWorkers fa⟩
      have hnone : block.csp = none := h
      rw [hcsp, hnone]
      rfl
    · -- the policy is written once
      obtain ⟨policy, hsome, hpolicy⟩ := h
      refine ⟨policy, ?_, hpolicy⟩
      rw [hcsp, hsome]
      rfl

theorem configured_run (events : List LifecycleEvent) :
    Configured (events.findSome? (settingsOf X)) (run X events new) := by
  have hrun : ∀ (events : List LifecycleEvent) settings block, Configured settings block →
      Configured (settings <|> events.findSome? (settingsOf X)) (run X events block) := by
    intro events
    induction events with
    | nil =>
      intro settings block h
      rcases settings with _ | settings <;> exact h
    | cons event events ih =>
      intro settings block h
      have hnext := ih _ _ (configured_step X h event)
      rw [List.findSome?_cons]
      rcases settings with _ | settings
      · rcases hevent : settingsOf X event with _ | configured <;> rw [hevent] at hnext <;>
          exact hnext
      · exact hnext
  exact hrun events none new rfl

theorem getMeta_handle (block : SecurityHeadersBlock) (msg : Message) :
    getMeta (block.handle msg) "resp.header.Content-Security-Policy" =
      String.ofList block.effectiveCsp := by
  unfold handle
  dsimp only
  split
  · iterate 4 rw [getMeta_setMeta_of_ne _ _ (by decide)]
    rw [getMeta_setMeta]
  · iterate 2 rw [getMeta_setMeta_of_ne _ _ (by decide)]
    rw [getMeta_setMeta]

/-- **An operator's policy cannot open the policy for script.** Whatever events the block has seen,
the policy it sends keeps the promise for what the first accepted configuration sets, or for the
defaults if there was none. -/
theorem cspFloor_handle_run (events : List LifecycleEvent) (msg : Message) :
    let settings := (events.findSome? (settingsOf X)).getD (.none, false)
    CspFloor settings.1 settings.2
      (getMeta ((run X events new).handle msg) "resp.header.Content-Security-Policy").toList := by
  have h := configured_run X events
  rw [getMeta_handle, String.toList_ofList, effectiveCsp]
  rcases hsettings : events.findSome? (settingsOf X) with _ | ⟨fa, blobWorkers⟩ <;>
    rw [hsettings] at h
  · have hnone : (run X events new).csp = none := h
    rw [hnone]
    exact cspFloor_defaultCsp
  · obtain ⟨policy, hsome, hpolicy⟩ := h
    rw [hsome]
    exact hpolicy

end SecurityHeadersBlock

end WaferRun.SecurityHeaders
