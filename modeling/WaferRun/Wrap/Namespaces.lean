import WaferRun.Block.Output
import WaferRun.Wrap.Ownership

/-!
# The namespace of a block

A block's resources begin with its name spelled with underscores, `{org}__{block}__`. The owner of
any such resource is read back as that block (`resourceOwner_resourcePrefix`): a segment has no
underscore and neither two hyphens in a row nor one at its end, so the first two double underscores
are those of the prefix.

Within a namespace, a model is named `{backend}/{model}` and an operation by its name.
-/

open List

namespace WaferRun

open Text

def resourcePrefix (blockId : String) : String :=
  String.ofList (replaceChar '-' ['_'] (replaceChar '/' separator blockId.toList) ++ separator)

def modelResource (block backendId modelId : String) : Except WaferError String :=
  if '/' ∈ backendId.toList then
    .error (.new .invalidArgument ("backend_id `" ++ backendId ++ "` must not contain `/`"))
  else .ok (resourcePrefix block ++ backendId ++ "/" ++ modelId)

def opName (op : String) : String :=
  match splitOnce ['.'] op.toList with
  | some (_, name) => String.ofList name
  | none => op

def opResource (block op : String) : String := resourcePrefix block ++ opName op

/-! ## Reading a prefix back -/

def underscored (c : Char) : Char := if c = '-' then '_' else c

theorem dashed_underscored {c : Char} (h : isSegmentChar c = true) :
    dashed (underscored c) = c := by
  unfold underscored
  split
  · rename_i hc
    rw [hc]
    rfl
  · have hne : c ≠ '_' := by
      rintro rfl
      exact absurd h (by decide)
    exact if_neg hne

theorem underscored_eq_underscore {c : Char} (h : isSegmentChar c = true)
    (heq : underscored c = '_') : c = '-' := by
  have hback := dashed_underscored h
  rw [heq] at hback
  exact hback.symm

theorem replaceChar_hyphen (s : List Char) : replaceChar '-' ['_'] s = s.map underscored := by
  rw [replaceChar, ← List.flatMap_singleton' (s.map underscored), flatMap_map]
  refine flatMap_congr fun c _ ↦ ?_
  unfold underscored
  split <;> rfl

theorem IsSegment.replaceChar_slash {s : List Char} (h : IsSegment s) :
    replaceChar '/' separator s = s := by
  rw [replaceChar]
  conv_rhs => rw [← List.flatMap_singleton' s]
  refine flatMap_congr fun c hc ↦ if_neg ?_
  rintro rfl
  exact h.slash_not_mem hc

theorem toList_resourcePrefix {blockId : String} {org block : List Char}
    (hname : blockId.toList = org ++ '/' :: block) (horg : IsSegment org)
    (hblock : IsSegment block) :
    (resourcePrefix blockId).toList =
      org.map underscored ++ separator ++ (block.map underscored ++ separator) := by
  have hslash : replaceChar '/' separator (org ++ '/' :: block) = org ++ separator ++ block := by
    rw [replaceChar, flatMap_append, flatMap_cons, if_pos rfl, ← replaceChar,
      ← replaceChar, horg.replaceChar_slash, hblock.replaceChar_slash, append_assoc]
  have hseparator : separator.map underscored = separator := rfl
  rw [resourcePrefix, String.toList_ofList, hname, hslash, replaceChar_hyphen, map_append,
    map_append, hseparator, append_assoc, append_assoc]

theorem splitOnce_segment {s : List Char} (hchars : ∀ c ∈ s, isSegmentChar c = true)
    (hdouble : splitOnce ['-', '-'] s = none) (hlast : s.getLast? ≠ some '-') (t : List Char) :
    splitOnce separator (s.map underscored ++ (separator ++ t)) = some (s.map underscored, t) := by
  induction s with
  | nil => exact splitOnce_of_isPrefix (prefix_append separator t)
  | cons c s ih =>
    have hc := hchars c mem_cons_self
    have hdouble' : ¬['-', '-'] <+: c :: s := by
      intro hprefix
      rw [splitOnce_of_isPrefix hprefix] at hdouble
      exact absurd hdouble nofun
    have hnot : ¬separator <+: underscored c :: (s.map underscored ++ (separator ++ t)) := by
      intro hprefix
      obtain ⟨hfirst, hrest⟩ := cons_prefix_cons.mp hprefix
      obtain rfl := underscored_eq_underscore hc hfirst.symm
      rcases s with - | ⟨d, s⟩
      · exact hlast rfl
      · have hd := hchars d (mem_cons_of_mem _ mem_cons_self)
        obtain ⟨hsecond, -⟩ := cons_prefix_cons.mp hrest
        obtain rfl := underscored_eq_underscore hd hsecond.symm
        exact hdouble' ⟨s, rfl⟩
    rw [map_cons, cons_append, splitOnce_cons_of_not_isPrefix hnot, ih]
    · rfl
    · exact fun d hd ↦ hchars d (mem_cons_of_mem c hd)
    · rw [splitOnce_cons_of_not_isPrefix hdouble'] at hdouble
      exact Option.map_eq_none_iff.mp hdouble
    · rcases s with - | ⟨d, s⟩
      · nofun
      · rwa [List.getLast?_cons_cons] at hlast

theorem decidedBy_resourcePrefix {blockId : String} (h : IsBlockName blockId) :
    DecidedBy (resourcePrefix blockId).toList blockId := by
  obtain ⟨org, block, hname, horg, hblock⟩ := h
  have hback {s : List Char} (hs : IsSegment s) : (s.map underscored).map dashed = s := by
    rw [map_map]
    conv_rhs => rw [← map_id s]
    exact map_congr_left fun c hc ↦ dashed_underscored (hs.chars c hc)
  refine ⟨org.map underscored, block.map underscored, toList_resourcePrefix hname horg hblock,
    ?_, ?_, ?_⟩
  · rw [toList_resourcePrefix hname horg hblock, append_assoc]
    exact splitOnce_segment horg.chars horg.no_double horg.not_last _
  · have hsplit := splitOnce_segment hblock.chars hblock.no_double hblock.not_last []
    rwa [append_nil] at hsplit
  · rw [hback horg, hback hblock, hname]

/-- **Whatever follows the prefix of a block, the block is the owner.** -/
theorem resourceOwner_resourcePrefix (U : CaseTables) {blockId : String} (h : IsBlockName blockId)
    (suffix : String) : resourceOwner U (resourcePrefix blockId ++ suffix) = some blockId := by
  have hdecided := decidedBy_resourcePrefix h
  refine resourceOwner_of_isPrefix hdecided ?_
  rw [String.toList_append]
  refine U.prefix_lower_append (fun c hc ↦ ?_) suffix.toList
  rcases hdecided.chars h hc with rfl | hsegment
  · decide
  · exact lower_of_isSegmentChar hsegment

theorem modelResource_ne_opResource {block backendId modelId resource op : String}
    (h : modelResource block backendId modelId = .ok resource)
    (hop : '/' ∉ (opName op).toList) : resource ≠ opResource block op := by
  unfold modelResource at h
  split at h
  · exact absurd h nofun
  · rintro rfl
    have hlist := congrArg String.toList (Except.ok.inj h)
    rw [opResource, String.toList_append, String.toList_append, String.toList_append,
      String.toList_append, append_assoc, append_assoc] at hlist
    refine hop (append_cancel_left hlist ▸ ?_)
    exact mem_append_right _ (mem_append_left _ mem_cons_self)

/-- **Namespaces are disjoint.** The owner of a resource with the prefix of a block is that block,
no resource has the prefixes of two blocks, and no operation of a block has the name of a model. -/
theorem namespaces_disjoint (U : CaseTables) :
    (∀ blockId, validateBlockName blockId = .ok () → ∀ suffix,
      resourceOwner U (resourcePrefix blockId ++ suffix) = some blockId) ∧
    (∀ blockId blockId', validateBlockName blockId = .ok () → validateBlockName blockId' = .ok () →
      blockId ≠ blockId' → ∀ resource : String,
        ¬((resourcePrefix blockId).toList <+: resource.toList ∧
          (resourcePrefix blockId').toList <+: resource.toList)) ∧
    ∀ block backendId modelId op resource, modelResource block backendId modelId = .ok resource →
      '/' ∉ (opName op).toList → resource ≠ opResource block op := by
  have howner {blockId : String} (h : validateBlockName blockId = .ok ()) (suffix : String) :=
    resourceOwner_resourcePrefix U (isBlockName_of_validateBlockName h) suffix
  refine ⟨fun blockId h ↦ howner h, ?_, fun _ _ _ _ _ h ↦ modelResource_ne_opResource h⟩
  rintro blockId blockId' h h' hne resource ⟨⟨t, ht⟩, ⟨t', ht'⟩⟩
  have hsplit {blockId : String} {t : List Char}
      (ht : (resourcePrefix blockId).toList ++ t = resource.toList) :
      resource = resourcePrefix blockId ++ String.ofList t := by
    rw [← String.toList_inj, String.toList_append, String.toList_ofList, ht]
  have hread := howner h (String.ofList t)
  have hread' := howner h' (String.ofList t')
  rw [← hsplit ht] at hread
  rw [← hsplit ht'] at hread'
  exact hne (Option.some.inj (hread.symm.trans hread'))

theorem namespaces_disjoint_acme :
    resourcePrefix "acme/my-files" = "acme__my_files__" ∧
      resourceOwner CaseTables.ascii (resourcePrefix "acme/my-files" ++ "_Users") =
        some "acme/my-files" ∧
      modelResource "acme/llm" "openai" "gpt" = .ok "acme__llm__openai/gpt" ∧
      "acme__llm__openai/gpt" ≠ opResource "acme/llm" "llm.list_models" :=
  ⟨by decide, (namespaces_disjoint .ascii).1 _ (by decide) _, by decide,
    (namespaces_disjoint .ascii).2.2 "acme/llm" "openai" "gpt" _ _ (by decide) (by decide)⟩

end WaferRun
