import WaferRun.Runtime.BlockName

/-!
# Who owns a resource

Resources carry their owner in their name. Storage paths spell it out, `{org}/{block}/...`. Every
other namespaced resource spells it with underscores, `{org}__{block}__...`, in any case, and the
owner is read off the lower-cased name up to the second double underscore.

## An owner is decided by a prefix

For the underscore spelling the text that decides the owner ends with the second double
underscore, for the slash spelling with the second slash. `resourceOwner_of_isPrefix` and
`storageResourceOwner_append` say that nothing after it matters. These two facts are what makes a
pattern with a literal beginning safe to grant.

Lower-casing is not local in general, since a capital sigma looks at what follows it. It is local
here because an owner that is a block name contains no sigma.
-/

open List

namespace WaferRun

open Text

/-- The kinds of resources a grant may be restricted to. -/
inductive ResourceType
  | db | config | storage | crypto | network | vector | auth | llm | image | embedding
deriving DecidableEq, Repr

def ResourceType.debug : ResourceType → String
  | .db => "Db" | .config => "Config" | .storage => "Storage" | .crypto => "Crypto"
  | .network => "Network" | .vector => "Vector" | .auth => "Auth" | .llm => "Llm"
  | .image => "Image" | .embedding => "Embedding"

/-- The separator between the segments of a namespaced resource. -/
def separator : List Char := ['_', '_']

/-- An underscore read back as a hyphen. -/
def dashed (c : Char) : Char := if c = '_' then '-' else c

variable (U : CaseTables)

/-- The owner of a resource named `{org}__{block}__{rest}`. -/
def resourceOwner (name : String) : Option String :=
  match splitOnce separator (U.lower name.toList) with
  | none => none
  | some (first, rest) =>
    match splitOnce separator rest with
    | none => none
    | some (second, _) =>
      some (String.ofList ((replace separator ['/'] (first ++ separator ++ second)).map dashed))

/-- The owner of a storage path `{org}/{block}/{rest}`. -/
def storageResourceOwner (path : String) : Option String :=
  match splitn '/' 3 path.toList with
  | org :: block :: _ =>
    if org = [] ∨ block = [] then none else some (String.ofList (org ++ '/' :: block))
  | _ => none

def isTraversalSafePath (path : String) : Bool :=
  !(path.toList.splitOn '/').any fun segment ↦
    segment = [] || segment = ['.'] || segment = ['.', '.'] || '\\' ∈ segment

def typedResourceOwner (resource : String) : Option ResourceType → Option String
  | some .storage => storageResourceOwner resource
  | _ => resourceOwner U resource

/-! ## The underscore spelling -/

variable {U}

theorem resourceOwner_eq_some {name owner : String} :
    resourceOwner U name = some owner ↔
      ∃ first rest second tail,
        splitOnce separator (U.lower name.toList) = some (first, rest) ∧
        splitOnce separator rest = some (second, tail) ∧
        owner.toList = first.map dashed ++ '/' :: second.map dashed := by
  have hne : separator ≠ [] := by decide
  constructor
  · intro h
    unfold resourceOwner at h
    split at h; · cases h
    next first rest h1 =>
      split at h; · cases h
      next second tail h2 =>
        refine ⟨first, rest, second, tail, h1, h2, ?_⟩
        rw [eq_of_splitOnce h1] at h1
        rw [← Option.some.inj h, String.toList_ofList,
          replace_append_of_splitOnce _ hne (splitOnce_append h1 second),
          replace_of_splitOnce_eq_none _ (splitOnce_left_eq_none hne h2), map_append,
          map_append, append_assoc]
        rfl
  · rintro ⟨first, rest, second, tail, h1, h2, h⟩
    unfold resourceOwner
    rw [h1]
    simp only [h2]
    rw [eq_of_splitOnce h1] at h1
    rw [replace_append_of_splitOnce _ hne (splitOnce_append h1 second),
      replace_of_splitOnce_eq_none _ (splitOnce_left_eq_none hne h2), map_append,
      map_append, append_assoc, Option.some.injEq, ← String.toList_inj,
      String.toList_ofList, h]
    rfl

structure DecidedBy (q : List Char) (owner : String) : Prop where
  exists_segments : ∃ first second, q = first ++ separator ++ (second ++ separator) ∧
    splitOnce separator q = some (first, second ++ separator) ∧
    splitOnce separator (second ++ separator) = some (second, []) ∧
    owner.toList = first.map dashed ++ '/' :: second.map dashed

theorem exists_decidedBy {name owner : String} (h : resourceOwner U name = some owner) :
    ∃ q, q <+: U.lower name.toList ∧ DecidedBy q owner := by
  obtain ⟨first, rest, second, tail, h1, h2, ho⟩ := resourceOwner_eq_some.mp h
  have hrest := eq_of_splitOnce h2
  have hlower := eq_of_splitOnce h1
  rw [hlower] at h1
  rw [hrest] at h2
  refine ⟨first ++ separator ++ (second ++ separator), ⟨tail, ?_⟩, first, second, rfl,
    splitOnce_append h1 _, ?_, ho⟩
  · rw [hlower, hrest, append_assoc (first ++ separator)]
  · have := splitOnce_append h2 []
    rwa [append_nil] at this

/-- **The owner is decided by a prefix** of the lower-cased name. -/
theorem resourceOwner_of_isPrefix {name owner : String} {q : List Char} (hq : DecidedBy q owner)
    (h : q <+: U.lower name.toList) : resourceOwner U name = some owner := by
  obtain ⟨first, second, rfl, h1, h2, ho⟩ := hq.exists_segments
  obtain ⟨tail, ht⟩ := h
  rw [← append_nil (second ++ separator)] at h2
  refine resourceOwner_eq_some.mpr ⟨first, second ++ separator ++ tail, second, tail, ?_, ?_, ho⟩
  · rw [← ht, append_assoc (first ++ separator)]
    exact splitOnce_append h1 _
  · exact splitOnce_append h2 tail

theorem dashed_eq_underscore_or {c : Char} (h : isSegmentChar (dashed c) = true) :
    c = '_' ∨ isSegmentChar c = true := by
  unfold dashed at h
  split at h
  · next hc => exact Or.inl hc
  · exact Or.inr h

theorem DecidedBy.chars {q : List Char} {owner : String} (hq : DecidedBy q owner)
    (ho : IsBlockName owner) {c : Char} (hc : c ∈ q) : c = '_' ∨ isSegmentChar c = true := by
  obtain ⟨first, second, rfl, -, -, h⟩ := hq.exists_segments
  obtain ⟨org, block, hn, horg, hblock⟩ := ho
  obtain ⟨rfl, rfl⟩ := segments_unique (h.symm.trans hn) horg hblock
  have hsep : ∀ {c : Char}, c ∈ separator → c = '_' := by simp [separator]
  rw [mem_append, mem_append, mem_append] at hc
  rcases hc with (hc | hc) | hc | hc
  · exact dashed_eq_underscore_or (horg.chars _ (mem_map_of_mem hc))
  · exact Or.inl (hsep hc)
  · exact dashed_eq_underscore_or (hblock.chars _ (mem_map_of_mem hc))
  · exact Or.inl (hsep hc)

theorem DecidedBy.not_mem {q : List Char} {owner : String} (hq : DecidedBy q owner)
    (ho : IsBlockName owner) {c : Char} (hc : c ≠ '_') (hs : isSegmentChar c = false) : c ∉ q := by
  intro hm
  rcases hq.chars ho hm with h | h
  · exact hc h
  · exact Bool.false_ne_true (hs.symm.trans h)

theorem resourceOwner_append {lit r owner : String} {t : List Char} (ho : IsBlockName owner)
    (h : resourceOwner U lit = some owner) (hr : r.toList = lit.toList ++ t) :
    resourceOwner U r = some owner := by
  obtain ⟨q, hq, hd⟩ := exists_decidedBy h
  refine resourceOwner_of_isPrefix hd ?_
  rw [hr]
  exact U.lower_prefix_append (hd.not_mem ho (by decide) (by decide))
    (hd.not_mem ho (by decide) (by decide)) t hq

theorem not_isBlockName_of_isPrefix_lower {r owner : String} {w : List Char} {c : Char}
    (hw : w <+: U.lower r.toList) (hu : '_' ∉ w) (hc : c ∈ w) (hs : isSegmentChar c = false)
    (h : resourceOwner U r = some owner) : ¬IsBlockName owner := by
  intro ho
  obtain ⟨q, hq, hd⟩ := exists_decidedBy h
  rcases prefix_or_prefix_of_prefix hq hw with hqw | hwq
  · have hmem : '_' ∈ q := by
      obtain ⟨first, second, rfl, -⟩ := hd.exists_segments
      simp [separator]
    exact hu (hqw.subset hmem)
  · exact hd.not_mem ho (fun h ↦ hu (h ▸ hc)) hs (hwq.subset hc)

/-! ## The slash spelling -/

theorem storageResourceOwner_eq_some {path owner : String}
    (h : storageResourceOwner path = some owner) :
    ∃ org block, '/' ∉ org ∧ '/' ∉ block ∧ owner.toList = org ++ '/' :: block ∧
      (path.toList = org ++ '/' :: block ∨ ∃ t, path.toList = org ++ '/' :: (block ++ '/' :: t)) := by
  unfold storageResourceOwner at h
  split at h
  next org block tail hs =>
    split at h; · cases h
    have howner : owner.toList = org ++ '/' :: block := by
      rw [← Option.some.inj h, String.toList_ofList]
    rw [splitn] at hs
    split at hs; · cases hs
    next org' rest h1 =>
      obtain ⟨hpath, horg⟩ := splitOnce_singleton_eq_some.mp h1
      obtain ⟨rfl, htail⟩ := cons.inj hs
      rw [splitn] at htail
      split at htail
      · next h2 =>
        obtain ⟨rfl, -⟩ := cons.inj htail
        exact ⟨org', rest, horg, splitOnce_singleton_eq_none.mp h2, howner, Or.inl hpath⟩
      · next block' t h2 =>
        obtain ⟨rfl, -⟩ := cons.inj htail
        obtain ⟨hrest, hblock⟩ := splitOnce_singleton_eq_some.mp h2
        exact ⟨org', block', horg, hblock, howner, Or.inr ⟨t, by rw [hpath, hrest]⟩⟩
  · cases h

/-- **The owner of a path is decided by its first two slashes.** -/
theorem storageResourceOwner_append {lit r owner : String} {t : List Char}
    (hcount : 2 ≤ lit.toList.count '/') (h : storageResourceOwner lit = some owner)
    (hr : r.toList = lit.toList ++ t) : storageResourceOwner r = some owner := by
  obtain ⟨org, block, horg, hblock, ho, hlit | ⟨u, hlit⟩⟩ := storageResourceOwner_eq_some h
  · rw [hlit, List.count_append, count_cons_self, count_eq_zero.mpr horg,
      count_eq_zero.mpr hblock] at hcount
    omega
  · unfold storageResourceOwner at h ⊢
    rw [hlit, splitn_append horg, splitn_append hblock] at h
    rw [hr, hlit, append_assoc, cons_append, append_assoc, cons_append,
      splitn_append horg, splitn_append hblock]
    exact h

theorem isSegment_of_storageResourceOwner {r owner : String} {s t : List Char} (hs : '/' ∉ s)
    (hr : r.toList = s ++ '/' :: t) (h : storageResourceOwner r = some owner)
    (ho : IsBlockName owner) : IsSegment s := by
  obtain ⟨org', block', hn, horg', hblock'⟩ := ho
  obtain ⟨org, block, horg, -, hn', hr'⟩ := storageResourceOwner_eq_some h
  obtain ⟨rfl, rfl⟩ := segments_unique (hn'.symm.trans hn) horg' hblock'
  obtain ⟨u, hr'⟩ : ∃ u, r.toList = org ++ '/' :: u := by
    rcases hr' with hr' | ⟨t, hr'⟩
    · exact ⟨block, hr'⟩
    · exact ⟨block ++ '/' :: t, hr'⟩
  have hsplit := splitOnce_singleton_append hs t
  rw [← hr, hr', splitOnce_singleton_append horg] at hsplit
  rw [← (Prod.mk.inj (Option.some.inj hsplit)).1]
  exact horg'

/-- A resource owned by a block under the underscore spelling is owned by no block under the slash
spelling: the first would need an underscore before the first slash, the second forbids it. -/
theorem not_isBlockName_of_storageResourceOwner {r owner owner' : String}
    (h : resourceOwner U r = some owner) (ho : IsBlockName owner)
    (h' : storageResourceOwner r = some owner') : ¬IsBlockName owner' := by
  intro ho'
  obtain ⟨org, block, horg, -, -, hr⟩ := storageResourceOwner_eq_some h'
  obtain ⟨t, hr⟩ : ∃ t, r.toList = org ++ '/' :: t := by
    rcases hr with hr | ⟨t, hr⟩
    · exact ⟨block, hr⟩
    · exact ⟨block ++ '/' :: t, hr⟩
  have hseg := isSegment_of_storageResourceOwner horg hr h' ho'
  have hopen : org ++ ['/'] <+: U.lower r.toList := by
    rw [hr, show org ++ '/' :: t = (org ++ ['/']) ++ t by simp]
    refine U.prefix_lower_append (fun c hc ↦ ?_) t
    rcases mem_append.mp hc with hc | hc
    · exact lower_of_isSegmentChar (hseg.chars c hc)
    · rw [mem_singleton.mp hc]
      decide
  refine not_isBlockName_of_isPrefix_lower (c := '/') hopen ?_ ?_ (by decide) h ho
  · rw [mem_append, not_or]
    exact ⟨hseg.underscore_not_mem, by decide⟩
  · exact mem_append_right _ mem_cons_self

end WaferRun
