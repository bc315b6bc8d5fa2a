import WaferRun.Wrap.Grants

/-!
# Grants a block may declare

A block declares grants when it registers, and registration only installs those it is entitled to
make. Network and crypto resources have no owner, so grants on them come from the admin block
alone. Every other grant must name resources of the declaring block.

The validator does not look at the resources a pattern matches, of which there are infinitely many.
It reads an owner off the literal text before the first star and trusts that every match has that
owner. `grantAllows_owner_eq` is the justification: three separate readings of text, the
validator's, the matcher's and the ownership rule's, agree on every resource an accepted grant
admits.
-/

namespace WaferRun

open Text

structure GrantValidationError where
  block : String
  grant : ResourceGrant
  reason : String
deriving DecidableEq, Repr

/-- The grants of a block, sorted into those to install and those refused. -/
structure GrantValidationOutcome where
  accepted : List ResourceGrant
  rejected : List GrantValidationError
deriving DecidableEq, Repr

inductive GrantVerdict
  | accept
  | defer
  | reject (reason : String)
deriving DecidableEq, Repr

variable (U : CaseTables)

/-- The block that owns every resource a pattern can match, if a single block does. -/
def grantResourceOwner (resource : String) (resourceType : Option ResourceType) : Option String :=
  match splitOnce ['*'] resource.toList with
  | none => typedResourceOwner U resource resourceType
  | some (literal, _) =>
    match resourceType with
    | some .storage =>
      if literal.count '/' < 2 then none else storageResourceOwner (String.ofList literal)
    | _ => resourceOwner U (String.ofList literal)

def validateGrant (blockName adminBlock : String) (g : ResourceGrant) : GrantVerdict :=
  match g.checkShape with
  | .error shape => .reject shape
  | .ok () =>
    match g.resourceType with
    | some .network | some .crypto =>
      if adminBlock = "" then .defer
      else if blockName = adminBlock then .accept
      else .reject ("typed " ++ (g.resourceType.map ResourceType.debug).getD "" ++
        " grants may only be declared by the admin block")
    | _ =>
      match grantResourceOwner U g.resource g.resourceType with
      | some owner =>
        if owner = blockName then .accept
        else .reject ("resource `" ++ g.resource ++ "` is owned by `" ++ owner ++
          "`, not by declaring block")
      | none =>
        let expectedShape :=
          if g.resourceType = some .storage then "`\x7borg\x7d/\x7bblock\x7d/*` (Storage paths)"
          else "`\x7borg\x7d__\x7bblock\x7d__*` (Db tables)"
        .reject ("resource `" ++ g.resource ++ "` is not namespaced to a single block — " ++
          "namespace-based grants must target " ++ expectedShape)

def GrantValidationOutcome.push (blockName adminBlock : String) (out : GrantValidationOutcome)
    (g : ResourceGrant) : GrantValidationOutcome :=
  match validateGrant U blockName adminBlock g with
  | .accept => { out with accepted := out.accepted ++ [g] }
  | .defer => out
  | .reject reason => { out with rejected := out.rejected ++ [⟨blockName, g, reason⟩] }

def validateAndCollectGrantsForBlock (blockName : String) (grants : List ResourceGrant)
    (adminBlock : String) : GrantValidationOutcome :=
  grants.foldl (GrantValidationOutcome.push U blockName adminBlock) ⟨[], []⟩

variable {U} {blockName adminBlock : String} {g : ResourceGrant}

/-! ## What acceptance says about a grant -/

private theorem validateGrant_of_mem_foldl {grants : List ResourceGrant}
    {out : GrantValidationOutcome}
    (h : g ∈ (grants.foldl (GrantValidationOutcome.push U blockName adminBlock) out).accepted) :
    g ∈ out.accepted ∨ validateGrant U blockName adminBlock g = .accept := by
  induction grants generalizing out with
  | nil => exact Or.inl h
  | cons g' grants ih =>
    rcases ih h with hpush | hv
    · unfold GrantValidationOutcome.push at hpush
      split at hpush
      · next hv =>
        rcases List.mem_append.mp hpush with hm | hm
        · exact Or.inl hm
        · exact Or.inr (List.mem_singleton.mp hm ▸ hv)
      · exact Or.inl hpush
      · exact Or.inl hpush
    · exact Or.inr hv

theorem validateGrant_of_mem_accepted {grants : List ResourceGrant}
    (h : g ∈ (validateAndCollectGrantsForBlock U blockName grants adminBlock).accepted) :
    validateGrant U blockName adminBlock g = .accept :=
  (validateGrant_of_mem_foldl h).resolve_left List.not_mem_nil

/-- An accepted grant is the admin block's, on a resource without owners, or has the declaring
block as the owner of its pattern. -/
theorem validateGrant_eq_accept (h : validateGrant U blockName adminBlock g = .accept) :
    ((g.resourceType = some .network ∨ g.resourceType = some .crypto) ∧ blockName = adminBlock) ∨
      (g.resourceType ≠ some .network ∧ g.resourceType ≠ some .crypto ∧
        grantResourceOwner U g.resource g.resourceType = some blockName) := by
  unfold validateGrant at h
  split at h; · cases h
  split at h
  · next ht =>
    split at h; · cases h
    split at h
    · next hb => exact Or.inl ⟨Or.inl ht, hb⟩
    · cases h
  · next ht =>
    split at h; · cases h
    split at h
    · next hb => exact Or.inl ⟨Or.inr ht, hb⟩
    · cases h
  · next hnet hcry =>
    refine Or.inr ⟨hnet, hcry, ?_⟩
    split at h
    · next owner howner =>
      split at h
      · next hb => rw [howner, hb]
      · cases h
    · cases h

/-! ## Patterns that are never accepted -/

private theorem exists_scheme_of_isUrlPattern {pattern : String} (h : isUrlPattern pattern = true) :
    ∃ scheme rest, pattern.toList = scheme ++ '/' :: rest ∧ '/' ∉ scheme ∧ '*' ∉ scheme ∧
      '_' ∉ scheme ∧ ':' ∈ scheme ∧ scheme.all fun c ↦ c.val < 128 ∧ c.toLower = c := by
  unfold isUrlPattern at h
  rw [decide_eq_true_eq] at h
  rcases h with ⟨t, ht⟩ | ⟨t, ht⟩
  · exact ⟨"http:".toList, '/' :: t, ht.symm, by decide, by decide, by decide, by decide,
      by decide⟩
  · exact ⟨"https:".toList, '/' :: t, ht.symm, by decide, by decide, by decide, by decide,
      by decide⟩

def literalOf (pattern : String) : List Char :=
  match splitOnce ['*'] pattern.toList with
  | none => pattern.toList
  | some (literal, _) => literal

theorem typedResourceOwner_of_grantResourceOwner {pattern owner : String}
    {rt : Option ResourceType} (h : grantResourceOwner U pattern rt = some owner) :
    typedResourceOwner U (String.ofList (literalOf pattern)) rt = some owner := by
  unfold grantResourceOwner at h
  unfold literalOf
  split at h
  · rw [String.ofList_toList]
    exact h
  · split at h
    · split at h; · cases h
      exact h
    · next hrt =>
      unfold typedResourceOwner
      split
      · exact absurd rfl hrt
      · exact h

private theorem literalOf_append {pattern : String} {s rest : List Char} (hs : '*' ∉ s)
    (hp : pattern.toList = s ++ '/' :: rest) : ∃ t, literalOf pattern = s ++ '/' :: t := by
  unfold literalOf
  rw [hp]
  cases hrest : splitOnce ['*'] rest with
  | none =>
    have hnone : '*' ∉ s ++ '/' :: rest := by
      rw [List.mem_append, List.mem_cons, not_or, not_or]
      exact ⟨hs, by decide, splitOnce_singleton_eq_none.mp hrest⟩
    rw [splitOnce_singleton_eq_none.mpr hnone]
    exact ⟨rest, rfl⟩
  | some ab =>
    obtain ⟨a, b⟩ := ab
    obtain ⟨rfl, ha⟩ := splitOnce_singleton_eq_some.mp hrest
    have hstar : '*' ∉ s ++ '/' :: a := by
      rw [List.mem_append, List.mem_cons, not_or, not_or]
      exact ⟨hs, by decide, ha⟩
    have hsplit := splitOnce_singleton_append hstar b
    rw [List.append_assoc, List.cons_append] at hsplit
    rw [hsplit]
    exact ⟨a, rfl⟩

/-- No block owns a pattern that is matched as a URL: its literal beginning has a colon before
anything that could end a segment. -/
theorem not_isBlockName_of_isUrlPattern {pattern owner : String} {rt : Option ResourceType}
    (hurl : isUrlPattern pattern = true) (h : grantResourceOwner U pattern rt = some owner) :
    ¬IsBlockName owner := by
  intro ho
  obtain ⟨scheme, rest, hp, hslash, hstar, hu, hcolon, hlower⟩ := exists_scheme_of_isUrlPattern hurl
  obtain ⟨t, ht⟩ := literalOf_append hstar hp
  have hown := typedResourceOwner_of_grantResourceOwner h
  unfold typedResourceOwner at hown
  split at hown
  · have hseg := isSegment_of_storageResourceOwner hslash
      (by rw [String.toList_ofList, ht]) hown ho
    exact hseg.not_mem (by decide) hcolon
  · refine not_isBlockName_of_isPrefix_lower ?_ hu hcolon (by decide) hown ho
    rw [String.toList_ofList, ht]
    refine U.prefix_lower_append (fun c hc ↦ ?_) _
    exact of_decide_eq_true (List.all_eq_true.mp hlower c hc)

theorem grantResourceOwner_star (rt : Option ResourceType) :
    grantResourceOwner U "*" rt = none := by
  cases rt with
  | none => rfl
  | some t => cases t <;> rfl

/-! ## Every match has the owner of the pattern -/

theorem typedResourceOwner_of_grantMatchesResource {parse : String → Option Url}
    {pattern r owner : String} {rt : Option ResourceType} (ho : IsBlockName owner)
    (h : grantResourceOwner U pattern rt = some owner)
    (hm : grantMatchesResource parse pattern r = true) : typedResourceOwner U r rt = some owner := by
  unfold grantMatchesResource at hm
  split at hm
  · next hstar =>
    rw [hstar, grantResourceOwner_star] at h
    cases h
  split at hm
  · next hurl => exact absurd ho (not_isBlockName_of_isUrlPattern hurl h)
  unfold grantResourceOwner at h
  split at h
  · next hs =>
    rw [globMatches_of_not_mem (splitOnce_singleton_eq_none.mp hs) hm]
    exact h
  · next literal rest hs =>
    obtain ⟨t, ht⟩ := isPrefix_of_globMatches hs hm
    have hr : r.toList = (String.ofList literal).toList ++ t := by rw [String.toList_ofList, ht]
    split at h
    · split at h; · cases h
      next hcount =>
        refine storageResourceOwner_append ?_ h hr
        rw [String.toList_ofList]
        omega
    · next hrt =>
      have := resourceOwner_append ho h hr
      unfold typedResourceOwner
      split
      · exact absurd rfl hrt
      · exact this

/-- **A block cannot grant away what it does not own.** Network and crypto grants are accepted from
the admin block only. Any other accepted grant admits requests, whatever their type, on the
declaring block's resources alone, as far as their owner is a block at all. -/
theorem grantAllows_owner_eq (U : CaseTables) (parse : String → Option Url) {B adminBlock : String}
    (hB : validateBlockName B = .ok ()) {grants : List ResourceGrant} {g : ResourceGrant}
    (hg : g ∈ (validateAndCollectGrantsForBlock U B grants adminBlock).accepted) :
    ((g.resourceType = some .network ∨ g.resourceType = some .crypto) → B = adminBlock) ∧
      (¬(g.resourceType = some .network ∨ g.resourceType = some .crypto) →
        ∀ (caller r : String) (access : ResourceAccess) (T : Option ResourceType) (owner : String),
          grantAllows parse g caller r access T = true → typedResourceOwner U r T = some owner →
            validateBlockName owner = .ok () → owner = B) := by
  have hB' := isBlockName_of_validateBlockName hB
  rcases validateGrant_eq_accept (validateGrant_of_mem_accepted hg) with
    ⟨htype, hadmin⟩ | ⟨hnet, hcry, howner⟩
  · exact ⟨fun _ ↦ hadmin, fun hn ↦ absurd htype hn⟩
  refine ⟨fun ht ↦ absurd ht (not_or.mpr ⟨hnet, hcry⟩), ?_⟩
  intro _ caller r access T owner hallows hT hvalid
  obtain ⟨hmatch, hrt⟩ := grantAllows_eq_true hallows
  have hr := typedResourceOwner_of_grantMatchesResource hB' howner hmatch
  rcases hrt with hrt | hrt
  · -- an untyped grant, consulted for a request of any type
    rw [hrt] at hr
    by_cases hst : T = some .storage
    · subst hst
      exact absurd (isBlockName_of_validateBlockName hvalid)
        (not_isBlockName_of_storageResourceOwner hr hB' hT)
    · have hT' : typedResourceOwner U r T = resourceOwner U r := by
        unfold typedResourceOwner
        split
        · exact absurd rfl hst
        · rfl
      rw [hT'] at hT
      exact Option.some.inj (hT.symm.trans hr)
  · rw [hrt] at hr
    exact Option.some.inj (hT.symm.trans hr)

/-- A block that opens all its tables to everybody. -/
def filesGrant : ResourceGrant := ⟨"*", "acme__files__*", .full, none⟩

theorem grantAllows_owner_eq_files :
    validateBlockName "acme/files" = .ok () ∧
      filesGrant ∈
        (validateAndCollectGrantsForBlock .ascii "acme/files" [filesGrant] "acme/admin").accepted ∧
      grantAllows (fun _ ↦ none) filesGrant "acme/web" "acme__files__photos" .write (some .db) ∧
      ∀ owner, typedResourceOwner .ascii "acme__files__photos" (some .db) = some owner →
        validateBlockName owner = .ok () → owner = "acme/files" := by
  have hB : validateBlockName "acme/files" = .ok () := by decide
  have hg : filesGrant ∈
      (validateAndCollectGrantsForBlock .ascii "acme/files" [filesGrant] "acme/admin").accepted := by
    decide
  have hallows : grantAllows (fun _ ↦ none) filesGrant "acme/web" "acme__files__photos" .write
      (some .db) := by decide
  refine ⟨hB, hg, hallows, fun owner ↦ ?_⟩
  exact (grantAllows_owner_eq .ascii (fun _ ↦ none) hB hg).2 (by decide) _ _ _ _ owner hallows

end WaferRun
