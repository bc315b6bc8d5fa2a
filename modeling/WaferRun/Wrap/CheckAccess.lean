import WaferRun.Block.Output
import WaferRun.Wrap.Grants

/-!
# Who may access a resource

Every call that names a resource is checked against the policy before it is dispatched
(`checkAccess`). Resources that are named by their owner admit the owner, the admin block and
whoever holds a grant. A few names stand for a privilege and not for a resource; they are decided
before ownership and grants are looked at, some for everybody who is known, some for the admin
block alone.

The check is a cascade with early returns. `Admitted` says in one place whom it lets pass, and
`checkAccess_eq_ok_iff` that it lets pass nobody else. What the policy promises is read off that.
-/

namespace WaferRun

open Text

def rawSqlResource : String := "__raw_sql__"

def ddlResource : String := "__ddl__"

def schemaResource : String := "__schema__"

def storageListAllResource : String := "__storage_list_all__"

def authRequireUserResource : String := "wafer_run__auth__require_user"

def authRequireTokenResource : String := "wafer_run__auth__require_token"

def authRequireRoleResource : String := "wafer_run__auth__require_role"

/-- The operations of the auth service that tell a caller nothing it does not hold already. -/
def isAuthCredentialResource (resource : String) : Bool :=
  resource = authRequireUserResource || resource = authRequireTokenResource ||
    resource = authRequireRoleResource

def isSharedResource (resource : String) : Bool :=
  eqIgnoreAsciiCase (resource.toList.take waferRunSharedPrefix.toList.length)
    waferRunSharedPrefix.toList

def namespaceBased : Option ResourceType → Bool
  | some .network | some .storage | some .crypto => false
  | _ => true

/-- The policy's view of the outside: case tables, the URL parser and how a string is quoted. -/
structure WrapHost where
  cases : CaseTables
  parse : String → Option Url
  quote : String → String

section

variable (host : WrapHost)

def debugOption {α : Type} (debug : α → String) : Option α → String
  | none => "None"
  | some a => "Some(" ++ debug a ++ ")"

def accessDenied (message : String) : Except WaferError Unit :=
  .error (.new .permissionDenied message)

def adminOnly (callerId : Option String) (adminBlock message : String) : Except WaferError Unit :=
  if callerId = some adminBlock then .ok () else accessDenied message

def attributable (callerId : Option String) (message : String) : Except WaferError Unit :=
  if callerId.isSome then .ok () else accessDenied message

def anyGrantAllows (callerId : Option String) (resource : String) (access : ResourceAccess)
    (resourceType : Option ResourceType) (grants : List ResourceGrant) : Bool :=
  callerId.any fun caller ↦
    grants.any fun g ↦ grantAllows host.parse g caller resource access resourceType

def checkAccess (callerId : Option String) (resource : String) (access : ResourceAccess)
    (resourceType : Option ResourceType) (grants : List ResourceGrant) (adminBlock : String) :
    Except WaferError Unit :=
  let caller := debugOption host.quote callerId
  if namespaceBased resourceType then
    if resource = rawSqlResource then
      adminOnly callerId adminBlock
        ("WRAP: raw SQL access denied (caller: " ++ caller ++ ", admin: " ++ adminBlock ++ ")")
    else if resource = ddlResource ∨ resource = schemaResource then
      let what := if resource = ddlResource then "DDL" else "schema ops"
      attributable callerId
        ("WRAP: " ++ what ++ " requires an attributable caller (caller: None)")
    else if resourceType = some .auth ∧ isAuthCredentialResource resource then
      attributable callerId
        ("WRAP: auth credential op '" ++ resource ++
          "' requires an attributable caller (caller: None)")
    else if isSharedResource resource then
      if access ≠ .read then
        adminOnly callerId adminBlock
          ("WRAP: only admin can write WAFER_RUN_SHARED__ resources (caller: " ++ caller ++ ")")
      else
        attributable callerId
          ("WRAP: WAFER_RUN_SHARED__ read denied for anonymous caller (resource: " ++ resource ++
            ")")
    else
      let owner := resourceOwner host.cases resource
      if owner.isSome ∧ callerId = owner then .ok ()
      else if callerId = some adminBlock then .ok ()
      else if anyGrantAllows host callerId resource access resourceType grants then .ok ()
      else if owner = none then
        accessDenied
          ("WRAP: unnamespaced resource '" ++ resource ++ "' denied (caller: " ++ caller ++ ")")
      else accessDenied ("WRAP: access denied on '" ++ resource ++ "' (caller: " ++ caller ++ ")")
  else if resourceType = some .storage ∧ resource = storageListAllResource then
    adminOnly callerId adminBlock
      ("WRAP: storage.list_folders (list-all) is admin-only (caller: " ++ caller ++ ", admin: " ++
        adminBlock ++ ")")
  else if resourceType = some .storage ∧ !isTraversalSafePath resource then
    accessDenied
      ("WRAP: storage path '" ++ resource ++
        "' has an empty, `.` or `..` segment or a `\\` (caller: " ++ caller ++ ")")
  else if resourceType = some .storage ∧ callerId.isSome ∧
      storageResourceOwner resource = callerId then .ok ()
  else if callerId = some adminBlock then .ok ()
  else if anyGrantAllows host callerId resource access resourceType grants then .ok ()
  else
    accessDenied
      ("WRAP: access denied on '" ++ resource ++ "' (caller: " ++ caller ++ ", type: " ++
        debugOption ResourceType.debug resourceType ++ ")")

/-! ## Whom the check admits -/

variable (resource : String) (access : ResourceAccess) (resourceType : Option ResourceType)
  (grants : List ResourceGrant) (adminBlock caller : String)

/-- What only the admin block may do: raw SQL, listing all folders and writing to the shared
namespace. -/
def IsPrivileged : Prop :=
  namespaceBased resourceType = true ∧
      (resource = rawSqlResource ∨ isSharedResource resource = true ∧ access ≠ .read) ∨
    resourceType = some .storage ∧ resource = storageListAllResource

/-- What every known caller may do. -/
def IsOpen : Prop :=
  namespaceBased resourceType = true ∧
    (resource = ddlResource ∨ resource = schemaResource ∨
      resourceType = some .auth ∧ isAuthCredentialResource resource = true ∨
      isSharedResource resource = true ∧ access = .read)

def IsUnsafePath : Prop := resourceType = some .storage ∧ isTraversalSafePath resource = false

def Owns : Prop :=
  (namespaceBased resourceType = true ∨ resourceType = some .storage) ∧
    typedResourceOwner host.cases resource resourceType = some caller

def IsGranted : Prop :=
  ∃ g ∈ grants, grantMatchesGrantee g.grantee caller = true ∧
    grantMatchesResource host.parse g.resource resource = true ∧ g.admits access = true ∧
    (g.resourceType = none ∨ g.resourceType = resourceType)

/-- Whom the policy lets pass. -/
def Admitted : Prop :=
  (IsPrivileged resource access resourceType → caller = adminBlock) ∧
    ¬IsUnsafePath resource resourceType ∧
    (caller = adminBlock ∨ IsOpen resource access resourceType ∨
      Owns host resource resourceType caller ∨
      IsGranted host resource access resourceType grants caller)

variable {host resource access resourceType grants adminBlock caller}

theorem adminOnly_eq_ok {message : String} :
    adminOnly (some caller) adminBlock message = .ok () ↔ caller = adminBlock := by
  simp [adminOnly, accessDenied]

theorem attributable_eq_ok {message : String} : attributable (some caller) message = .ok () := rfl

theorem anyGrantAllows_iff :
    anyGrantAllows host (some caller) resource access resourceType grants = true ↔
      IsGranted host resource access resourceType grants caller := by
  simp [anyGrantAllows, IsGranted, grantAllows, and_assoc]

theorem checkAccess_none :
    checkAccess host none resource access resourceType grants adminBlock ≠ .ok () := by
  have howner (owner : Option String) : ¬(owner.isSome = true ∧ none = owner) := by
    rintro ⟨hsome, rfl⟩
    cases hsome
  intro h
  simp only [checkAccess, adminOnly, attributable, anyGrantAllows, accessDenied, Option.isSome_none,
    Option.any_none, reduceCtorEq, false_and, and_false, if_false, Bool.false_eq_true, howner] at h
  split_ifs at h

theorem cascade_eq_ok {p q r : Prop} [Decidable p] [Decidable q] [Decidable r]
    {refusal : Except WaferError Unit} (h : refusal ≠ .ok ()) :
    (if p then .ok () else if q then .ok () else if r then .ok () else refusal) = .ok () ↔
      p ∨ q ∨ r := by
  split_ifs with hp hq hr <;> simp [*]

theorem typedResourceOwner_of_ne_storage (h : resourceType ≠ some .storage) :
    typedResourceOwner host.cases resource resourceType = resourceOwner host.cases resource := by
  unfold typedResourceOwner
  split
  · exact absurd rfl h
  · rfl

theorem admitted_of_not_special (hpriv : ¬IsPrivileged resource access resourceType)
    (hopen : ¬IsOpen resource access resourceType) (hsafe : ¬IsUnsafePath resource resourceType) :
    Admitted host resource access resourceType grants adminBlock caller ↔
      Owns host resource resourceType caller ∨ caller = adminBlock ∨
        IsGranted host resource access resourceType grants caller := by
  simp only [Admitted, hpriv, hopen, hsafe, false_implies, not_false_eq_true, true_and, false_or]
  tauto

theorem checkAccess_namespaceBased (hns : namespaceBased resourceType = true) :
    checkAccess host (some caller) resource access resourceType grants adminBlock = .ok () ↔
      Admitted host resource access resourceType grants adminBlock caller := by
  have hstorage : resourceType ≠ some .storage := by
    rintro rfl
    cases hns
  have hsafe : ¬IsUnsafePath resource resourceType := fun h ↦ hstorage h.1
  have hopenOf (h : IsOpen resource access resourceType)
      (hpriv : ¬IsPrivileged resource access resourceType) :
      Admitted host resource access resourceType grants adminBlock caller :=
    ⟨fun h ↦ absurd h hpriv, hsafe, .inr (.inl h)⟩
  have hadminOf (hpriv : IsPrivileged resource access resourceType) :
      Admitted host resource access resourceType grants adminBlock caller ↔ caller = adminBlock :=
    ⟨fun h ↦ h.1 hpriv, fun h ↦ ⟨fun _ ↦ h, hsafe, .inl h⟩⟩
  simp only [checkAccess, hns, if_true]
  by_cases hraw : resource = rawSqlResource
  · rw [if_pos hraw, adminOnly_eq_ok, hadminOf (.inl ⟨hns, .inl hraw⟩)]
  rw [if_neg hraw]
  -- the names that stand for a privilege are not in the shared namespace
  have hprivOf (hns' : isSharedResource resource = false) :
      ¬IsPrivileged resource access resourceType := by
    rintro (⟨-, h | h⟩ | h)
    · exact hraw h
    · simp [hns'] at h
    · exact hstorage h.1
  by_cases hddl : resource = ddlResource ∨ resource = schemaResource
  · rw [if_pos hddl]
    have hns' : isSharedResource resource = false := by
      rcases hddl with rfl | rfl <;> decide
    exact iff_of_true attributable_eq_ok (hopenOf ⟨hns, by tauto⟩ (hprivOf hns'))
  rw [if_neg hddl]
  by_cases hauth : resourceType = some .auth ∧ isAuthCredentialResource resource = true
  · rw [if_pos hauth]
    have hns' : isSharedResource resource = false := by
      have := hauth.2
      simp only [isAuthCredentialResource, Bool.or_eq_true, decide_eq_true_eq] at this
      rcases this with (rfl | rfl) | rfl <;> decide
    exact iff_of_true attributable_eq_ok (hopenOf ⟨hns, by tauto⟩ (hprivOf hns'))
  rw [if_neg hauth]
  by_cases hshared : isSharedResource resource = true
  · rw [if_pos hshared]
    by_cases hwrite : access ≠ .read
    · rw [if_pos hwrite, adminOnly_eq_ok, hadminOf (.inl ⟨hns, .inr ⟨hshared, hwrite⟩⟩)]
    · rw [if_neg hwrite]
      rw [not_not] at hwrite
      refine iff_of_true attributable_eq_ok (hopenOf ⟨hns, by tauto⟩ ?_)
      rintro (⟨-, h | h⟩ | h)
      · exact hraw h
      · exact h.2 hwrite
      · exact hstorage h.1
  rw [if_neg hshared]
  rw [Bool.not_eq_true] at hshared
  have hopen : ¬IsOpen resource access resourceType := by
    rintro ⟨-, h⟩
    simp only [hshared, Bool.false_eq_true, false_and, or_false] at h
    tauto
  have howner : ((resourceOwner host.cases resource).isSome = true ∧
      some caller = resourceOwner host.cases resource) ↔ Owns host resource resourceType caller := by
    rw [Owns, typedResourceOwner_of_ne_storage hstorage]
    constructor
    · exact fun h ↦ ⟨.inl hns, h.2.symm⟩
    · exact fun h ↦ ⟨by rw [h.2]; rfl, h.2.symm⟩
  rw [admitted_of_not_special (hprivOf hshared) hopen hsafe, ← howner, ← anyGrantAllows_iff,
    cascade_eq_ok, Option.some_inj]
  split_ifs <;> simp [accessDenied]

theorem checkAccess_not_namespaceBased (hns : namespaceBased resourceType = false) :
    checkAccess host (some caller) resource access resourceType grants adminBlock = .ok () ↔
      Admitted host resource access resourceType grants adminBlock caller := by
  have hopen : ¬IsOpen resource access resourceType := by simp [IsOpen, hns]
  simp only [checkAccess, hns, Bool.false_eq_true, if_false, Bool.not_eq_true']
  by_cases hall : resourceType = some .storage ∧ resource = storageListAllResource
  · have hsafe : ¬IsUnsafePath resource resourceType := by
      rw [IsUnsafePath, hall.2]
      exact fun h ↦ absurd h.2 (by decide)
    rw [if_pos hall, adminOnly_eq_ok]
    exact ⟨fun h ↦ ⟨fun _ ↦ h, hsafe, .inl h⟩, fun h ↦ h.1 (.inr hall)⟩
  rw [if_neg hall]
  have hpriv : ¬IsPrivileged resource access resourceType := by
    rintro (h | h)
    · simp [hns] at h
    · exact hall h
  by_cases hsafe : resourceType = some .storage ∧ isTraversalSafePath resource = false
  · rw [if_pos hsafe]
    exact iff_of_false (by simp [accessDenied]) fun h ↦ h.2.1 hsafe
  have howner : (resourceType = some .storage ∧ (some caller).isSome = true ∧
      storageResourceOwner resource = some caller) ↔ Owns host resource resourceType caller := by
    rw [Owns, hns]
    constructor
    · rintro ⟨rfl, -, h⟩
      exact ⟨.inr rfl, h⟩
    · rintro ⟨h | rfl, howner⟩
      · cases h
      · exact ⟨rfl, rfl, howner⟩
  rw [if_neg hsafe, admitted_of_not_special hpriv hopen hsafe, ← howner, ← anyGrantAllows_iff,
    cascade_eq_ok, Option.some_inj]
  simp [accessDenied]

/-- The check admits exactly whom the policy lets pass. -/
theorem checkAccess_eq_ok_iff :
    checkAccess host (some caller) resource access resourceType grants adminBlock = .ok () ↔
      Admitted host resource access resourceType grants adminBlock caller := by
  cases hns : namespaceBased resourceType with
  | true => exact checkAccess_namespaceBased hns
  | false => exact checkAccess_not_namespaceBased hns

theorem IsGranted.mono {grants' : List ResourceGrant} (hsub : grants ⊆ grants')
    (h : IsGranted host resource access resourceType grants caller) :
    IsGranted host resource access resourceType grants' caller := by
  obtain ⟨g, hg, h⟩ := h
  exact ⟨g, hsub hg, h⟩

theorem Admitted.mono {grants' : List ResourceGrant} (hsub : grants ⊆ grants')
    (h : Admitted host resource access resourceType grants adminBlock caller) :
    Admitted host resource access resourceType grants' adminBlock caller := by
  obtain ⟨hpriv, hsafe, h⟩ := h
  refine ⟨hpriv, hsafe, ?_⟩
  rcases h with h | h | h | h
  · exact .inl h
  · exact .inr (.inl h)
  · exact .inr (.inr (.inl h))
  · exact .inr (.inr (.inr (h.mono hsub)))

end

/-- **The decision of the policy.** Nobody unknown is admitted. A caller other than the admin block
is admitted only to what it owns, to what is open, or by a single grant that fits in all respects.
Privileged names admit the admin block only and unsafe paths nobody. More grants never turn an
admission into a refusal. -/
theorem checkAccess_decision (host : WrapHost) (resource : String) (access : ResourceAccess)
    (resourceType : Option ResourceType) (grants : List ResourceGrant) (adminBlock : String) :
    checkAccess host none resource access resourceType grants adminBlock ≠ .ok () ∧
      (∀ caller, caller ≠ adminBlock →
        checkAccess host (some caller) resource access resourceType grants adminBlock = .ok () →
          Owns host resource resourceType caller ∨ IsOpen resource access resourceType ∨
            IsGranted host resource access resourceType grants caller) ∧
      (IsPrivileged resource access resourceType → ∀ callerId,
        checkAccess host callerId resource access resourceType grants adminBlock = .ok () →
          callerId = some adminBlock) ∧
      (IsUnsafePath resource resourceType → ∀ callerId,
        checkAccess host callerId resource access resourceType grants adminBlock ≠ .ok ()) ∧
      ∀ callerId grants', grants ⊆ grants' →
        checkAccess host callerId resource access resourceType grants adminBlock = .ok () →
          checkAccess host callerId resource access resourceType grants' adminBlock = .ok () := by
  refine ⟨checkAccess_none, ?_, ?_, ?_, ?_⟩
  · intro caller hne h
    obtain ⟨-, -, h⟩ := checkAccess_eq_ok_iff.mp h
    tauto
  · rintro hpriv (_ | caller) h
    · exact absurd h checkAccess_none
    · rw [(checkAccess_eq_ok_iff.mp h).1 hpriv]
  · rintro hunsafe (_ | caller) h
    · exact absurd h checkAccess_none
    · exact (checkAccess_eq_ok_iff.mp h).2.1 hunsafe
  · rintro (_ | caller) grants' hsub h
    · exact absurd h checkAccess_none
    · exact checkAccess_eq_ok_iff.mpr ((checkAccess_eq_ok_iff.mp h).mono hsub)

end WaferRun
