import WaferRun.Runtime.GrantValidation

/-!
# Registration

Before the runtime is sealed its registry takes blocks, aliases, grants from outside and the name
of the admin block, in any order. The list of grants is kept up to date on the way: a registration
appends what the block may declare, a new admin block has the list rebuilt.

What that leaves does not depend on the order. In every state the list has the grants each
registered block may declare under the admin block of the moment, and those added from outside, each
as often as it was given; and the refusals waiting for the seal are those of the same blocks under
the same admin block (`booked_run`).
-/

open List

namespace WaferRun

open Text

/-! ## Declarations -/

inductive HttpMethod
  | get | post | patch | delete
deriving DecidableEq, Repr

/-- An endpoint, with the name of its agent tool if it declares one. -/
structure BlockEndpoint where
  method : HttpMethod
  path : String
  agentTool : Option String
deriving DecidableEq, Repr

/-- What a block declares, as far as its registration reads it. -/
structure BlockInfo where
  name : String
  grants : List ResourceGrant
  initTimeoutMs : Option ℕ
  configKeys : List String
  flowConfig : List String
  endpoints : List BlockEndpoint
deriving DecidableEq, Repr

inductive BlockInfoError
  | reservedConfigKey (block key : String)
  | configVarPrefix (block key expected : String)
  | invalidAgentToolName (block : String) (method : HttpMethod) (path name : String)
  | zeroInitTimeout (block : String)
deriving DecidableEq, Repr

def maxToolNameLen : ℕ := 128

def isValidToolName (name : String) : Bool :=
  let chars := name.toList
  chars ≠ [] ∧ name.utf8ByteSize ≤ maxToolNameLen ∧
    chars.all fun c ↦ c.isAlphanum || c = '_' || c = '-'

namespace BlockInfo

def configVarPrefix (blockName : String) : List Char :=
  replaceChar '-' ['_'] (replaceChar '/' ['_', '_'] (blockName.toList.map Char.toUpper)) ++
    ['_', '_']

/-- The first problem of the declarations, if there is one. -/
def validate (self : BlockInfo) (registeredName : String) : Except BlockInfoError Unit :=
  if self.initTimeoutMs = some 0 then
    .error (.zeroInitTimeout registeredName)
  else
    match (self.configKeys ++ self.flowConfig).find? fun key ↦
      waferRunSharedPrefix.toList.isPrefixOf key.toList with
    | some key => .error (.reservedConfigKey self.name key)
    | none =>
      let expected := configVarPrefix registeredName
      match self.configKeys.find? fun key ↦ !expected.isPrefixOf key.toList with
      | some key => .error (.configVarPrefix registeredName key (String.ofList expected))
      | none =>
        match self.endpoints.find? fun ep ↦ ep.agentTool.any fun tool ↦ !isValidToolName tool with
        | some ep => .error (.invalidAgentToolName self.name ep.method ep.path
            (ep.agentTool.getD ""))
        | none => .ok ()

end BlockInfo

/-! ## The registry -/

inductive AliasError
  | cycle (aliasName : String)
  | targetIsAlias (aliasName target : String)
  | aliasIsExistingTarget (aliasName : String)
  | shadowsBlock (aliasName : String)
  | alreadyAliased (aliasName target : String)
  | afterSeal (aliasName : String)
deriving DecidableEq, Repr

inductive RuntimeError
  | duplicateBlock (name : String)
  | nameIsAlias (name target : String)
  | registeredAfterSeal (name : String)
  | invalidBlockName (err : InvalidBlockName)
  | blockNameMismatch (registered reported : String)
  | invalidBlockInfo (err : BlockInfoError)
  | grantsRejected (rejected : List GrantValidationError)
deriving DecidableEq, Repr

structure WrapState where
  grants : List ResourceGrant
  grantsExternal : List ResourceGrant
  adminBlock : String
  validationErrors : List GrantValidationError

def WrapState.new : WrapState := ⟨[], [], "", []⟩

def WrapState.appendGrants (self : WrapState) (grants : List ResourceGrant) : WrapState :=
  if grants.isEmpty then self else { self with grants := self.grants ++ grants }

theorem WrapState.appendGrants_eq (self : WrapState) (grants : List ResourceGrant) :
    self.appendGrants grants = { self with grants := self.grants ++ grants } := by
  unfold appendGrants
  split
  · next hempty => rw [List.isEmpty_iff.mp hempty, append_nil]
  · rfl

/-- The blocks by name, the aliases, the grants, and whether the runtime has been sealed. -/
structure RegistrationCore where
  blocks : AList fun _ : String ↦ BlockInfo
  aliases : AList fun _ : String ↦ String
  wrap : WrapState
  isSealed : Bool

namespace RegistrationCore

def new : RegistrationCore := ⟨∅, ∅, .new, false⟩

def addAlias (self : RegistrationCore) (aliasName target : String) :
    Except AliasError Unit × RegistrationCore :=
  if self.isSealed then
    (.error (.afterSeal aliasName), self)
  else if aliasName = target then
    (.error (.cycle aliasName), self)
  else
    match self.aliases.lookup aliasName with
    | some existing => (.error (.alreadyAliased aliasName existing), self)
    | none =>
      if target ∈ self.aliases then
        (.error (.targetIsAlias aliasName target), self)
      else if self.aliases.entries.any fun e ↦ e.2 = aliasName then
        (.error (.aliasIsExistingTarget aliasName), self)
      else if aliasName ∈ self.blocks then
        (.error (.shadowsBlock aliasName), self)
      else
        (.ok (), { self with aliases := self.aliases.insert aliasName target })

variable (U : CaseTables)

def outcomeOf (self : RegistrationCore) (name : String) : GrantValidationOutcome :=
  match self.blocks.lookup name with
  | some info => validateAndCollectGrantsForBlock U name info.grants self.wrap.adminBlock
  | none => ⟨[], []⟩

def rebuildWrapGrants (self : RegistrationCore) : RegistrationCore :=
  let names := self.blocks.keys.mergeSort fun a b ↦ a ≤ b
  let outcomes := names.map (self.outcomeOf U)
  { self with
    wrap := { self.wrap with
      validationErrors := outcomes.flatMap GrantValidationOutcome.rejected
      grants := outcomes.flatMap GrantValidationOutcome.accepted ++ self.wrap.grantsExternal } }

def setAdminBlock (self : RegistrationCore) (blockId : String) : RegistrationCore :=
  rebuildWrapGrants U { self with wrap := { self.wrap with adminBlock := blockId } }

def refusalOf (grant : ResourceGrant) : Option GrantValidationError :=
  match grant.checkShape with
  | .ok () => none
  | .error shape => some ⟨"", grant, shape⟩

def addWrapGrants (self : RegistrationCore) (grants : List ResourceGrant) :
    Except RuntimeError Unit × RegistrationCore :=
  let rejected := grants.filterMap refusalOf
  if !rejected.isEmpty then
    (.error (.grantsRejected rejected), self)
  else
    let wrap := { self.wrap with grantsExternal := self.wrap.grantsExternal ++ grants }
    (.ok (), { self with wrap := wrap.appendGrants grants })

/-- The checks before a block is inserted; `info` is what the block reports. -/
def admitBlock (self : RegistrationCore) (name : String) (info : BlockInfo) :
    Except RuntimeError BlockInfo :=
  if self.isSealed then
    .error (.registeredAfterSeal name)
  else if name ∈ self.blocks then
    .error (.duplicateBlock name)
  else
    match self.aliases.lookup name with
    | some target => .error (.nameIsAlias name target)
    | none =>
      match validateBlockName name with
      | .error err => .error (.invalidBlockName err)
      | .ok () =>
        if info.name ≠ name then
          .error (.blockNameMismatch name info.name)
        else
          match info.validate name with
          | .error err => .error (.invalidBlockInfo err)
          | .ok () => .ok info

def insertBlockWithGrants (self : RegistrationCore) (name : String) (info : BlockInfo) :
    RegistrationCore :=
  let outcome := validateAndCollectGrantsForBlock U name info.grants self.wrap.adminBlock
  let wrap := self.wrap.appendGrants outcome.accepted
  let wrap := { wrap with validationErrors := wrap.validationErrors ++ outcome.rejected }
  { self with wrap, blocks := self.blocks.insert name info }

def registerBlockInner (self : RegistrationCore) (name : String) (info : BlockInfo) :
    Except RuntimeError Unit × RegistrationCore :=
  match self.admitBlock name info with
  | .error err => (.error err, self)
  | .ok info => (.ok (), self.insertBlockWithGrants U name info)

/-! ## Runs before the seal -/

inductive Act
  | register (name : String) (info : BlockInfo)
  | addAlias (aliasName target : String)
  | addWrapGrants (grants : List ResourceGrant)
  | setAdminBlock (blockId : String)

def act (self : RegistrationCore) : Act → Bool × RegistrationCore
  | .register name info =>
    let (result, self) := self.registerBlockInner U name info
    (result.toBool, self)
  | .addAlias aliasName target =>
    let (result, self) := self.addAlias aliasName target
    (result.toBool, self)
  | .addWrapGrants grants =>
    let (result, self) := self.addWrapGrants grants
    (result.toBool, self)
  | .setAdminBlock blockId => (true, self.setAdminBlock U blockId)

/-- The registry after some acts, and those of them it did not refuse. -/
def run (self : RegistrationCore) : List Act → RegistrationCore × List Act
  | [] => (self, [])
  | a :: as =>
    let (ok, self) := self.act U a
    let (after, done) := run self as
    (after, if ok then a :: done else done)

def registered (done : List Act) : List (String × BlockInfo) :=
  done.filterMap fun
    | .register name info => some (name, info)
    | _ => none

def external (done : List Act) : List ResourceGrant :=
  done.flatMap fun
    | .addWrapGrants grants => grants
    | _ => []

def lastAdmin (done : List Act) : String :=
  done.foldl (fun admin a ↦ match a with
    | .setAdminBlock blockId => blockId
    | _ => admin) ""

def outcome (admin : String) (b : String × BlockInfo) : GrantValidationOutcome :=
  validateAndCollectGrantsForBlock U b.1 b.2.grants admin

/-- The books are right: the registry has exactly the blocks, grants and refusals that follow from
what it did not refuse. -/
structure Booked (core : RegistrationCore) (done : List Act) : Prop where
  blocks : (core.blocks.entries.map fun e ↦ (e.1, e.2)).Perm (registered done)
  adminBlock : core.wrap.adminBlock = lastAdmin done
  grantsExternal : core.wrap.grantsExternal = external done
  grants : core.wrap.grants.Perm
    ((registered done).flatMap (fun b ↦ (outcome U (lastAdmin done) b).accepted) ++
      external done)
  validationErrors : core.wrap.validationErrors.Perm
    ((registered done).flatMap fun b ↦ (outcome U (lastAdmin done) b).rejected)

theorem registered_concat (done : List Act) (a : Act) : registered (done ++ [a]) =
    registered done ++ registered [a] :=
  filterMap_append

theorem external_concat (done : List Act) (a : Act) : external (done ++ [a]) =
    external done ++ external [a] :=
  flatMap_append

theorem lastAdmin_concat (done : List Act) (a : Act) : lastAdmin (done ++ [a]) =
    match a with
    | .setAdminBlock blockId => blockId
    | _ => lastAdmin done := by
  rw [lastAdmin, foldl_append]
  cases a <;> rfl

/-! ## One act -/

structure Admissible (core : RegistrationCore) (name : String) (info : BlockInfo) : Prop where
  not_block : name ∉ core.blocks
  not_alias : name ∉ core.aliases
  own : info.name = name

structure Bindable (core : RegistrationCore) (aliasName target : String) : Prop where
  ne : aliasName ≠ target
  fresh : aliasName ∉ core.aliases
  target_fresh : target ∉ core.aliases
  not_target : ∀ e ∈ core.aliases.entries, e.2 ≠ aliasName
  not_block : aliasName ∉ core.blocks

theorem admit_eq_ok {self : RegistrationCore} {name : String} {info info' : BlockInfo}
    (h : self.admitBlock name info = .ok info') : info' = info ∧ self.Admissible name info := by
  unfold admitBlock at h
  split at h
  · cases h
  split at h
  · cases h
  next hfree =>
    split at h
    · cases h
    next halias =>
      split at h
      · cases h
      split at h
      · cases h
      next hname =>
        split at h
        · cases h
        refine ⟨(Except.ok.inj h).symm, hfree, ?_, not_not.mp hname⟩
        exact AList.lookup_eq_none.mp halias

theorem addAlias_cases (self : RegistrationCore) (aliasName target : String) :
    (self.addAlias aliasName target).2 = self ∨
      (self.addAlias aliasName target).1 = .ok () ∧
        (self.addAlias aliasName target).2 =
          { self with aliases := self.aliases.insert aliasName target } ∧
        self.Bindable aliasName target := by
  unfold addAlias
  split
  · exact .inl rfl
  split
  · exact .inl rfl
  next hne =>
    split
    · exact .inl rfl
    next hfresh =>
      split
      · exact .inl rfl
      next htarget =>
        split
        · exact .inl rfl
        next hvalues =>
          split
          · exact .inl rfl
          next hblock =>
            refine .inr ⟨rfl, rfl, hne, AList.lookup_eq_none.mp hfresh, htarget, ?_, hblock⟩
            intro e he heq
            exact hvalues (any_eq_true.mpr ⟨e, he, decide_eq_true heq⟩)

theorem addWrapGrants_cases (self : RegistrationCore) (grants : List ResourceGrant) :
    (∃ err, self.addWrapGrants grants = (.error err, self)) ∨
      self.addWrapGrants grants = (.ok (), { self with wrap := { self.wrap with
        grants := self.wrap.grants ++ grants
        grantsExternal := self.wrap.grantsExternal ++ grants } }) := by
  unfold addWrapGrants
  dsimp only
  split
  · exact .inl ⟨_, rfl⟩
  · rw [WrapState.appendGrants_eq]
    exact .inr rfl

theorem registerBlockInner_cases (self : RegistrationCore) (name : String) (info : BlockInfo) :
    (∃ err, self.registerBlockInner U name info = (.error err, self)) ∨
      self.Admissible name info ∧
        self.registerBlockInner U name info = (.ok (), self.insertBlockWithGrants U name info) := by
  unfold registerBlockInner
  rcases hadmit : self.admitBlock name info with err | info'
  · exact .inl ⟨err, rfl⟩
  · obtain ⟨rfl, hfree⟩ := admit_eq_ok hadmit
    exact .inr ⟨hfree, rfl⟩

theorem act_of_refused {self : RegistrationCore} {a : Act} (h : (self.act U a).1 = false) :
    (self.act U a).2 = self := by
  cases a with
  | register name info =>
    rcases registerBlockInner_cases U self name info with ⟨err, heq⟩ | ⟨-, heq⟩
    · simp only [act, heq]
    · simp only [act, heq] at h
      cases h
  | addAlias aliasName target =>
    rcases addAlias_cases self aliasName target with heq | ⟨hok, -⟩
    · exact heq
    · simp only [act, hok] at h
      cases h
  | addWrapGrants grants =>
    rcases addWrapGrants_cases self grants with ⟨err, heq⟩ | heq
    · simp only [act, heq]
    · simp only [act, heq] at h
      cases h
  | setAdminBlock blockId => cases h

section Step

variable {U} {self : RegistrationCore} {done : List Act}

theorem Booked.register (h : self.Booked U done) {name : String} {info : BlockInfo}
    (hname : name ∉ self.blocks) :
    (self.insertBlockWithGrants U name info).Booked U (done ++ [.register name info]) := by
  have hadmin : lastAdmin (done ++ [.register name info]) = lastAdmin done :=
    lastAdmin_concat done _
  have hregistered : registered (done ++ [.register name info]) =
      registered done ++ [(name, info)] :=
    registered_concat done _
  have hexternal : external (done ++ [.register name info]) = external done :=
    (external_concat done _).trans (append_nil _)
  unfold insertBlockWithGrants
  dsimp only
  rw [WrapState.appendGrants_eq]
  constructor
  · rw [AList.entries_insert_of_notMem hname, hregistered]
    exact (h.blocks.cons _).trans (perm_append_singleton _ _).symm
  · rw [hadmin]
    exact h.adminBlock
  · rw [hexternal]
    exact h.grantsExternal
  · rw [hadmin, hregistered, hexternal, flatMap_append, flatMap_singleton,
      append_assoc, h.adminBlock]
    refine (h.grants.append_right _).trans ?_
    rw [append_assoc]
    exact perm_append_comm.append_left _
  · rw [hadmin, hregistered, flatMap_append, flatMap_singleton, h.adminBlock]
    exact h.validationErrors.append_right _

theorem Booked.addAlias (h : self.Booked U done) (aliasName target : String) :
    (self.addAlias aliasName target).2.Booked U (done ++ [.addAlias aliasName target]) := by
  have hadmin : lastAdmin (done ++ [.addAlias aliasName target]) = lastAdmin done :=
    lastAdmin_concat done _
  have hregistered : registered (done ++ [.addAlias aliasName target]) = registered done :=
    (registered_concat done _).trans (append_nil _)
  have hexternal : external (done ++ [.addAlias aliasName target]) = external done :=
    (external_concat done _).trans (append_nil _)
  have hsame : self.Booked U (done ++ [.addAlias aliasName target]) := by
    constructor
    · rw [hregistered]
      exact h.blocks
    · rw [hadmin]
      exact h.adminBlock
    · rw [hexternal]
      exact h.grantsExternal
    · rw [hregistered, hadmin, hexternal]
      exact h.grants
    · rw [hregistered, hadmin]
      exact h.validationErrors
  rcases addAlias_cases self aliasName target with heq | ⟨-, heq, -⟩
  · rwa [heq]
  · rw [heq]
    exact ⟨hsame.blocks, hsame.adminBlock, hsame.grantsExternal, hsame.grants,
      hsame.validationErrors⟩

theorem Booked.addWrapGrants (h : self.Booked U done) (grants : List ResourceGrant) :
    RegistrationCore.Booked U { self with wrap := { self.wrap with
        grants := self.wrap.grants ++ grants
        grantsExternal := self.wrap.grantsExternal ++ grants } }
      (done ++ [.addWrapGrants grants]) := by
  have hadmin : lastAdmin (done ++ [.addWrapGrants grants]) = lastAdmin done :=
    lastAdmin_concat done _
  have hregistered : registered (done ++ [.addWrapGrants grants]) = registered done :=
    (registered_concat done _).trans (append_nil _)
  have hexternal : external (done ++ [.addWrapGrants grants]) = external done ++ grants :=
    (external_concat done _).trans (congrArg _ (append_nil _))
  constructor
  · rw [hregistered]
    exact h.blocks
  · rw [hadmin]
    exact h.adminBlock
  · rw [hexternal, ← h.grantsExternal]
  · rw [hregistered, hadmin, hexternal, ← append_assoc]
    exact h.grants.append_right _
  · rw [hregistered, hadmin]
    exact h.validationErrors

theorem outcomes_perm (h : (self.blocks.entries.map fun e ↦ (e.1, e.2)).Perm (registered done)) :
    ((self.blocks.keys.mergeSort fun a b ↦ a ≤ b).map (self.outcomeOf U)).Perm
      ((registered done).map (outcome U self.wrap.adminBlock)) := by
  have hkeys : self.blocks.keys.map (self.outcomeOf U) =
      (self.blocks.entries.map fun e ↦ (e.1, e.2)).map (outcome U self.wrap.adminBlock) := by
    rw [AList.keys, List.keys, map_map, map_map]
    refine map_congr_left fun e he ↦ ?_
    have hlookup : self.blocks.lookup e.1 = some e.2 := AList.mem_lookup_iff.mpr he
    simp only [Function.comp_apply, outcomeOf, hlookup, outcome]
  exact ((mergeSort_perm _ _).map _).trans (hkeys ▸ h.map _)

theorem Booked.setAdminBlock (h : self.Booked U done) (blockId : String) :
    (self.setAdminBlock U blockId).Booked U (done ++ [.setAdminBlock blockId]) := by
  have hadmin : lastAdmin (done ++ [.setAdminBlock blockId]) = blockId := lastAdmin_concat done _
  have hregistered : registered (done ++ [.setAdminBlock blockId]) = registered done :=
    (registered_concat done _).trans (append_nil _)
  have hexternal : external (done ++ [.setAdminBlock blockId]) = external done :=
    (external_concat done _).trans (append_nil _)
  have hperm := @outcomes_perm U { self with wrap := { self.wrap with adminBlock := blockId } } done
    h.blocks
  constructor
  · rw [hregistered]
    exact h.blocks
  · rw [hadmin]
    rfl
  · rw [hexternal]
    exact h.grantsExternal
  · rw [hregistered, hadmin, hexternal, ← h.grantsExternal, ← flatMap_map]
    exact (hperm.flatMap_right _).append_right _
  · rw [hregistered, hadmin, ← flatMap_map]
    exact hperm.flatMap_right _

end Step

/-! ## Whole runs -/

theorem booked_new : new.Booked U [] :=
  ⟨.nil, rfl, rfl, .nil, .nil⟩

theorem Booked.act {U : CaseTables} {self : RegistrationCore} {done : List Act}
    (h : self.Booked U done) {a : Act} (ha : (self.act U a).1 = true) :
    (self.act U a).2.Booked U (done ++ [a]) := by
  cases a with
  | register name info =>
    rcases registerBlockInner_cases U self name info with ⟨err, heq⟩ | ⟨hfree, heq⟩
    · simp only [RegistrationCore.act, heq] at ha
      cases ha
    · simp only [RegistrationCore.act, heq]
      exact h.register hfree.not_block
  | addAlias aliasName target => exact h.addAlias aliasName target
  | addWrapGrants grants =>
    rcases addWrapGrants_cases self grants with ⟨err, heq⟩ | heq
    · simp only [RegistrationCore.act, heq] at ha
      cases ha
    · simp only [RegistrationCore.act, heq]
      exact h.addWrapGrants grants
  | setAdminBlock blockId => exact h.setAdminBlock blockId

theorem Booked.run {U : CaseTables} {self : RegistrationCore} {done : List Act}
    (h : self.Booked U done) (as : List Act) :
    (self.run U as).1.Booked U (done ++ (self.run U as).2) := by
  induction as generalizing self done with
  | nil =>
    rw [RegistrationCore.run, append_nil]
    exact h
  | cons a as ih =>
    rw [RegistrationCore.run]
    dsimp only
    rcases ha : (self.act U a).1 with - | -
    · rw [act_of_refused U ha]
      exact ih h
    · have hrun := ih (h.act ha)
      rw [append_assoc, singleton_append] at hrun
      exact hrun

/-- Whatever a registry is asked before it is sealed, and in whatever order, its grants and its
pending refusals are those of the blocks it has registered under the admin block named last, with
the grants added from outside; and an act it refuses changes nothing. -/
theorem booked_run (acts : List Act) :
    (new.run U acts).1.Booked U (new.run U acts).2 ∧
      ∀ a, ((new.run U acts).1.act U a).1 = false →
        ((new.run U acts).1.act U a).2 = (new.run U acts).1 :=
  ⟨(booked_new U).run acts, fun _ ↦ act_of_refused U⟩

def untypedAppend : ResourceGrant := ⟨"*", "acme__files__*", .append, none⟩

theorem booked_run_refused :
    (new.run .ascii [.setAdminBlock "acme/admin"]).1.Booked .ascii
        (new.run .ascii [.setAdminBlock "acme/admin"]).2 ∧
      ((new.run .ascii [.setAdminBlock "acme/admin"]).1.act .ascii
        (.addWrapGrants [untypedAppend])).2 = (new.run .ascii [.setAdminBlock "acme/admin"]).1 :=
  have h := booked_run .ascii [.setAdminBlock "acme/admin"]
  ⟨h.1, h.2 (.addWrapGrants [untypedAppend]) (by decide)⟩

end RegistrationCore

end WaferRun
