import WaferRun.Runtime.Registration

/-!
# Names of blocks

A name that is dispatched to is a block or an alias of one. When the registry is complete it is
frozen in a map that has both, and the dispatch reads that map under the name an alias stands for.
The registrations and the aliases may have come in any order. The three refusals on the way keep
names apart and aliases to one hop, so it does not matter whether the map is read under the one
name or the other (`names_resolve`).
-/

open List

namespace WaferRun

open Text

structure Registry extends RegistrationCore where
  allBlocks : AList fun _ : String ↦ BlockInfo

def insertSome {β : Type*} (map : AList fun _ : String ↦ β) (name : String) :
    Option β → AList fun _ : String ↦ β
  | some value => map.insert name value
  | none => map

namespace RegistrationCore

def canonicalize (self : RegistrationCore) (name : String) : String :=
  (self.aliases.lookup name).getD name

def rebuildAllBlocks (self : RegistrationCore) : Registry :=
  let map := self.blocks.entries.foldl (fun map e ↦ map.insert e.1 e.2) ∅
  let map := self.aliases.entries.foldl (fun map e ↦
    insertSome map e.1 (self.blocks.lookup e.2)) map
  { self with allBlocks := map }

end RegistrationCore

def Registry.lookupWithAlias (self : Registry) (name : String) : Option (String × BlockInfo) :=
  let resolved := self.canonicalize name
  (self.allBlocks.lookup resolved).map fun block ↦ (resolved, block)

namespace RegistrationCore

/-- Inserting entries, some of which are skipped. -/
theorem lookup_foldl_insertSome {β γ : Type*} (f : γ → Option β) {l : List (Σ _ : String, γ)}
    (hl : l.NodupKeys) (m : AList fun _ : String ↦ β) (name : String) :
    (l.foldl (fun m e ↦ insertSome m e.1 (f e.2)) m).lookup name =
      ((l.dlookup name).bind f).or (m.lookup name) := by
  induction l generalizing m with
  | nil => rfl
  | cons e l ih =>
    obtain ⟨key, c⟩ := e
    obtain ⟨hkey, hl⟩ := nodupKeys_cons.mp hl
    rw [foldl_cons, ih hl]
    by_cases hname : name = key
    · subst hname
      rw [dlookup_eq_none.mpr hkey, dlookup_cons_eq, Option.bind_none, Option.none_or,
        Option.bind_some]
      cases f c with
      | none => rfl
      | some b => rw [insertSome, AList.lookup_insert, Option.some_or]
    · rw [dlookup_cons_ne _ _ hname]
      cases f c with
      | none => rfl
      | some b => rw [insertSome, AList.lookup_insert_ne hname]

theorem lookup_allBlocks (self : RegistrationCore) (name : String) :
    self.rebuildAllBlocks.allBlocks.lookup name =
      ((self.aliases.lookup name).bind self.blocks.lookup).or (self.blocks.lookup name) := by
  have hblocks := lookup_foldl_insertSome some self.blocks.nodupKeys ∅ name
  rw [Option.bind_fun_some, AList.lookup_empty, Option.or_none] at hblocks
  have haliases := lookup_foldl_insertSome self.blocks.lookup self.aliases.nodupKeys
    (self.blocks.entries.foldl (fun map e ↦ map.insert e.1 e.2) ∅) name
  exact haliases.trans (congrArg _ hblocks)

/-! ## Names in a registry -/

/-- No name is a block and an alias, no alias stands for an alias, and blocks have their own names.
-/
structure Named (core : RegistrationCore) : Prop where
  apart : ∀ name ∈ core.blocks, name ∉ core.aliases
  oneHop : ∀ aliasName target, core.aliases.lookup aliasName = some target → target ∉ core.aliases
  own : ∀ name info, core.blocks.lookup name = some info → info.name = name

theorem named_new : new.Named where
  apart name h := absurd h (AList.notMem_empty name)
  oneHop _ _ h := by cases h
  own _ _ h := by cases h

variable {U : CaseTables} {self : RegistrationCore}

theorem Named.addAlias (h : self.Named) {aliasName target : String}
    (hfree : self.Bindable aliasName target) :
    Named { self with aliases := self.aliases.insert aliasName target } where
  apart name hname hmem := by
    rcases (AList.mem_insert _).mp hmem with rfl | hmem
    · exact hfree.not_block hname
    · exact h.apart name hname hmem
  oneHop a t ht hmem := by
    by_cases ha : a = aliasName
    · rw [ha, AList.lookup_insert] at ht
      obtain rfl : target = t := Option.some.inj ht
      rcases (AList.mem_insert _).mp hmem with heq | hmem
      · exact hfree.ne heq.symm
      · exact hfree.target_fresh hmem
    · rw [AList.lookup_insert_ne ha] at ht
      rcases (AList.mem_insert _).mp hmem with rfl | hmem
      · exact hfree.not_target ⟨a, t⟩ (AList.mem_lookup_iff.mp ht) rfl
      · exact h.oneHop a t ht hmem
  own := h.own

theorem Named.register (h : self.Named) {name : String} {info : BlockInfo}
    (halias : name ∉ self.aliases) (hname : info.name = name) :
    (self.insertBlockWithGrants U name info).Named where
  apart n hn hmem := by
    rcases (AList.mem_insert _).mp hn with rfl | hn
    · exact halias hmem
    · exact h.apart n hn hmem
  oneHop := h.oneHop
  own n i hi := by
    rw [insertBlockWithGrants] at hi
    by_cases hn : n = name
    · subst hn
      rw [AList.lookup_insert] at hi
      rw [← Option.some.inj hi, hname]
    · rw [AList.lookup_insert_ne hn] at hi
      exact h.own n i hi

/-- What one act does to the names: it keeps them in order, and it keeps every alias. -/
theorem Named.act (h : self.Named) (a : Act) : (self.act U a).2.Named ∧
    ∀ aliasName target, self.aliases.lookup aliasName = some target →
      (self.act U a).2.aliases.lookup aliasName = some target := by
  cases a with
  | register name info =>
    rcases registerBlockInner_cases U self name info with ⟨err, heq⟩ | ⟨hfree, heq⟩
    · simp only [RegistrationCore.act, heq]
      exact ⟨h, fun _ _ ht ↦ ht⟩
    · simp only [RegistrationCore.act, heq]
      exact ⟨h.register hfree.not_alias hfree.own, fun _ _ ht ↦ ht⟩
  | addAlias aliasName target =>
    rw [RegistrationCore.act]
    dsimp only
    rcases addAlias_cases self aliasName target with heq | ⟨-, heq, hfree⟩
    · rw [heq]
      exact ⟨h, fun _ _ ht ↦ ht⟩
    · rw [heq]
      refine ⟨h.addAlias hfree, fun a t ht ↦ ?_⟩
      have hne : a ≠ aliasName := by
        rintro rfl
        exact hfree.fresh (AList.lookup_isSome.mp (ht ▸ rfl))
      exact (AList.lookup_insert_ne hne).trans ht
  | addWrapGrants grants =>
    rcases addWrapGrants_cases self grants with ⟨err, heq⟩ | heq <;>
      simp only [RegistrationCore.act, heq]
    · exact ⟨h, fun _ _ ht ↦ ht⟩
    · exact ⟨⟨h.apart, h.oneHop, h.own⟩, fun _ _ ht ↦ ht⟩
  | setAdminBlock blockId => exact ⟨⟨h.apart, h.oneHop, h.own⟩, fun _ _ ht ↦ ht⟩

theorem Named.run (h : self.Named) (acts : List Act) : (self.run U acts).1.Named ∧
    ∀ aliasName target, self.aliases.lookup aliasName = some target →
      (self.run U acts).1.aliases.lookup aliasName = some target := by
  induction acts generalizing self with
  | nil => exact ⟨h, fun _ _ ht ↦ ht⟩
  | cons a acts ih =>
    have hact := h.act (U := U) a
    have hrun := ih hact.1
    exact ⟨hrun.1, fun aliasName target ht ↦ hrun.2 aliasName target (hact.2 aliasName target ht)⟩

theorem run_append (self : RegistrationCore) (acts acts' : List Act) :
    (self.run U (acts ++ acts')).1 = ((self.run U acts).1.run U acts').1 := by
  induction acts generalizing self with
  | nil => rfl
  | cons a acts ih => exact ih _

theorem Named.canonicalize (h : self.Named) (name : String) :
    self.rebuildAllBlocks.allBlocks.lookup (self.canonicalize name) =
      self.rebuildAllBlocks.allBlocks.lookup name ∧
    self.rebuildAllBlocks.allBlocks.lookup (self.canonicalize name) =
      self.blocks.lookup (self.canonicalize name) := by
  rw [lookup_allBlocks, lookup_allBlocks, RegistrationCore.canonicalize]
  cases hname : self.aliases.lookup name with
  | none => simp [hname]
  | some target =>
    have htarget : self.aliases.lookup target = none :=
      AList.lookup_eq_none.mpr (h.oneHop name target hname)
    have hblock : self.blocks.lookup name = none := by
      refine AList.lookup_eq_none.mpr fun hmem ↦ h.apart name hmem ?_
      exact AList.lookup_isSome.mp (hname ▸ rfl)
    simp [htarget, hblock]

/-- **Names.** Whatever a registry was asked before it was frozen, its blocks and its aliases have
different names, no alias stands for an alias or was ever changed, and the dispatch finds what the
frozen map has under the name as written: the block an alias stands for or the one of that name, which
is registered under its own name. -/
theorem names_resolve (U : CaseTables) (acts : List Act) :
    let self := (new.run U acts).1.rebuildAllBlocks
    (∀ name ∈ self.blocks, name ∉ self.aliases) ∧
    (∀ aliasName target, self.aliases.lookup aliasName = some target →
      target ∉ self.aliases) ∧
    (∀ before after, acts = before ++ after → ∀ aliasName target,
      (new.run U before).1.aliases.lookup aliasName = some target →
        self.aliases.lookup aliasName = some target) ∧
    ∀ name, (self.lookupWithAlias name).map Prod.snd = self.allBlocks.lookup name ∧
      self.allBlocks.lookup name =
        ((self.aliases.lookup name).bind self.blocks.lookup).or (self.blocks.lookup name) ∧
      ∀ resolved block, self.lookupWithAlias name = some (resolved, block) →
        self.blocks.lookup resolved = some block ∧ block.name = resolved := by
  have h := (named_new.run (U := U) acts).1
  refine ⟨h.apart, h.oneHop, ?_, ?_⟩
  · rintro before after rfl aliasName target ht
    have hkept := ((named_new.run (U := U) before).1.run (U := U) after).2 aliasName target ht
    rwa [← run_append] at hkept
  · intro name
    obtain ⟨hwritten, hblocks⟩ := h.canonicalize name
    refine ⟨?_, lookup_allBlocks _ name, ?_⟩
    · rw [Registry.lookupWithAlias, Option.map_map, ← hwritten]
      exact Option.map_id'
    · intro resolved block hfound
      obtain ⟨b, hb, heq⟩ := Option.map_eq_some_iff.mp hfound
      cases heq
      have hregistered := hblocks.symm.trans hb
      exact ⟨hregistered, h.own _ _ hregistered⟩

end RegistrationCore

end WaferRun
