import Mathlib.Data.List.Sort
import Mathlib.Data.String.Basic

/-!
# The lockfile

`wafer.lock` pins packages by name. A package is recorded in place of an entry of the same name,
keeping the capabilities the operator approved for that name, and the entries are written in the
order of their names. The text of the file stands for what is parsed from it: a written lockfile is
read back as it was written.
-/

open List

namespace WaferRun.Install

variable {κ : Type}

/-- An entry of the lockfile; `κ` are capabilities an operator approves. -/
structure LockfilePackage (κ : Type) where
  name : String
  version : String
  sha256 : String
  wasmSha256 : String
  source : String
  capabilities : Option κ
  deriving DecidableEq

structure Lockfile (κ : Type) where
  version : ℕ
  packages : List (LockfilePackage κ)
  deriving DecidableEq

def schemaVersion : ℕ := 2

def Lockfile.new : Lockfile κ := ⟨schemaVersion, []⟩

def sortPackages (packages : List (LockfilePackage κ)) : List (LockfilePackage κ) :=
  packages.insertionSort fun a b ↦ a.name ≤ b.name

def setPackage (pkg : LockfilePackage κ) : List (LockfilePackage κ) → List (LockfilePackage κ)
  | [] => [pkg]
  | p :: packages => if p.name = pkg.name then pkg :: packages else p :: setPackage pkg packages

namespace Lockfile

def insertOrReplace (lf : Lockfile κ) (pkg : LockfilePackage κ) : Lockfile κ :=
  { lf with packages := sortPackages (setPackage pkg lf.packages) }

def named? (lf : Lockfile κ) (name : String) : Option (LockfilePackage κ) :=
  lf.packages.find? fun p ↦ p.name = name

def pinned? (lf : Lockfile κ) (name version : String) : Option (LockfilePackage κ) :=
  lf.packages.find? fun p ↦ p.name = name ∧ p.version = version

/-- The capabilities of the entry that gives way are carried forward. -/
def carry (lf : Lockfile κ) (pkg : LockfilePackage κ) : LockfilePackage κ :=
  match lf.named? pkg.name with
  | some existing => { pkg with capabilities := existing.capabilities }
  | none => pkg

def recordResolved (lf : Lockfile κ) (pkg : LockfilePackage κ) : Lockfile κ :=
  lf.insertOrReplace (lf.carry pkg)

/-- `retain` of the packages a manifest lists. -/
def prune (lf : Lockfile κ) (kept : List String) : Lockfile κ :=
  { lf with packages := lf.packages.filter fun p ↦ kept.contains p.name }

end Lockfile

inductive LockText (κ : Type)
  | missing
  | unreadable
  | text (lf : Lockfile κ)
  deriving DecidableEq

inductive LoadError
  | unreadable
  | unsupportedVersion (version : ℕ)
  deriving DecidableEq, Repr

/-- `Lockfile::load`; a missing file is an empty lockfile to those who ask. -/
def LockText.load : LockText κ → Except LoadError (Lockfile κ)
  | .missing => .ok .new
  | .unreadable => .error .unreadable
  | .text lf => if lf.version ≠ schemaVersion then .error (.unsupportedVersion lf.version) else .ok lf

/-- `to_toml_string` and the rename that puts it in place. -/
def Lockfile.write (lf : Lockfile κ) : LockText κ :=
  .text { lf with packages := sortPackages lf.packages }

/-! ## Distinct names -/

def DistinctNames (packages : List (LockfilePackage κ)) : Prop :=
  (packages.map LockfilePackage.name).Nodup

/-- The entries are in the order of their names, no two of which are the same. -/
def Canonical (packages : List (LockfilePackage κ)) : Prop :=
  packages.Pairwise fun a b ↦ a.name < b.name

theorem Canonical.distinctNames {packages : List (LockfilePackage κ)} (h : Canonical packages) :
    DistinctNames packages := by
  rw [DistinctNames, List.Nodup, pairwise_map]
  exact List.Pairwise.imp ne_of_lt h

theorem DistinctNames.eq {packages : List (LockfilePackage κ)} (h : DistinctNames packages)
    {p q : LockfilePackage κ} (hp : p ∈ packages) (hq : q ∈ packages) (hname : p.name = q.name) :
    p = q :=
  inj_on_of_nodup_map h hp hq hname

theorem sortPackages_perm (packages : List (LockfilePackage κ)) :
    (sortPackages packages).Perm packages :=
  perm_insertionSort _ _

theorem mem_sortPackages {packages : List (LockfilePackage κ)} {p : LockfilePackage κ} :
    p ∈ sortPackages packages ↔ p ∈ packages :=
  (sortPackages_perm packages).mem_iff

theorem distinctNames_sortPackages {packages : List (LockfilePackage κ)} :
    DistinctNames (sortPackages packages) ↔ DistinctNames packages :=
  ((sortPackages_perm packages).map LockfilePackage.name).nodup_iff

theorem DistinctNames.canonical_sortPackages {packages : List (LockfilePackage κ)}
    (h : DistinctNames packages) : Canonical (sortPackages packages) := by
  have : Std.Total (fun a b : LockfilePackage κ ↦ a.name ≤ b.name) :=
    ⟨fun a b ↦ le_total a.name b.name⟩
  have : IsTrans (LockfilePackage κ) (fun a b ↦ a.name ≤ b.name) := ⟨fun _ _ _ ↦ le_trans⟩
  have hsorted := pairwise_insertionSort
    (fun a b : LockfilePackage κ ↦ a.name ≤ b.name) packages
  have hnodup := distinctNames_sortPackages.mpr h
  rw [DistinctNames, List.Nodup, pairwise_map] at hnodup
  exact (hsorted.and hnodup).imp fun h ↦ lt_of_le_of_ne h.1 h.2

theorem mem_setPackage {packages : List (LockfilePackage κ)} (h : DistinctNames packages)
    {pkg q : LockfilePackage κ} :
    q ∈ setPackage pkg packages ↔ q = pkg ∨ q ∈ packages ∧ q.name ≠ pkg.name := by
  induction packages with
  | nil => simp [setPackage]
  | cons p packages ih =>
    obtain ⟨hp, hrest⟩ := nodup_cons.mp h
    have hnot {r : LockfilePackage κ} (hr : r ∈ packages) : r.name ≠ p.name :=
      fun hname ↦ hp (hname ▸ mem_map_of_mem hr)
    rw [setPackage]
    split
    · rename_i hname
      rw [mem_cons, mem_cons]
      refine or_congr_right ⟨fun hq ↦ ⟨Or.inr hq, hname ▸ hnot hq⟩, ?_⟩
      rintro ⟨rfl | hq, hne⟩
      · exact absurd hname hne
      · exact hq
    · rename_i hname
      rw [mem_cons, ih hrest, mem_cons]
      constructor
      · rintro (rfl | rfl | ⟨hq, hne⟩)
        · exact Or.inr ⟨Or.inl rfl, hname⟩
        · exact Or.inl rfl
        · exact Or.inr ⟨Or.inr hq, hne⟩
      · rintro (rfl | ⟨rfl | hq, hne⟩)
        · exact Or.inr (Or.inl rfl)
        · exact Or.inl rfl
        · exact Or.inr (Or.inr ⟨hq, hne⟩)

theorem map_name_setPackage_subset (pkg : LockfilePackage κ)
    (packages : List (LockfilePackage κ)) {q : LockfilePackage κ}
    (hq : q ∈ setPackage pkg packages) : q = pkg ∨ q ∈ packages := by
  induction packages with
  | nil => exact Or.inl (mem_singleton.mp hq)
  | cons p packages ih =>
    rw [setPackage] at hq
    split at hq
    · exact (mem_cons.mp hq).imp_right (mem_cons_of_mem _)
    · rcases mem_cons.mp hq with rfl | hq
      · exact Or.inr mem_cons_self
      · exact (ih hq).imp_right (mem_cons_of_mem _)

theorem DistinctNames.setPackage {packages : List (LockfilePackage κ)} (h : DistinctNames packages)
    (pkg : LockfilePackage κ) : DistinctNames (setPackage pkg packages) := by
  induction packages with
  | nil => exact nodup_singleton _
  | cons p packages ih =>
    obtain ⟨hp, hrest⟩ := nodup_cons.mp h
    rw [Install.setPackage]
    split
    · rename_i hname
      exact nodup_cons.mpr ⟨hname ▸ hp, hrest⟩
    · rename_i hname
      refine nodup_cons.mpr ⟨fun hmem ↦ ?_, ih hrest⟩
      obtain ⟨q, hq, hqname⟩ := mem_map.mp hmem
      rcases map_name_setPackage_subset pkg packages hq with rfl | hq
      · exact hname hqname.symm
      · exact hp (hqname ▸ mem_map_of_mem hq)

theorem Lockfile.named?_eq_some_iff {lf : Lockfile κ} (h : DistinctNames lf.packages)
    {name : String} {p : LockfilePackage κ} :
    lf.named? name = some p ↔ p ∈ lf.packages ∧ p.name = name := by
  constructor
  · intro hp
    exact ⟨List.mem_of_find?_eq_some hp, by simpa using List.find?_some hp⟩
  · rintro ⟨hp, rfl⟩
    have hsome : (lf.named? p.name).isSome :=
      List.find?_isSome.mpr ⟨p, hp, decide_eq_true rfl⟩
    obtain ⟨q, hq⟩ := Option.isSome_iff_exists.mp hsome
    have hname : q.name = p.name := by simpa using List.find?_some hq
    rw [hq, h.eq (List.mem_of_find?_eq_some hq) hp hname]

theorem Lockfile.carry_name (lf : Lockfile κ) (pkg : LockfilePackage κ) :
    (lf.carry pkg).name = pkg.name := by
  unfold Lockfile.carry
  split <;> rfl

theorem Lockfile.carry_version (lf : Lockfile κ) (pkg : LockfilePackage κ) :
    (lf.carry pkg).version = pkg.version := by
  unfold Lockfile.carry
  split <;> rfl

theorem Lockfile.carry_sha256 (lf : Lockfile κ) (pkg : LockfilePackage κ) :
    (lf.carry pkg).sha256 = pkg.sha256 := by
  unfold Lockfile.carry
  split <;> rfl

theorem Lockfile.carry_capabilities {lf : Lockfile κ} (h : DistinctNames lf.packages)
    {pkg p : LockfilePackage κ} (hp : p ∈ lf.packages) (hname : p.name = pkg.name) :
    (lf.carry pkg).capabilities = p.capabilities := by
  unfold Lockfile.carry
  rw [(Lockfile.named?_eq_some_iff h).mpr ⟨hp, hname⟩]

theorem Lockfile.mem_recordResolved {lf : Lockfile κ} (h : DistinctNames lf.packages)
    {pkg q : LockfilePackage κ} :
    q ∈ (lf.recordResolved pkg).packages ↔
      q = lf.carry pkg ∨ q ∈ lf.packages ∧ q.name ≠ pkg.name := by
  rw [recordResolved, insertOrReplace, mem_sortPackages, mem_setPackage h, carry_name]

theorem Lockfile.distinctNames_recordResolved {lf : Lockfile κ} (h : DistinctNames lf.packages)
    (pkg : LockfilePackage κ) : DistinctNames (lf.recordResolved pkg).packages :=
  distinctNames_sortPackages.mpr (h.setPackage _)

end WaferRun.Install
