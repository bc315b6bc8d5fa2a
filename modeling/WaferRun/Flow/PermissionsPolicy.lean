import WaferRun.Flow.RestrictiveHeaders
import Mathlib.Data.Set.Lattice

/-!
# Permissions policies

A permissions policy gives each feature an allowlist, and a feature that is not named has the default
allowlist `self`. The intersection of two policies, as it is put together from their members, allows a
feature for the origins both allow it for (`origins_allowlistFor_intersection`).
-/

open List

namespace WaferRun.RestrictiveHeaders

open Text

/-! ## Allowlists -/

def Allowlist.inter : Allowlist → Allowlist → Allowlist
  | .all, list => list
  | list, .all => list
  | .only a, .only b => .only (a.filter (· ∈ b))

def Allowlist.origins : Allowlist → Set (List Char)
  | .all => Set.univ
  | .only items => {i | i ∈ items}

def defaultAllowlist : Allowlist := .only ["self".toList]

def allowlistFor (ms : List Permission) (feature : List Char) : Allowlist :=
  ((ms.find? fun m ↦ m.feature = feature).map (·.allowlist)).getD defaultAllowlist

/-- A member as text. -/
def Permission.print (m : Permission) : List Char :=
  match m.allowlist with
  | .all => m.feature ++ "=*".toList
  | .only items => m.feature ++ "=(".toList ++ join [' '] items ++ [')']

theorem Allowlist.origins_inter (a b : Allowlist) :
    (a.inter b).origins = a.origins ∩ b.origins := by
  rcases a with - | a
  · exact (Set.univ_inter _).symm
  · rcases b with - | b
    · exact (Set.inter_univ _).symm
    · ext i
      simp [inter, origins]

def intersection (a b : List Permission) : List Permission :=
  a.map (fun m ↦ ⟨m.feature, m.allowlist.inter (allowlistFor b m.feature)⟩) ++
    (b.filter fun m ↦ ¬a.any fun n ↦ n.feature = m.feature).map fun m ↦
      ⟨m.feature, m.allowlist.inter defaultAllowlist⟩

theorem permissionsIntersection_eq {earlier later : List Char} {a b : List Permission}
    (ha : parsePermissions earlier = some a) (hb : parsePermissions later = some b) :
    permissionsIntersection earlier later =
      join ", ".toList ((intersection a b).map Permission.print) := by
  rw [permissionsIntersection, ha, hb]
  dsimp only
  rw [intersection, map_append, map_map, map_map]
  rfl

/-- A feature is allowed for the origins both values allow it for. -/
theorem origins_allowlistFor_intersection (a b : List Permission) (feature : List Char) :
    (allowlistFor (intersection a b) feature).origins =
      (allowlistFor a feature).origins ∩ (allowlistFor b feature).origins := by
  have hfind (g : Permission → Allowlist) (l : List Permission) :
      (l.map fun m ↦ (⟨m.feature, g m⟩ : Permission)).find? (fun m ↦ m.feature = feature) =
        (l.find? fun m ↦ m.feature = feature).map fun m ↦ ⟨m.feature, g m⟩ := List.find?_map
  have hnone {l : List Permission} (h : l.find? (fun m ↦ m.feature = feature) = none) :
      allowlistFor l feature = defaultAllowlist := by
    rw [allowlistFor, h]
    rfl
  have hsome {l : List Permission} {m : Permission}
      (h : l.find? (fun m ↦ m.feature = feature) = some m) :
      allowlistFor l feature = m.allowlist := by
    rw [allowlistFor, h]
    rfl
  rcases ha : a.find? fun m ↦ m.feature = feature with - | m
  · -- the members of `b` for this feature are kept
    have hkeep : (b.filter fun m ↦ ¬a.any fun n ↦ n.feature = m.feature).find?
        (fun m ↦ m.feature = feature) = b.find? fun m ↦ m.feature = feature := by
      rw [List.find?_filter]
      congr 1
      funext m
      by_cases hm : m.feature = feature
      · rw [List.find?_eq_none] at ha
        simpa [hm] using ha
      · simp [hm]
    rw [hnone ha]
    rcases hb : b.find? fun m ↦ m.feature = feature with - | m
    · have hab : (intersection a b).find? (fun m ↦ m.feature = feature) = none := by
        rw [intersection, List.find?_append, hfind, hfind, ha, hkeep, hb]
        rfl
      rw [hnone hb, hnone hab, Set.inter_self]
    · have hab : (intersection a b).find? (fun m ↦ m.feature = feature) =
          some ⟨m.feature, m.allowlist.inter defaultAllowlist⟩ := by
        rw [intersection, List.find?_append, hfind, hfind, ha, hkeep, hb]
        rfl
      rw [hsome hb, hsome hab, Allowlist.origins_inter, Set.inter_comm]
  · have hm : m.feature = feature := by simpa using List.find?_some ha
    have hab : (intersection a b).find? (fun m ↦ m.feature = feature) =
        some ⟨m.feature, m.allowlist.inter (allowlistFor b m.feature)⟩ := by
      rw [intersection, List.find?_append, hfind, ha]
      rfl
    rw [hsome ha, hsome hab, Allowlist.origins_inter, hm]

end WaferRun.RestrictiveHeaders
