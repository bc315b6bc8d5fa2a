import Mathlib.Data.List.Flatten
import Mathlib.Data.Prod.Lex
import Mathlib.Data.String.Basic
import WaferRun.Discovery.WebMcp
import WaferRun.Lib.Duplicates
import WaferRun.Router.RouteShape

/-!
# Declarations that collide

The seal refuses a deployment in which two endpoints claim one tool name, or one route with one
method. Where it does not, no endpoint is left out of a manifest for its name
(`reason_ne_duplicateToolName`). Routes that it refuses answer the same requests, and what it says
does not depend on the order in which the blocks are walked (`failOnDuplicateEndpointRoutes_spec`).
-/

open List

namespace WaferRun.Discovery

open Duplicates

variable {δ : Type*} {blocks blocks' shown : List (BlockInfo δ)}

def HttpMethod.display : HttpMethod → String
  | .get => "GET"
  | .post => "POST"
  | .patch => "PATCH"
  | .delete => "DELETE"

def failOn {κ γ : Type*} (duplicates : List (κ × List γ)) : Except (List (κ × List γ)) Unit :=
  if duplicates.isEmpty then .ok () else .error duplicates

theorem failOn_eq_ok_iff {κ γ : Type*} {l : List (κ × List γ)} : failOn l = .ok () ↔ l = [] := by
  cases l <;> simp [failOn]

def listItems (name path : String) : BlockEndpoint :=
  ⟨.get, path, "", .public, "", none, none, none, none, [], false, some ⟨name, ""⟩, false⟩

/-- Two blocks with tools of their own that claim one route. -/
def itemBlocks : List (BlockInfo Unit) :=
  [⟨"shop", [listItems "list_items" "/items/\x7bid\x7d"], ()⟩,
    ⟨"stock", [listItems "list_stock" "/items/\x7bitem\x7d"], ()⟩]

/-! ## Tool names -/

def claimedName (ep : BlockEndpoint) : Option String :=
  (ep.agentTool.map AgentTool.name).filter AgentTool.isValidName

/-- A claimant is a block, a method and a path. -/
def toolClaims (blocks : List (BlockInfo δ)) : List (String × String ×ₗ String ×ₗ String) :=
  blocks.flatMap fun info ↦ info.endpoints.filterMap fun ep ↦
    (claimedName ep).map fun name ↦
      (name, toLex (info.name, toLex (ep.method.display, ep.path)))

def failOnDuplicateToolNames (blocks : List (BlockInfo δ)) :
    Except (List (String × List (String ×ₗ String ×ₗ String))) Unit :=
  failOn (duplicates (toolClaims blocks))

theorem fst_toolClaims (blocks : List (BlockInfo δ)) :
    (toolClaims blocks).map Prod.fst =
      (blocks.flatMap BlockInfo.endpoints).filterMap claimedName := by
  simp [toolClaims, map_flatMap, filterMap_flatMap, map_filterMap, Function.comp_def]

theorem shownEndpoints_sublist (caller : AuthLevel) (levels : List (List (Option AuthLevel))) :
    shownEndpoints caller (publishedEndpoints shown levels)
      <+ shown.flatMap BlockInfo.endpoints := by
  rw [shownEndpoints_publishedEndpoints, visibleBlocks, flatMap_map]
  induction shown generalizing levels with
  | nil => exact nil_sublist _
  | cons block shown ih =>
    rcases levels with - | ⟨level, levels⟩
    · exact nil_sublist _
    · rw [zip_cons_cons, flatMap_cons, flatMap_cons]
      refine Sublist.append ((filter_sublist.map _).trans ?_) (ih levels)
      rw [zip_eq_zip_take_min, map_fst_zip (by simp)]
      exact take_sublist _ _

theorem nameCount_le (hshown : shown <+~ blocks) (levels : List (List (Option AuthLevel)))
    (caller : AuthLevel) (name : String) :
    nameCount caller (publishedEndpoints shown levels) name
      ≤ ((toolClaims blocks).map Prod.fst).count name := by
  obtain ⟨shown', hperm, hsublist⟩ := hshown
  rw [nameCount_eq, fst_toolClaims, count_filterMap]
  refine ((shownEndpoints_sublist caller levels).countP_le).trans ?_
  rw [← (hperm.flatMap_right _).countP_eq]
  refine ((hsublist.flatMap _).countP_le).trans (countP_mono_left fun ep _ h ↦ ?_)
  rw [claims] at h
  rcases htool : ep.agentTool with - | tool <;> rw [htool] at h
  · contradiction
  · obtain ⟨hvalid, rfl⟩ : AgentTool.isValidName tool.name = true ∧ tool.name = name := by
      simpa using h
    simp [claimedName, htool, hvalid]

theorem toolDefect_ne_duplicateToolName (S : SchemaProjection) (ep : BlockEndpoint)
    (tool : AgentTool) (n : ℕ) : toolDefect S ep tool ≠ some (.duplicateToolName n) := by
  have htemplate : ∀ declared, templateDefect ep.path declared ≠ some (.duplicateToolName n) := by
    intro declared
    unfold templateDefect
    repeat' split
    all_goals simp
  intro h
  simp only [toolDefect] at h
  split_ifs at h
  all_goals first
    | contradiction
    | cases h
    | split at h <;> simp_all

theorem exists_claimsName {S : SchemaProjection} {count : String → ℕ} {caller : AuthLevel}
    {mode : Mode} {p : Published δ} {r : WebMcpRefusalReport} {n : ℕ}
    (hr : r ∈ (projectEndpoint S count caller mode p).2) (hscope : r.scope = .tool)
    (hreason : r.reason = .duplicateToolName n) :
    ∃ name, claimsName caller name p = true ∧ count name ≠ 1 := by
  obtain ⟨block, ep, level⟩ := p
  simp only [projectEndpoint] at hr
  rcases htool : ep.agentTool with - | tool <;> simp only [htool] at hr
  · exact absurd hr not_mem_nil
  rcases level with - | required <;> simp only at hr
  · exact absurd hr not_mem_nil
  rcases hdefect : toolDefect S ep tool with - | defect <;> simp only [hdefect] at hr
  · split_ifs at hr with hvisible hcount
    · exact absurd hr not_mem_nil
    · refine ⟨tool.name, ?_, hcount⟩
      simpa [claimsName, htool, isValidName_of_toolDefect S hdefect, visibleAt] using hvisible
    · obtain ⟨_, _, rfl⟩ := mem_map.mp hr
      contradiction
  · obtain rfl := mem_singleton.mp hr
    have heq := hdefect.trans (congrArg some hreason)
    exact absurd heq (toolDefect_ne_duplicateToolName S ep tool n)

/-- **Where the seal lets pass, no tool is missing for its name.** Whichever blocks are shown to
whichever caller, no endpoint is refused because another one claims its name. -/
theorem reason_ne_duplicateToolName (S : SchemaProjection)
    (h : failOnDuplicateToolNames blocks = .ok ()) (hshown : shown <+~ blocks)
    (levels : List (List (Option AuthLevel))) (caller : AuthLevel) (mode : Mode) :
    ∀ r ∈ (webmcpReportResolved S shown levels caller mode).2, r.scope = .tool →
      ∀ n, r.reason ≠ .duplicateToolName n := by
  intro r hr hscope n hreason
  obtain ⟨p, hp, hr⟩ := mem_flatMap.mp hr
  obtain ⟨name, hclaims, hcount⟩ := exists_claimsName hr hscope hreason
  have hnodup := duplicates_eq_nil_iff.mp (failOn_eq_ok_iff.mp h)
  have hle := (nameCount_le hshown levels caller name).trans (nodup_iff_count_le_one.mp hnodup name)
  exact hcount (le_antisymm hle (countP_pos_iff.mpr ⟨p, hp, hclaims⟩))

theorem reason_ne_duplicateToolName_items :
    failOnDuplicateToolNames itemBlocks = .ok () ∧
      ∀ r ∈ (webmcpReportResolved
          ⟨fun _ ↦ ⟨.object [], ["id"], [], [], [], [], [], [], [], [], []⟩, fun _ ↦ ⟨none, none⟩⟩
          itemBlocks [[some .public], [some .public]] .public .declared).2,
        r.scope = .tool → ∀ n, r.reason ≠ .duplicateToolName n := by
  have h : failOnDuplicateToolNames itemBlocks = .ok () :=
    failOn_eq_ok_iff.mpr (duplicates_eq_nil_iff.mpr (by decide))
  exact ⟨h, reason_ne_duplicateToolName _ h (Subperm.refl _) _ _ _⟩

/-! ## Routes -/

/-- A claimant is a block and a path. -/
def routeClaims (blocks : List (BlockInfo δ)) : List ((String ×ₗ String) × String ×ₗ String) :=
  blocks.flatMap fun info ↦ info.endpoints.map fun ep ↦
    (toLex (.ofList (Router.routeShape ep.path.toList), ep.method.display),
      toLex (info.name, ep.path))

def failOnDuplicateEndpointRoutes (blocks : List (BlockInfo δ)) :
    Except (List ((String ×ₗ String) × List (String ×ₗ String))) Unit :=
  failOn (duplicates (routeClaims blocks))

/-- **The seal tells every collision of routes, in one order.** It lets a deployment pass exactly if
no method and shape is declared twice. However the blocks are walked it refuses with the same groups,
which are those of all the endpoints with one method whose paths have one shape, and these match the
same paths. -/
theorem failOnDuplicateEndpointRoutes_spec (h : blocks.Perm blocks') :
    failOnDuplicateEndpointRoutes blocks' = failOnDuplicateEndpointRoutes blocks ∧
      (failOnDuplicateEndpointRoutes blocks = .ok () ↔ ((routeClaims blocks).map Prod.fst).Nodup) ∧
      (∀ collisions, failOnDuplicateEndpointRoutes blocks = .error collisions →
        ∀ route group, (route, group) ∈ collisions ↔ 1 < group.length ∧ group.Pairwise (· ≤ ·) ∧
          group.Perm (((routeClaims blocks).filter (·.1 = route)).map Prod.snd)) ∧
      ∀ c ∈ routeClaims blocks, ∀ c' ∈ routeClaims blocks, c.1 = c'.1 → ∀ path,
        Router.matchPath (ofLex c.2).2.toList path
          = Router.matchPath (ofLex c'.2).2.toList path := by
  refine ⟨?_, failOn_eq_ok_iff.trans duplicates_eq_nil_iff,
    fun collisions hfail route group ↦ ?_, ?_⟩
  · exact congrArg failOn (duplicates_of_perm (h.flatMap_right _).symm)
  · rw [failOnDuplicateEndpointRoutes, failOn] at hfail
    split at hfail
    · contradiction
    · rw [← Except.error.inj hfail, mem_duplicates]
  · have hshape : ∀ c ∈ routeClaims blocks, ∀ path,
        Router.matchPath (ofLex c.2).2.toList path
          = Router.matchPath (ofLex c.1).1.toList path := by
      intro c hc path
      obtain ⟨info, -, hc⟩ := mem_flatMap.mp hc
      obtain ⟨ep, -, rfl⟩ := mem_map.mp hc
      simp [Router.matchPath_routeShape]
    intro c hc c' hc' heq path
    rw [hshape c hc, hshape c' hc', heq]

theorem failOnDuplicateEndpointRoutes_spec_items :
    failOnDuplicateEndpointRoutes itemBlocks.reverse = failOnDuplicateEndpointRoutes itemBlocks ∧
      failOnDuplicateEndpointRoutes itemBlocks ≠ .ok () := by
  have h := failOnDuplicateEndpointRoutes_spec (reverse_perm itemBlocks).symm
  exact ⟨h.1, mt h.2.1.mp (by decide)⟩

end WaferRun.Discovery
