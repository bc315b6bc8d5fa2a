import WaferRun.Discovery.SchemaRef
import WaferRun.Headers.MergeOutcome
import WaferRun.Lib.CspMatching

/-!
# Directives that an operator can only narrow

For `base-uri` and `form-action` the merge keeps the operator's sources that the baseline has too,
in the operator's spelling. The comparison ignores case, and the path of a source does not. So the
merged list may admit URLs that the baseline does not, and it does not exactly if the paths that the
operator writes are covered by the baseline (`narrowOnly_within_iff`).
-/

open List

namespace WaferRun.SecurityHeaders

open Text Csp

def decodePiece (piece : List Char) : List UInt8 := Percent.decodeBytes (Percent.utf8 piece)

theorem decodeBytes_ne_nil {bytes : List UInt8} (h : bytes ≠ []) :
    Percent.decodeBytes bytes ≠ [] := by
  obtain ⟨b, rest, rfl⟩ := exists_cons_of_ne_nil h
  unfold Percent.decodeBytes
  repeat' split
  all_goals exact cons_ne_nil _ _

theorem eq_nil_of_decodePiece (piece : List Char) (h : decodePiece piece = decodePiece []) :
    piece = [] := by
  rcases piece with _ | ⟨c, piece⟩
  · rfl
  · have hempty : decodePiece [] = [] := by
      rw [decodePiece, Percent.utf8, flatMap_nil, Percent.decodeBytes]
    rw [hempty] at h
    refine absurd h (decodeBytes_ne_nil ?_)
    rw [Percent.utf8, flatMap_cons]
    exact append_ne_nil_of_left_ne_nil String.utf8EncodeChar_ne_nil _

/-- The operator's spellings of the sources of the baseline admit what the baseline does, or there
is a `'none'` among them. -/
def Narrows (base sources : List Word) : Prop :=
  (∃ s ∈ sources, isNone s = true) ∨
    ∀ s ∈ sources, (∃ b ∈ base, eqIgnoreAsciiCase b s = true) → CoveredBy decodePiece base s

theorem not_sourceAdmits_noneSource (page : Origin) (u : Url) :
    ¬SourceAdmits decodePiece page noneSource u := by
  rintro ⟨e, he, hmatch, -⟩
  have hnone : SourceExpression.Reads noneSource (.quoted "none".toList) := ⟨.quoted _, by decide⟩
  rw [SourceExpression.reads_unique he hnone] at hmatch
  exact absurd hmatch.1 (by decide)

theorem within_narrow_iff (base sources : List Word) :
    Within decodePiece (narrow base sources) base ↔ Narrows base sources := by
  by_cases hnone : ∃ s ∈ sources, isNone s = true
  · rw [narrow_of_isNone hnone]
    refine ⟨fun _ ↦ .inl hnone, fun _ page u hadmits ↦ ?_⟩
    obtain ⟨source, hsource, hadmits⟩ := hadmits
    rw [mem_singleton.mp hsource] at hadmits
    exact absurd hadmits (not_sourceAdmits_noneSource page u)
  · have hmem (s : Word) : s ∈ sources.filter (known base) ↔
        s ∈ sources ∧ ∃ b ∈ base, eqIgnoreAsciiCase b s = true := by
      rw [mem_filter]
      refine and_congr_right fun hs ↦ ?_
      rw [known, Bool.eq_false_iff.mpr fun h ↦ hnone ⟨s, hs, h⟩, Bool.false_or, any_eq_true]
    rw [narrow_of_not_isNone hnone, Narrows, or_iff_right hnone]
    split
    · rw [within_iff eq_nil_of_decodePiece]
      exact ⟨fun h s hs hb ↦ h s ((hmem s).mpr ⟨hs, hb⟩),
        fun h s hs ↦ h s ((hmem s).mp hs).1 ((hmem s).mp hs).2⟩
    · -- nothing is kept, and the baseline's list stays
      rename_i hkept
      refine ⟨fun _ s hs hb ↦ absurd ((hmem s).mpr ⟨hs, hb⟩) ?_, fun _ _ _ h ↦ h⟩
      rw [not_not.mp hkept]
      exact not_mem_nil

/-! ## The merge -/

variable {sameOrigin : Word → Bool} {baseline custom : List Char} {name : Word} {base : List Word}

theorem mergedSources_of_narrowOnly (hname : name ∈ narrowOnlyDirectives)
    (hbase : counted baseline name = some base) :
    mergedSources sameOrigin baseline custom name =
      some ((counted custom name).elim base (narrow base)) := by
  have hnot (sources : List Word) : ¬WhollyRefused name sources :=
    not_or.mpr ⟨(narrowOnly_ne hname).1, fun h ↦ (narrowOnly_ne hname).2 h.1⟩
  unfold mergedSources
  split
  · rename_i sources hsources
    rw [hbase, entryAfter_some (hnot sources), if_pos hname, hsources]
    rfl
  · rename_i hnone
    rw [hbase, hnone]
    rfl

/-- **The merge only narrows exactly if the paths it keeps are covered.** -/
theorem narrowOnly_within_iff (sameOrigin : Word → Bool) (baseline custom : List Char) :
    (∀ name ∈ narrowOnlyDirectives, ∀ base, counted baseline name = some base →
      ∃ merged, sourcesOf (read (mergeCsp sameOrigin baseline custom).policy) name = some merged ∧
        Within decodePiece merged base) ↔
    ∀ name ∈ narrowOnlyDirectives, ∀ base sources, counted baseline name = some base →
      counted custom name = some sources → Narrows base sources := by
  refine forall₂_congr fun name hname ↦ forall_congr' fun base ↦ ?_
  refine ⟨fun h sources hbase hsources ↦ ?_, fun h hbase ↦ ?_⟩
  · obtain ⟨merged, hmerged, hwithin⟩ := h hbase
    rw [sourcesOf_mergeCsp, mergedSources_of_narrowOnly hname hbase, hsources] at hmerged
    rw [← Option.some.inj hmerged] at hwithin
    exact (within_narrow_iff base sources).mp hwithin
  · rw [sourcesOf_mergeCsp, mergedSources_of_narrowOnly hname hbase]
    rcases hsources : counted custom name with _ | sources
    · exact ⟨base, rfl, fun _ _ h ↦ h⟩
    · exact ⟨_, rfl, (within_narrow_iff base sources).mpr (h sources hbase hsources)⟩

/-- The operator's own case of a path opens it. -/
theorem path_case_widens : ∃ (sameOrigin : Word → Bool) (baseline custom : List Char),
    ¬∀ name ∈ narrowOnlyDirectives, ∀ base, counted baseline name = some base →
      ∃ merged, sourcesOf (read (mergeCsp sameOrigin baseline custom).policy) name = some merged ∧
        Within decodePiece merged base := by
  refine ⟨fun _ ↦ true, "form-action https://a.example/Pay".toList,
    "form-action https://a.example/pay".toList, fun h ↦ ?_⟩
  have hname : "form-action".toList ∈ narrowOnlyDirectives := by decide
  have hbase : counted "form-action https://a.example/Pay".toList "form-action".toList =
      some ["https://a.example/Pay".toList] := by decide
  have hsources : counted "form-action https://a.example/pay".toList "form-action".toList =
      some ["https://a.example/pay".toList] := by decide
  obtain ⟨merged, hmerged, hwithin⟩ := h _ hname _ hbase
  rw [sourcesOf_mergeCsp, mergedSources_of_narrowOnly hname hbase, hsources] at hmerged
  rw [← Option.some.inj hmerged] at hwithin
  have hnarrows : Narrows ["https://a.example/Pay".toList] ["https://a.example/pay".toList] :=
    (within_narrow_iff _ _).mp hwithin
  have hcovered := hnarrows.resolve_left (by decide) "https://a.example/pay".toList
    mem_cons_self ⟨"https://a.example/Pay".toList, mem_cons_self, by decide⟩
  let e : SourceExpression := .host (some "https".toList) "a.example".toList none "/pay".toList
  have he : e.Valid := by
    have hlabels : "a.example".toList.splitOn '.' = ["a".toList, "example".toList] := by decide
    refine .host ?_ (.inr (.inr (by unfold IsHostName; rw [hlabels]; simp))) nofun (.inr ⟨_, rfl⟩)
    rintro x ⟨⟩
    decide
  let o : Origin := ⟨"https".toList, some (.domain "a.example".toList), none⟩
  obtain ⟨other, hother, f, hf, -, hpath⟩ := hcovered e ⟨he, by decide⟩ o o (by decide)
  rw [mem_singleton.mp hother] at hf hpath
  rw [SourceExpression.reads_unique hf ⟨he, by decide⟩] at hpath
  -- the pieces are compared letter by letter
  have hpieces : pathPieces decodePiece "/Pay".toList = pathPieces decodePiece "/pay".toList :=
    (pathMatches_of_getLast?_ne (by decide) (by decide)).mp hpath
  exact absurd hpieces (by decide +kernel)

end WaferRun.SecurityHeaders
