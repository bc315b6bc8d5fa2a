import WaferRun.Lib.Glob
import WaferRun.Wrap.Grants

/-!
# What a grant's glob matches

A glob is meant to match what it becomes when some text is put in the place of each star. The
matcher looks for the pieces between the stars from left to right and never goes back. For a glob
that ends in a star this finds every match. For one that does not, it asks the last piece to be
found at the very end, and it only ever tries the first place where the pieces fit. So it misses
exactly the resources that begin with a shorter match (`globMatchesBytes_correct_iff`).

The matcher works on byte offsets (`globScan`), and slicing a text inside a character is a panic.
Every offset it reaches is the end of a piece it has found, so it never slices there
(`globMatchesBytes_eq`).
-/

open List

namespace WaferRun

open Text Glob

/-! ## The matcher on bytes -/

def byteLength (s : List Char) : ℕ := (s.map Char.utf8Size).sum

/-- The text from a byte offset on, unless the offset is inside a character or past the end. -/
def sliceFrom : ℕ → List Char → Option (List Char)
  | 0, s => some s
  | _ + 1, [] => none
  | n + 1, c :: s => if c.utf8Size ≤ n + 1 then sliceFrom (n + 1 - c.utf8Size) s else none
termination_by _ s => s.length

def findBytes (piece s : List Char) : Option ℕ :=
  (splitOnce piece s).map fun parts ↦ byteLength parts.1

/-- Find the pieces of a glob in order from a byte offset on. The inner option is the answer of the
search; the outer one is missing if a slice is off a character boundary. -/
def globScan (resource : List Char) (first : Bool) : List (List Char) → ℕ → Option (Option ℕ)
  | [], pos => some (some pos)
  | part :: parts, pos =>
    if part = [] then globScan resource false parts pos
    else
      match sliceFrom pos resource with
      | none => none
      | some rest =>
        match findBytes part rest with
        | none => some none
        | some found =>
          if first ∧ found ≠ 0 then some none
          else globScan resource false parts (pos + (found + byteLength part))

/-- `glob_matches`, with a missing answer for a panic. -/
def globMatchesBytes (pattern resource : String) : Option Bool :=
  let parts := pattern.toList.splitOn '*'
  if parts.length = 1 then some (resource = pattern)
  else
    (globScan resource.toList true parts 0).map fun answer ↦
      match answer with
      | none => false
      | some pos => if ['*'] <:+ pattern.toList then true else pos = byteLength resource.toList

/-! ## No slice is off a boundary -/

theorem byteLength_append (s t : List Char) : byteLength (s ++ t) = byteLength s + byteLength t := by
  rw [byteLength, map_append, List.sum_append, byteLength, byteLength]

theorem byteLength_eq_zero_iff {s : List Char} : byteLength s = 0 ↔ s = [] := by
  rcases s with _ | ⟨c, s⟩
  · exact ⟨fun _ ↦ rfl, fun _ ↦ rfl⟩
  · have hpos := c.utf8Size_pos
    rw [byteLength, map_cons, sum_cons]
    exact ⟨fun h ↦ by omega, nofun⟩

theorem sliceFrom_byteLength (before after : List Char) :
    sliceFrom (byteLength before) (before ++ after) = some after := by
  induction before with
  | nil => rw [byteLength, map_nil, sum_nil, sliceFrom, nil_append]
  | cons c before ih =>
    have hpos := c.utf8Size_pos
    obtain ⟨n, hn⟩ : ∃ n, byteLength (c :: before) = n + 1 :=
      ⟨byteLength (c :: before) - 1, by rw [byteLength, map_cons, sum_cons]; omega⟩
    have hrest : n + 1 - c.utf8Size = byteLength before := by
      rw [← hn, byteLength, map_cons, sum_cons, ← byteLength]
      omega
    have hle : c.utf8Size ≤ n + 1 := by
      rw [← hn, byteLength, map_cons, sum_cons]
      omega
    rw [hn, cons_append, sliceFrom, if_pos hle, hrest, ih]

theorem globScan_eq (first : Bool) (parts : List (List Char)) (before rest : List Char) :
    (globPieces first parts rest = none ∧
        globScan (before ++ rest) first parts (byteLength before) = some none) ∨
      ∃ passed after, globPieces first parts rest = some after ∧
        before ++ rest = passed ++ after ∧
        globScan (before ++ rest) first parts (byteLength before) = some (some (byteLength passed)) := by
  induction parts generalizing first before rest with
  | nil => exact .inr ⟨before, rest, rfl, rfl, rfl⟩
  | cons part parts ih =>
    rw [globPieces, globScan, sliceFrom_byteLength]
    split
    · exact ih false before rest
    · dsimp only
      rcases hsplit : splitOnce part rest with _ | ⟨skipped, after⟩
      · exact .inl ⟨rfl, by rw [findBytes, hsplit]; rfl⟩
      · have hrest : before ++ rest = (before ++ (skipped ++ part)) ++ after := by
          rw [eq_of_splitOnce hsplit]
          simp only [append_assoc]
        have hpos : byteLength before + (byteLength skipped + byteLength part) =
            byteLength (before ++ (skipped ++ part)) := by
          rw [byteLength_append, byteLength_append]
        have hfirst : (first = true ∧ byteLength skipped ≠ 0) ↔ (first = true ∧ skipped ≠ []) := by
          rw [ne_eq, byteLength_eq_zero_iff]
        simp only [findBytes, hsplit, Option.map_some, hfirst, hpos]
        split
        · exact .inl ⟨rfl, rfl⟩
        · rw [hrest]
          exact ih false (before ++ (skipped ++ part)) after

/-- **The scan never slices off a character boundary**, and it decides what the search on characters
decides. -/
theorem globMatchesBytes_eq (pattern resource : String) :
    globMatchesBytes pattern resource = some (globMatches pattern resource) := by
  unfold globMatchesBytes globMatches
  dsimp only
  split
  · rfl
  · rcases globScan_eq true (pattern.toList.splitOn '*') [] resource.toList with
      ⟨hpieces, hscan⟩ | ⟨passed, after, hpieces, hresource, hscan⟩
    · have hscan' : globScan resource.toList true (pattern.toList.splitOn '*') 0 = some none := hscan
      rw [hscan', hpieces]
      rfl
    · have hscan' : globScan resource.toList true (pattern.toList.splitOn '*') 0 =
          some (some (byteLength passed)) := hscan
      rw [nil_append] at hresource
      have hend : byteLength passed = byteLength resource.toList ↔ after = [] := by
        rw [hresource, byteLength_append, ← byteLength_eq_zero_iff]
        omega
      rw [hscan', hpieces]
      simp only [Option.map_some, hend]

/-! ## What is matched -/

theorem globPieces_false (parts : List (List Char)) (s : List Char) :
    globPieces false parts s = scan parts s := by
  induction parts generalizing s with
  | nil => rfl
  | cons part parts ih =>
    rw [globPieces, scan]
    split
    · rename_i hpart
      rw [hpart, splitOnce_of_isPrefix nil_prefix, ih]
      rfl
    · rcases splitOnce part s with _ | ⟨before, after⟩
      · rfl
      · exact (if_neg fun h ↦ absurd h.1 (by decide)).trans (ih after)

theorem globPieces_true_eq_some {part : List Char} {parts : List (List Char)} {s rest : List Char} :
    globPieces true (part :: parts) s = some rest ↔ ∃ t, s = part ++ t ∧ scan parts t = some rest := by
  rw [globPieces]
  split
  · rename_i hpart
    rw [hpart, globPieces_false]
    constructor
    · exact fun h ↦ ⟨s, rfl, h⟩
    · rintro ⟨t, rfl, h⟩
      exact h
  · constructor
    · intro h
      rcases hsplit : splitOnce part s with _ | ⟨before, after⟩
      · rw [hsplit] at h
        cases h
      · rw [hsplit] at h
        dsimp only at h
        split at h
        · cases h
        · rename_i hbefore
          have hnil : before = [] := not_not.mp fun hne ↦ hbefore ⟨rfl, hne⟩
          refine ⟨after, ?_, globPieces_false parts after ▸ h⟩
          rw [eq_of_splitOnce hsplit, hnil, nil_append]
    · rintro ⟨t, rfl, h⟩
      rw [splitOnce_of_isPrefix (prefix_append part t), drop_left]
      exact (if_neg fun h ↦ h.2 rfl).trans ((globPieces_false parts t).trans h)

/-- The resource matches the glob, but so does a shorter text at its beginning, and the glob does
not end in a star. -/
def FitsEarly (pattern resource : List Char) : Prop :=
  ¬['*'] <:+ pattern ∧ Filled '*' pattern resource ∧
    ∃ u rest, resource = u ++ rest ∧ rest ≠ [] ∧ Filled '*' pattern u

section

variable {pattern resource : String} {part : List Char} {parts : List (List Char)}

theorem globMatches_of_no_star (hstar : '*' ∉ pattern.toList) :
    globMatches pattern resource = true ↔ Filled '*' pattern.toList resource.toList := by
  have hparts := splitOn_eq_singleton hstar
  rw [filled_iff hparts]
  constructor
  · intro h
    exact ⟨[], by rw [globMatches_of_not_mem hstar h, append_nil], .nil⟩
  · rintro ⟨t, hresource, ⟨⟩⟩
    rw [append_nil] at hresource
    unfold globMatches
    rw [hparts]
    exact decide_eq_true (String.toList_inj.mp hresource)

theorem globMatches_eq_true (hparts : pattern.toList.splitOn '*' = part :: parts)
    (hne : parts ≠ []) :
    globMatches pattern resource = true ↔ ∃ t rest, resource.toList = part ++ t ∧
      scan parts t = some rest ∧ (['*'] <:+ pattern.toList ∨ rest = []) := by
  have hlength : (part :: parts).length ≠ 1 := by
    have := length_pos_of_ne_nil hne
    rw [length_cons]
    omega
  unfold globMatches
  simp only [hparts, hlength, if_false]
  constructor
  · intro h
    rcases hpieces : globPieces true (part :: parts) resource.toList with _ | rest
    · rw [hpieces] at h
      cases h
    · rw [hpieces] at h
      obtain ⟨t, ht, hscan⟩ := globPieces_true_eq_some.mp hpieces
      refine ⟨t, rest, ht, hscan, ?_⟩
      by_cases hend : ['*'] <:+ pattern.toList
      · exact .inl hend
      · exact .inr (by simpa [hend] using h)
  · rintro ⟨t, rest, ht, hscan, hend⟩
    rw [globPieces_true_eq_some.mpr ⟨t, ht, hscan⟩]
    rcases hend with hend | rfl
    · exact if_pos hend
    · simp

theorem globMatches_of_star (hend : ['*'] <:+ pattern.toList) :
    globMatches pattern resource = true ↔ Filled '*' pattern.toList resource.toList := by
  obtain ⟨q, hq⟩ := hend
  obtain ⟨part, qs, hqs⟩ := exists_cons_of_ne_nil (splitOn_ne_nil '*' q)
  have hparts : pattern.toList.splitOn '*' = part :: (qs ++ [[]]) := by
    rw [← hq, splitOn_append_cons_self, hqs]
    rfl
  rw [globMatches_eq_true hparts (append_ne_nil_of_right_ne_nil qs (cons_ne_nil _ _)),
    filled_iff hparts]
  constructor
  · rintro ⟨t, rest, ht, hscan, -⟩
    obtain ⟨u, rfl, hspread⟩ := spread_of_scan hscan
    exact ⟨u ++ rest, ht, hspread.extend rest⟩
  · rintro ⟨t, ht, hspread⟩
    obtain ⟨rest, hscan, -⟩ := exists_scan_of_spread hspread []
    rw [append_nil] at hscan
    exact ⟨t, rest, ht, hscan, .inl ⟨q, hq⟩⟩

theorem globMatches_of_not_star (hstar : '*' ∈ pattern.toList) (hend : ¬['*'] <:+ pattern.toList) :
    globMatches pattern resource = true ↔ Filled '*' pattern.toList resource.toList ∧
      ∀ u rest, resource.toList = u ++ rest → Filled '*' pattern.toList u → rest = [] := by
  obtain ⟨a, b, hpattern⟩ := append_of_mem hstar
  obtain ⟨part, parts, hparts⟩ := exists_cons_of_ne_nil (splitOn_ne_nil '*' pattern.toList)
  have hne : parts ≠ [] := by
    rintro rfl
    have hlength := congrArg List.length hparts
    have ha := length_pos_of_ne_nil (splitOn_ne_nil '*' a)
    have hb := length_pos_of_ne_nil (splitOn_ne_nil '*' b)
    rw [hpattern, splitOn_append_cons_self, length_append, length_singleton] at hlength
    omega
  rw [globMatches_eq_true hparts hne, filled_iff hparts]
  constructor
  · rintro ⟨t, rest, ht, hscan, hrest⟩
    rw [hrest.resolve_left hend] at hscan
    obtain ⟨hspread, hfirst⟩ := scan_eq_some_nil_iff.mp hscan
    refine ⟨⟨t, ht, hspread⟩, fun u rest' hu hfilled ↦ ?_⟩
    obtain ⟨v, rfl, hv⟩ := (filled_iff hparts).mp hfilled
    rw [ht, append_assoc] at hu
    exact hfirst v rest' (append_cancel_left hu) hv
  · rintro ⟨⟨t, ht, hspread⟩, hfirst⟩
    refine ⟨t, [], ht, scan_eq_some_nil_iff.mpr ⟨hspread, fun u rest hu hv ↦ ?_⟩, .inr rfl⟩
    exact hfirst (part ++ u) rest (by rw [ht, hu, append_assoc])
      ((filled_iff hparts).mpr ⟨u, rfl, hv⟩)

end

/-- **Grant globs.** The matcher never slices off a character boundary, and it matches what the glob
can be filled to, if and only if the resource is not one that fits early. -/
theorem globMatchesBytes_correct_iff (pattern resource : String) :
    globMatchesBytes pattern resource ≠ none ∧
      ((globMatchesBytes pattern resource = some true ↔
          Filled '*' pattern.toList resource.toList) ↔
        ¬FitsEarly pattern.toList resource.toList) := by
  rw [globMatchesBytes_eq]
  refine ⟨Option.some_ne_none _, ?_⟩
  rw [Option.some.injEq]
  by_cases hstar : '*' ∈ pattern.toList
  · by_cases hend : ['*'] <:+ pattern.toList
    · exact iff_of_true (globMatches_of_star hend) fun h ↦ h.1 hend
    · rw [globMatches_of_not_star hstar hend]
      constructor
      · rintro h ⟨-, hfilled, u, rest, hu, hne, hearly⟩
        exact hne ((h.mpr hfilled).2 u rest hu hearly)
      · intro h
        refine ⟨And.left, fun hfilled ↦ ⟨hfilled, fun u rest hu hearly ↦ ?_⟩⟩
        by_contra hne
        exact h ⟨hend, hfilled, u, rest, hu, hne, hearly⟩
  · refine iff_of_true (globMatches_of_no_star hstar) ?_
    -- a text without stars is filled in one way only
    rintro ⟨-, hfilled, u, rest, hu, hne, hearly⟩
    have hparts := splitOn_eq_singleton hstar
    obtain ⟨t, ht, ⟨⟩⟩ := (filled_iff hparts).mp hfilled
    obtain ⟨t', ht', ⟨⟩⟩ := (filled_iff hparts).mp hearly
    rw [ht, ht', append_nil] at hu
    exact hne (append_right_eq_self.mp hu.symm)

/-- A file whose name ends in `.txt` twice is not matched by a glob for names that end in it. -/
theorem glob_misses_repeated_ending :
    globMatchesBytes "site/*.txt" "site/a.txt.txt" = some false ∧
      Filled '*' "site/*.txt".toList "site/a.txt.txt".toList := by
  refine ⟨(globMatchesBytes_eq _ _).trans (by decide), ?_⟩
  have hparts : "site/*.txt".toList.splitOn '*' = ["site/".toList, ".txt".toList] := by decide
  refine (filled_iff hparts).mpr ?_
  exact ⟨"a.txt.txt".toList, by decide, .cons "a.txt".toList ".txt".toList .nil⟩

end WaferRun
