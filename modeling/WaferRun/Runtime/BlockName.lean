import Mathlib
import WaferRun.Lib.Text

/-!
# Block names

A block is registered under a name `{org}/{block}`. Registration refuses every name whose two
segments are not lower-case alphanumeric words joined by single hyphens, because the name is later
spelled with underscores as the namespace of the block's resources, and that spelling has to be
read back.
-/

namespace WaferRun

open Text

/-- The longest identifier a database table may have, in bytes. -/
def maxIdentLen : ℕ := 63

/-- The longest block name: a table prefix adds two bytes to it and needs a name after it. -/
def maxBlockNameLen : ℕ := maxIdentLen - 4

structure InvalidBlockName where
  name : String
  reason : String
deriving DecidableEq, Repr

def isSegmentChar (c : Char) : Bool := c.isLower || c.isDigit || c = '-'

/-- The reason to refuse one segment of a block name, if there is one. The checks are made in
order and the first that fails is reported. -/
def segmentError (label : String) (segment : List Char) : Option String :=
  if segment = [] then some ("empty " ++ label ++ " segment")
  else if '_' ∈ segment then
    some ("underscore not allowed in " ++ label ++ " segment, use hyphen")
  else if (splitOnce ['-', '-'] segment).isSome then
    some ("consecutive hyphens not allowed in " ++ label ++ " segment")
  else if segment.head? = some '-' ∨ segment.getLast? = some '-' then
    some (label ++ " segment cannot start or end with hyphen")
  else if ¬segment.all isSegmentChar then
    some ("only lowercase alphanumeric and hyphens allowed in " ++ label ++ " segment")
  else none

/-- Accept a name of the form `{org}/{block}`. -/
def validateBlockName (name : String) : Except InvalidBlockName Unit :=
  if maxBlockNameLen < name.utf8ByteSize then
    .error ⟨name, "longer than " ++ toString maxBlockNameLen ++
      " bytes, so its `\x7borg\x7d__\x7bblock\x7d__` table prefix leaves no room for a table name"⟩
  else
    match splitOnce ['/'] name.toList with
    | none => .error ⟨name, "must be \x7borg\x7d/\x7bblock\x7d"⟩
    | some (org, block) =>
      if name.toList.count '/' ≠ 1 then .error ⟨name, "exactly one / required"⟩
      else
        match segmentError "org" org, segmentError "block" block with
        | some reason, _ => .error ⟨name, reason⟩
        | none, some reason => .error ⟨name, reason⟩
        | none, none => .ok ()

/-! ## What an accepted name looks like -/

/-- A segment of an accepted name: a nonempty word of lower-case letters, digits and hyphens. -/
structure IsSegment (s : List Char) : Prop where
  ne_nil : s ≠ []
  chars : ∀ c ∈ s, isSegmentChar c = true
  no_double : splitOnce ['-', '-'] s = none
  not_first : s.head? ≠ some '-'
  not_last : s.getLast? ≠ some '-'

theorem segmentError_eq_none {label : String} {s : List Char} (h : segmentError label s = none) :
    IsSegment s := by
  unfold segmentError at h
  split at h; · cases h
  split at h; · cases h
  split at h; · cases h
  split at h; · cases h
  split at h; · cases h
  next hne _ hdd hfl hchars =>
    rw [not_or] at hfl
    rw [not_not, List.all_eq_true] at hchars
    exact ⟨hne, hchars, by simpa using hdd, hfl.1, hfl.2⟩

namespace IsSegment

variable {s : List Char}

theorem not_mem (h : IsSegment s) {c : Char} (hc : isSegmentChar c = false) : c ∉ s :=
  fun hm ↦ Bool.false_ne_true (hc.symm.trans (h.chars c hm))

theorem slash_not_mem (h : IsSegment s) : '/' ∉ s := h.not_mem (by decide)

theorem underscore_not_mem (h : IsSegment s) : '_' ∉ s := h.not_mem (by decide)

end IsSegment

theorem lower_of_isSegmentChar {c : Char} (h : isSegmentChar c = true) :
    c.val < 128 ∧ c.toLower = c := by
  have hval : c.val < 128 ∧ ¬(65 ≤ c.val ∧ c.val ≤ 90) := by
    simp only [isSegmentChar, Char.isLower, Char.isDigit, Bool.or_eq_true, Bool.and_eq_true,
      decide_eq_true_eq] at h
    rcases h with (h | h) | rfl
    · constructor <;> grind
    · constructor <;> grind
    · decide
  refine ⟨hval.1, ?_⟩
  unfold Char.toLower
  split
  · next hu => exact absurd hu hval.2
  · rfl

def IsBlockName (name : String) : Prop :=
  ∃ org block, name.toList = org ++ '/' :: block ∧ IsSegment org ∧ IsSegment block

theorem isBlockName_of_validateBlockName {name : String} (h : validateBlockName name = .ok ()) :
    IsBlockName name := by
  unfold validateBlockName at h
  split at h; · cases h
  split at h; · cases h
  next org block hsplit =>
    split at h; · cases h
    split at h
    · cases h
    · cases h
    next horg hblock =>
      exact ⟨org, block, (splitOnce_singleton_eq_some.mp hsplit).1, segmentError_eq_none horg,
        segmentError_eq_none hblock⟩

theorem segments_unique {a b org block : List Char} (h : a ++ '/' :: b = org ++ '/' :: block)
    (horg : IsSegment org) (hblock : IsSegment block) : a = org ∧ b = block := by
  have ha : '/' ∉ a := by
    intro hm
    have hcount := congrArg (List.count '/') h
    rw [List.count_append, List.count_append, List.count_cons_self, List.count_cons_self,
      List.count_eq_zero.mpr horg.slash_not_mem, List.count_eq_zero.mpr hblock.slash_not_mem]
      at hcount
    have := List.count_pos_iff.mpr hm
    omega
  have h' := congrArg (splitOnce ['/']) h
  rw [splitOnce_singleton_append ha, splitOnce_singleton_append horg.slash_not_mem] at h'
  exact Prod.mk.inj (Option.some.inj h')

end WaferRun
