import WaferRun.Discovery.InlineClosure

/-!
# Names in pointers

A definition may have any name. In a pointer it stands as a segment of unreserved characters and of
escapes, and the pointer leads back to the name (`definitionNamed_encodeRefName`).
-/

open List

namespace WaferRun

namespace Percent

def Unreserved (c : Char) : Prop := c.isAlphanum = true ∨ c ∈ ['-', '.', '_', '~']

def HexDigit (c : Char) : Prop := c.isDigit = true ∨ c ∈ ['A', 'B', 'C', 'D', 'E', 'F']

inductive Segment : List Char → Prop
  | nil : Segment []
  | unreserved {c : Char} {s : List Char} : Unreserved c → Segment s → Segment (c :: s)
  | escape {h l : Char} {s : List Char} :
    HexDigit h → HexDigit l → Segment s → Segment ('%' :: h :: l :: s)

instance decidableUnreserved (c : Char) : Decidable (Unreserved c) := instDecidableOr

instance decidableHexDigit (c : Char) : Decidable (HexDigit c) := instDecidableOr

theorem hexDigit_isHexDigit : ∀ n < 16, HexDigit (hexDigit n) := by
  decide

theorem unreserved_of_ascii :
    ∀ n < 128, isUnreserved (UInt8.ofNat n) = true → Unreserved (Char.ofNat n) := by
  decide

theorem Segment.encodeByte (b : UInt8) {s : List Char} (h : Segment s) :
    Segment (Percent.encodeByte isUnreserved b ++ s) := by
  rw [Percent.encodeByte]
  by_cases hb : isUnreserved b = true
  · have hlt : b.toNat < 128 := (isUnreserved_ascii b hb).1
    have hc : Unreserved (Char.ofNat b.toNat) := by
      refine unreserved_of_ascii b.toNat hlt ?_
      rwa [UInt8.ofNat_toNat]
    rw [if_pos hb]
    exact h.unreserved hc
  · have hsize : b.toNat < 256 := b.toNat_lt
    rw [if_neg hb]
    refine .escape ?_ ?_ h
    · exact hexDigit_isHexDigit _ (by omega)
    · exact hexDigit_isHexDigit _ (by omega)

theorem segment_encode (s : List Char) : Segment (encode isUnreserved s) := by
  rw [encode]
  induction utf8 s with
  | nil => exact .nil
  | cons b bytes ih =>
    rw [flatMap_cons]
    exact ih.encodeByte b

end Percent

open Discovery

/-- **Names.** Every name is written as a segment of a URI, and read back from the segment and from
the pointer that ends with it. -/
theorem definitionNamed_encodeRefName (name : String) :
    Percent.Segment (encodeRefName name).toList ∧
      decodeRefName (encodeRefName name) = some name ∧
      definitionNamed (LocalRef.definition name).pointer = some name := by
  refine ⟨?_, decodeRefName_encode name, definitionNamed_pointer name⟩
  rw [encodeRefName, String.toList_ofList]
  exact Percent.segment_encode _

example : encodeRefName "Product Status" = "Product%20Status" := by decide

end WaferRun
