import WaferRun.Lib.Text

/-!
# Reading a JSON Schema document

How a walk over a JSON Schema reads it: which keywords hold subschemas (`keywordValue`), and the
encoding between a key of a `$defs` table and the segment of a `#/$defs/` pointer that names it
(`encodeRefName`, `decodeRefName`).

A name is written in two layers. JSON-Pointer escaping comes first and percent-encoding second;
reading undoes them in the opposite order, so every name is read back (`decodeRefName_encode`).
-/

open List

namespace WaferRun

inductive KeywordValue
  | subschema
  | subschemaList
  | subschemaMap
  | literal
  | other
deriving DecidableEq, Repr

def subschemaKeywords : List String :=
  ["items", "additionalProperties", "not", "if", "then", "else", "contains", "propertyNames",
    "unevaluatedItems", "unevaluatedProperties", "contentSchema"]

def subschemaListKeywords : List String := ["allOf", "anyOf", "oneOf", "prefixItems"]

def subschemaMapKeywords : List String := ["properties", "patternProperties", "dependentSchemas"]

def literalValueKeywords : List String := ["default", "const", "enum", "examples"]

def keywordValue (keyword : String) : KeywordValue :=
  if keyword ∈ subschemaKeywords then .subschema
  else if keyword ∈ subschemaListKeywords then .subschemaList
  else if keyword ∈ subschemaMapKeywords then .subschemaMap
  else if keyword ∈ literalValueKeywords then .literal
  else .other

/-! ## Percent-encoding -/

namespace Percent

/-- The UTF-8 bytes of a text. -/
def utf8 (s : List Char) : List UInt8 := s.flatMap String.utf8EncodeChar

/-- The text that the bytes spell, if they are valid UTF-8. -/
def decodeUtf8 (bytes : List UInt8) : Option (List Char) :=
  bytes.toByteArray.utf8Decode?.map Array.toList

/-- The letter for a value below 16. -/
def hexDigit (n : ℕ) : Char :=
  if n < 10 then Char.ofNat ('0'.toNat + n) else Char.ofNat ('A'.toNat + (n - 10))

def hexValue (b : UInt8) : Option ℕ :=
  if 48 ≤ b.toNat ∧ b.toNat ≤ 57 then some (b.toNat - 48)
  else if 65 ≤ b.toNat ∧ b.toNat ≤ 70 then some (b.toNat - 55)
  else if 97 ≤ b.toNat ∧ b.toNat ≤ 102 then some (b.toNat - 87)
  else none

/-- The byte of `%`. -/
def percent : UInt8 := 37

/-- Write a byte: as itself, or as `%` and two digits. -/
def encodeByte (keep : UInt8 → Bool) (b : UInt8) : List Char :=
  if keep b then [Char.ofNat b.toNat]
  else ['%', hexDigit (b.toNat / 16), hexDigit (b.toNat % 16)]

/-- `utf8_percent_encode`, with the bytes that stay as they are. -/
def encode (keep : UInt8 → Bool) (s : List Char) : List Char := (utf8 s).flatMap (encodeByte keep)

/-- `percent_decode_str`: a `%` with two digits behind it is a byte, any other byte is itself. -/
def decodeBytes : List UInt8 → List UInt8
  | [] => []
  | b :: rest =>
    if b = percent then
      match rest with
      | h :: l :: rest' =>
        match hexValue h, hexValue l with
        | some high, some low => UInt8.ofNat (16 * high + low) :: decodeBytes rest'
        | _, _ => b :: decodeBytes (h :: l :: rest')
      | rest => b :: decodeBytes rest
    else b :: decodeBytes rest
termination_by bytes => bytes.length

/-- `percent_decode_str(s).decode_utf8()`. -/
def decode (s : List Char) : Option (List Char) := decodeUtf8 (decodeBytes (utf8 s))

end Percent

/-! ## Pointer segments -/

/-- The bytes a pointer segment carries unencoded. -/
def isUnreserved (b : UInt8) : Bool :=
  (48 ≤ b && b ≤ 57) || (65 ≤ b && b ≤ 90) || (97 ≤ b && b ≤ 122) ||
    b == 45 || b == 46 || b == 95 || b == 126

/-- Decode a `#/$defs/` pointer segment into the key it names. -/
def decodeRefName (encoded : String) : Option String :=
  (Percent.decode encoded.toList).map fun decoded ↦
    String.ofList (Text.replace ['~', '0'] ['~'] (Text.replace ['~', '1'] ['/'] decoded))

/-- Encode a `$defs` key into the pointer segment that names it. -/
def encodeRefName (name : String) : String :=
  let escaped := Text.replaceChar '/' ['~', '1'] (Text.replaceChar '~' ['~', '0'] name.toList)
  String.ofList (Percent.encode isUnreserved escaped)

namespace Percent

theorem decodeUtf8_utf8 (s : List Char) : decodeUtf8 (utf8 s) = some s := by
  have hbytes : (utf8 s).toByteArray = s.utf8Encode := rfl
  rw [decodeUtf8, hbytes, List.utf8Decode?_utf8Encode]
  rfl

theorem utf8_append (s t : List Char) : utf8 (s ++ t) = utf8 s ++ utf8 t := flatMap_append

theorem utf8_ascii : ∀ n < 128, utf8 [Char.ofNat n] = [UInt8.ofNat n] := by
  decide

theorem utf8_hexDigit : ∀ n < 16, utf8 [hexDigit n] = [UInt8.ofNat (hexDigit n).toNat] ∧
    hexValue (UInt8.ofNat (hexDigit n).toNat) = some n := by
  decide

theorem decodeBytes_cons_of_ne {b : UInt8} (h : b ≠ percent) (rest : List UInt8) :
    decodeBytes (b :: rest) = b :: decodeBytes rest := by
  conv_lhs => unfold decodeBytes
  rw [if_neg h]

theorem decodeBytes_cons_percent {h l : UInt8} {high low : ℕ} (hh : hexValue h = some high)
    (hl : hexValue l = some low) (rest : List UInt8) :
    decodeBytes (percent :: h :: l :: rest) =
      UInt8.ofNat (16 * high + low) :: decodeBytes rest := by
  rw [decodeBytes, if_pos rfl]
  simp only [hh, hl]

theorem decodeBytes_encodeByte {keep : UInt8 → Bool}
    (hkeep : ∀ b, keep b = true → b.toNat < 128 ∧ b ≠ percent) (b : UInt8) (rest : List UInt8) :
    decodeBytes (utf8 (encodeByte keep b) ++ rest) = b :: decodeBytes rest := by
  rw [encodeByte]
  by_cases hb : keep b = true
  · have ⟨hlt, hne⟩ := hkeep b hb
    rw [if_pos hb, utf8_ascii _ hlt, UInt8.ofNat_toNat]
    exact decodeBytes_cons_of_ne hne rest
  · have hsize : b.toNat < 256 := b.toNat_lt
    have hhigh := utf8_hexDigit (b.toNat / 16) (by omega)
    have hlow := utf8_hexDigit (b.toNat % 16) (by omega)
    have hbytes : utf8 ['%', hexDigit (b.toNat / 16), hexDigit (b.toNat % 16)] =
        [percent, UInt8.ofNat (hexDigit (b.toNat / 16)).toNat,
          UInt8.ofNat (hexDigit (b.toNat % 16)).toNat] := by
      have hsplit : ['%', hexDigit (b.toNat / 16), hexDigit (b.toNat % 16)] =
          ['%'] ++ [hexDigit (b.toNat / 16)] ++ [hexDigit (b.toNat % 16)] := rfl
      rw [hsplit, utf8_append, utf8_append, hhigh.1, hlow.1]
      rfl
    have hvalue : UInt8.ofNat (16 * (b.toNat / 16) + b.toNat % 16) = b := by
      rw [Nat.div_add_mod, UInt8.ofNat_toNat]
    rw [if_neg hb, hbytes, cons_append, cons_append, cons_append, nil_append,
      decodeBytes_cons_percent hhigh.2 hlow.2, hvalue]

theorem decode_encode {keep : UInt8 → Bool}
    (hkeep : ∀ b, keep b = true → b.toNat < 128 ∧ b ≠ percent) (s : List Char) :
    decode (encode keep s) = some s := by
  have hbytes : ∀ bytes : List UInt8,
      decodeBytes (utf8 (bytes.flatMap (encodeByte keep))) = bytes := by
    intro bytes
    induction bytes with
    | nil => rw [flatMap_nil, utf8, flatMap_nil, decodeBytes]
    | cons b bytes ih =>
      rw [flatMap_cons, utf8_append, decodeBytes_encodeByte hkeep, ih]
  rw [decode, encode, hbytes, decodeUtf8_utf8]

end Percent

theorem isUnreserved_ascii (b : UInt8) (h : isUnreserved b = true) :
    b.toNat < 128 ∧ b ≠ Percent.percent := by
  rw [isUnreserved] at h
  simp only [Bool.or_eq_true, Bool.and_eq_true, decide_eq_true_eq, beq_iff_eq,
    UInt8.le_iff_toNat_le, ← UInt8.toNat_inj, Percent.percent, ne_eq] at h ⊢
  simp only [UInt8.reduceToNat] at h ⊢
  omega

/-- The two escapes at once. -/
private def escape (c : Char) : List Char :=
  if c = '~' then ['~', '0'] else if c = '/' then ['~', '1'] else [c]

private theorem escape_eq (s : List Char) :
    Text.replaceChar '/' ['~', '1'] (Text.replaceChar '~' ['~', '0'] s) = s.flatMap escape := by
  rw [Text.replaceChar, Text.replaceChar, flatMap_assoc]
  refine flatMap_congr fun c _ ↦ ?_
  by_cases htilde : c = '~'
  · subst htilde
    decide
  · rw [escape, if_neg htilde, if_neg htilde, flatMap_singleton]

private theorem replace_cons_of_ne {d c : Char} {r s : List Char} (h : c ≠ '~') :
    Text.replace ['~', d] r (c :: s) = c :: Text.replace ['~', d] r s := by
  have hp : ¬['~', d] <+: c :: s := fun hp ↦ h (cons_prefix_cons.mp hp).1.symm
  rw [Text.replace, Text.replaceFrom, if_neg hp, Text.replace]

private theorem replace_tilde_of_ne {d e : Char} {r s : List Char} (h : d ≠ e) (he : e ≠ '~') :
    Text.replace ['~', d] r ('~' :: e :: s) = '~' :: e :: Text.replace ['~', d] r s := by
  have hp : ¬['~', d] <+: '~' :: e :: s := fun hp ↦
    h (cons_prefix_cons.mp (cons_prefix_cons.mp hp).2).1
  rw [Text.replace, Text.replaceFrom, if_neg hp, ← Text.replace, replace_cons_of_ne he]

private theorem replace_tilde {d : Char} {r s : List Char} :
    Text.replace ['~', d] r ('~' :: d :: s) = r ++ Text.replace ['~', d] r s := by
  have hp : ['~', d] <+: '~' :: d :: s := ⟨s, rfl⟩
  rw [Text.replace, Text.replaceFrom, if_pos hp]
  rfl

private theorem replace_slash (s : List Char) :
    Text.replace ['~', '1'] ['/'] (s.flatMap escape) = Text.replaceChar '~' ['~', '0'] s := by
  induction s with
  | nil => rfl
  | cons c s ih =>
    rw [flatMap_cons, Text.replaceChar, flatMap_cons, ← Text.replaceChar, ← ih, escape]
    by_cases htilde : c = '~'
    · rw [if_pos htilde, if_pos htilde]
      exact replace_tilde_of_ne (by decide) (by decide)
    rw [if_neg htilde, if_neg htilde]
    by_cases hslash : c = '/'
    · rw [if_pos hslash, hslash]
      exact replace_tilde
    · rw [if_neg hslash]
      exact replace_cons_of_ne htilde

private theorem replace_zero (s : List Char) :
    Text.replace ['~', '0'] ['~'] (Text.replaceChar '~' ['~', '0'] s) = s := by
  induction s with
  | nil => rfl
  | cons c s ih =>
    rw [Text.replaceChar, flatMap_cons, ← Text.replaceChar]
    by_cases htilde : c = '~'
    · rw [if_pos htilde, htilde]
      have hread := @replace_tilde '0' ['~'] (Text.replaceChar '~' ['~', '0'] s)
      rwa [ih] at hread
    · rw [if_neg htilde, singleton_append, replace_cons_of_ne htilde, ih]

/-- **Every name is read back.** -/
theorem decodeRefName_encode (name : String) : decodeRefName (encodeRefName name) = some name := by
  rw [decodeRefName, encodeRefName, String.toList_ofList, escape_eq,
    Percent.decode_encode isUnreserved_ascii, Option.map_some, replace_slash, replace_zero,
    String.ofList_toList]

end WaferRun
