import WaferRun.Database.WriteExec

/-!
# Values on their way to a column and back

A JSON column holds the text of a value, so what is written there is parsed when it is read, a
string that looks like JSON included. Any other column holds the value itself, bound as a
parameter. A parameter has an integer type of 64 bits with a sign, and an integer that does not fit
is bound as the float next to it (`parameter_int_iff`).

Printing and parsing JSON are given, and all that is asked of them is that they are inverse at the
value in question.
-/

namespace WaferRun.Database

/-! ## Parameters -/

/-- Whether the bits of a float are those of a number. -/
def isFiniteBits (bits : UInt64) : Bool := (bits >>> 52) &&& 0x7ff ≠ 0x7ff

def jsonInt (z : ℤ) : Json :=
  if 0 ≤ z then .number (.posInt z.toNat) else .number (.negInt (-z).toNat)

def seaValueToJson : SeaValue → Json
  | .string (some s) => .string s
  | .string none => .null
  | .bool b => .bool b
  | .bigInt z => jsonInt z
  | .double bits => if isFiniteBits bits then .number (.float bits) else .null
  | .json v => v

def parameter (toDouble : JsonNumber → UInt64) (v : Json) : Json :=
  seaValueToJson (jsonToSeaValue toDouble v)

/-! ## Reading -/

namespace Codec

variable (parse : String → Option Json)

def decodeText (json : List String) (column text : String) : Json :=
  if json.any fun c ↦ Text.eqIgnoreAsciiCase c.toList column.toList then
    (parse text).getD (.string text)
  else .string text

def decodeValue (json : List String) (column : String) : Json → Json
  | .string text => decodeText parse json column text
  | v => v

end Codec

theorem parameter_string (toDouble : JsonNumber → UInt64) (s : String) :
    parameter toDouble (.string s) = .string s := rfl

/-- An integer is bound as itself if and only if it has 64 bits with a sign. -/
theorem parameter_int_iff (toDouble : JsonNumber → UInt64) (z : ℤ) :
    parameter toDouble (jsonInt z) = jsonInt z ↔ z < 2 ^ 63 := by
  by_cases hz : 0 ≤ z
  · have hint : jsonInt z = .number (.posInt z.toNat) := if_pos hz
    by_cases hfits : z.toNat < 2 ^ 63
    · have hparameter : parameter toDouble (jsonInt z) = jsonInt (z.toNat : ℤ) := by
        rw [parameter, hint, jsonToSeaValue, if_pos hfits, seaValueToJson]
      rw [hparameter, Int.toNat_of_nonneg hz]
      exact ⟨fun _ ↦ by omega, fun _ ↦ rfl⟩
    · have hparameter : parameter toDouble (jsonInt z) ≠ jsonInt z := by
        rw [parameter, hint, jsonToSeaValue, if_neg hfits, seaValueToJson]
        split
        · intro h
          cases h
        · intro h
          cases h
      exact ⟨fun h ↦ absurd h hparameter, fun h ↦ by omega⟩
  · have hint : jsonInt z = .number (.negInt (-z).toNat) := if_neg hz
    have hback : -((-z).toNat : ℤ) = z := by omega
    have hparameter : parameter toDouble (jsonInt z) = jsonInt z := by
      conv_lhs => rw [parameter, hint, jsonToSeaValue, seaValueToJson, hback]
    exact ⟨fun _ ↦ by omega, fun _ ↦ hparameter⟩

variable {Row Rec : Type}

theorem decodeValue_written (E : SqlEngine Row Rec) {parse : String → Option Json}
    (toDouble : JsonNumber → UInt64) {json : List String} {column : String}
    (hcolumn : json.any fun c ↦ Text.eqIgnoreAsciiCase c.toList column.toList) {v : Json}
    (hround : parse (E.display v) = some v) :
    Codec.decodeValue parse json column (parameter toDouble (written E json column v)) = v := by
  rw [written, if_pos hcolumn]
  by_cases hnull : v = .null
  · subst hnull
    rfl
  · have htext : encodeJsonValue E v = .string (E.display v) := by
      cases v with
      | null => exact absurd rfl hnull
      | _ => rfl
    rw [htext, parameter_string, Codec.decodeValue, Codec.decodeText, if_pos hcolumn, hround,
      Option.getD_some]

/-- Values are read back as they are written: any value from a JSON column, and from another column
a string, and an integer if it has 64 bits with a sign. -/
theorem values_read_back (E : SqlEngine Row Rec) (parse : String → Option Json)
    (toDouble : JsonNumber → UInt64) (json : List String) (column : String) (v : Json)
    (hcolumn : json.any fun c ↦ Text.eqIgnoreAsciiCase c.toList column.toList)
    (hround : parse (E.display v) = some v) :
    Codec.decodeValue parse json column (parameter toDouble (written E json column v)) = v ∧
      (∀ s, parameter toDouble (.string s) = .string s) ∧
      ∀ z : ℤ, parameter toDouble (jsonInt z) = jsonInt z ↔ z < 2 ^ 63 :=
  ⟨decodeValue_written E toDouble hcolumn hround, parameter_string toDouble,
    parameter_int_iff toDouble⟩

def textDatabase : SqlEngine Unit Unit where
  backend := .sqlite
  toDouble _ := 0
  satisfies _ _ := true
  compare _ _ _ := .eq
  arrange _ rows := rows
  record _ _ := ()
  quote s := "\"" ++ s ++ "\""
  display
    | .string s => "\"" ++ s ++ "\""
    | _ => "null"
  cell _ _ := .null
  stored _ _ v := v
  IsColumn _ _ := True
  References _ _ := False
  assignedId _ _ := .null
  exec _ tables := .ok tables
  acknowledge _ := .ok ()

/-- The string `[1]` in a column `tags` declared as `Tags`. -/
theorem values_read_back_tags :
    let parse : String → Option Json := fun text ↦
      if text = "\"[1]\"" then some (.string "[1]") else none
    Codec.decodeValue parse ["Tags"] "tags"
        (parameter (fun _ ↦ 0) (written textDatabase ["Tags"] "tags" (.string "[1]"))) =
        .string "[1]" ∧
      (∀ s, parameter (fun _ ↦ 0) (.string s) = .string s) ∧
      ∀ z : ℤ, parameter (fun _ ↦ 0) (jsonInt z) = jsonInt z ↔ z < 2 ^ 63 :=
  values_read_back textDatabase
    (fun text ↦ if text = "\"[1]\"" then some (.string "[1]") else none) (fun _ ↦ 0) ["Tags"] "tags"
    (.string "[1]") (by decide) rfl

/-- The first integer that does not fit is bound as a float. -/
theorem large_integer_not_bound : ¬∀ (toDouble : JsonNumber → UInt64) (z : ℤ), 0 ≤ z → z < 2 ^ 64 →
    parameter toDouble (jsonInt z) = jsonInt z := by
  intro hall
  have h := hall (fun _ ↦ 0x43E0000000000000) (2 ^ 63) (by decide) (by decide)
  rw [parameter_int_iff] at h
  exact absurd h (by decide)

end WaferRun.Database
