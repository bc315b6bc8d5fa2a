import Mathlib
import WaferRun.Crypto.Jwt
import WaferRun.Lib.PrefixCode

/-!
# The fields of a log record

What a block logs is escaped, so that it cannot pass for a line of its own, and its fields are
written as `key=value` pairs, in quotes where they could be read otherwise.

The pairs say what the fields are and nothing else: two records are rendered alike exactly if they
have the same fields with the same texts, however the fields came in (`renderedFields_eq_iff`).
-/

open List

namespace WaferRun

open SortedKeys Text

/-! ## Escaping -/

def isControl (c : Char) : Bool := c.toNat < 0x20 || (0x7f ≤ c.toNat && c.toNat ≤ 0x9f)

/-- Separators, bidirectional formatting, zero-width characters and the byte-order mark. -/
def isInvisibleOrReordering (c : Char) : Bool :=
  let n := c.toNat
  n = 0x2028 || n = 0x2029 || (0x202a ≤ n && n ≤ 0x202e) || (0x2066 ≤ n && n ≤ 0x2069) ||
    (0x200b ≤ n && n ≤ 0x200f) || n = 0xfeff

def escapeLogChar (c : Char) : List Char :=
  if c = '\\' then ['\\', '\\']
  else if c = '\n' then ['\\', 'n']
  else if c = '\r' then ['\\', 'r']
  else if c = '\t' then ['\\', 't']
  else if isControl c || isInvisibleOrReordering c then
    '\\' :: 'u' :: '{' :: (Nat.toDigits 16 c.toNat ++ ['}'])
  else [c]

def escapeLogText (text : String) : String := String.ofList (text.toList.flatMap escapeLogChar)

/-! ## Rendering -/

inductive FieldValue
  | string (s : String)
  | int (i : ℤ)
  | float (n : JsonNumber)
  | bool (b : Bool)
  | any (a : String)

structure FieldDisplay where
  float : JsonNumber → String
  json : Json → String

def FieldValue.display (D : FieldDisplay) : FieldValue → String
  | string s => s
  | int i => toString i
  | float n => D.float n
  | bool b => toString b
  | any a => a

def fieldValue (D : FieldDisplay) : Json → FieldValue
  | .string s => .string (escapeLogText s)
  | .number n =>
    match (Json.number n).asI64 with
    | some i => .int i
    | none => .float n
  | .bool b => .bool b
  | other => .any (escapeLogText (D.json other))

/-- The fields of a request, whose map gives them in any order. -/
def jsonFieldsToServiceFields (D : FieldDisplay) (fields : List (String × Json)) :
    List (String × FieldValue) :=
  sortKeys (fields.map fun f ↦ (escapeLogText f.1, fieldValue D f.2))

abbrev IsBare (text : List Char) : Prop := text ≠ [] ∧ ∀ c ∈ text, c ≠ ' ' ∧ c ≠ '=' ∧ c ≠ '"'

def writeQuoted (text : List Char) : List Char :=
  if IsBare text then text
  else '"' :: (text.flatMap (fun c ↦ if c = '"' then ['\\', '"'] else [c]) ++ ['"'])

def renderedPair (pair : String × String) : List Char :=
  writeQuoted pair.1.toList ++ '=' :: writeQuoted pair.2.toList

def renderedFields (D : FieldDisplay) (fields : List (String × FieldValue)) : List Char :=
  join [' '] (fields.map fun f ↦ renderedPair (f.1, f.2.display D))

abbrev IsVisible (c : Char) : Prop := (isControl c || isInvisibleOrReordering c) = false

/-! ## Reading an escaped text -/

theorem forall_mem_toDigits {k : ℕ} (hk : 1 < k) {p : Char → Prop}
    (h : ∀ d < k, p (Nat.digitChar d)) (n : ℕ) : ∀ c ∈ Nat.toDigits k n, p c := by
  induction n using Nat.strong_induction_on with
  | _ n ih =>
    rw [Nat.toDigits_eq_if hk]
    split
    next hn => exact forall_mem_singleton.mpr (h n hn)
    · rw [List.forall_mem_append, forall_mem_singleton]
      exact ⟨ih (n / k) (Nat.div_lt_self (by omega) hk), h _ (Nat.mod_lt n (by omega))⟩

def hexValue (digits : List Char) : ℕ :=
  digits.foldl (fun n c ↦ n * 16 + "0123456789abcdef".toList.idxOf c) 0

theorem hexValue_toDigits (n : ℕ) : hexValue (Nat.toDigits 16 n) = n := by
  have hdigit : ∀ d < 16, "0123456789abcdef".toList.idxOf (Nat.digitChar d) = d := by decide
  induction n using Nat.strong_induction_on with
  | _ n ih =>
    rw [Nat.toDigits_eq_if (by decide)]
    split
    next h =>
      rw [hexValue, foldl_cons, foldl_nil, hdigit n h]
      omega
    · have hlast : n % 16 < 16 := Nat.mod_lt n (by decide)
      rw [hexValue, foldl_append, foldl_cons, foldl_nil, hdigit _ hlast, ← hexValue,
        ih (n / 16) (by omega)]
      omega

def readMark : List Char → Char
  | 'n' :: _ => '\n'
  | 'r' :: _ => '\r'
  | 't' :: _ => '\t'
  | 'u' :: s => Char.ofNat (hexValue (s.tail.takeWhile (· ≠ '}')))
  | c :: _ => c
  | [] => ' '

def readLogChar (s : List Char) : Char :=
  if s.headD ' ' = '\\' then readMark s.tail else s.headD ' '

theorem readMark_hex (n : ℕ) (s : List Char) :
    readMark ('u' :: '{' :: (Nat.toDigits 16 n ++ '}' :: s)) = Char.ofNat n := by
  have hdigits : ∀ d ∈ Nat.toDigits 16 n, decide (d ≠ '}') = true :=
    forall_mem_toDigits (by decide) (by decide) n
  change Char.ofNat (hexValue ((Nat.toDigits 16 n ++ '}' :: s).takeWhile _)) = _
  rw [takeWhile_append_of_pos hdigits, takeWhile_cons_of_neg (by decide), append_nil,
    hexValue_toDigits]

theorem readLogChar_append (c : Char) (s : List Char) : readLogChar (escapeLogChar c ++ s) = c := by
  unfold escapeLogChar
  split_ifs with h1 h2 h3 h4 h5
  · exact h1.symm
  · exact h2.symm
  · exact h3.symm
  · exact h4.symm
  · change readMark ('u' :: '{' :: (Nat.toDigits 16 c.toNat ++ ['}'] ++ s)) = c
    rw [append_assoc, singleton_append, readMark_hex, Char.ofNat_toNat]
  · exact if_neg h1

/-- What an escape is written with. -/
def IsMark (c : Char) : Prop := 0x20 < c.toNat ∧ c.toNat < 0x7f ∧ c ≠ '"'

instance : DecidablePred IsMark := fun c ↦ by unfold IsMark; infer_instance

theorem mem_escapeLogChar {c d : Char} (h : d ∈ escapeLogChar c) :
    IsMark d ∨ d = c ∧ IsVisible c := by
  unfold escapeLogChar at h
  split_ifs at h with h1 h2 h3 h4 h5
  · rcases mem_pair.mp h with rfl | rfl <;> exact .inl (by decide)
  · rcases mem_pair.mp h with rfl | rfl <;> exact .inl (by decide)
  · rcases mem_pair.mp h with rfl | rfl <;> exact .inl (by decide)
  · rcases mem_pair.mp h with rfl | rfl <;> exact .inl (by decide)
  · simp only [mem_cons, mem_append, not_mem_nil, or_false] at h
    rcases h with rfl | rfl | rfl | h | rfl
    · exact .inl (by decide)
    · exact .inl (by decide)
    · exact .inl (by decide)
    · have hdigit : ∀ k < 16, IsMark (Nat.digitChar k) := by decide
      exact .inl (forall_mem_toDigits (by decide) hdigit _ d h)
    · exact .inl (by decide)
  · exact .inr ⟨mem_singleton.mp h, Bool.eq_false_of_not_eq_true h5⟩

/-! ## Reading a rendered text -/

def quoteLogChar (c : Char) : List Char := if c = '"' then ['\\', '"'] else escapeLogChar c

theorem readLogChar_quoteLogChar_append (c : Char) (s : List Char) :
    readLogChar (quoteLogChar c ++ s) = c := by
  unfold quoteLogChar
  split_ifs with h
  · exact h.symm
  · exact readLogChar_append c s

theorem prefixCode_quoteLogChar : PrefixCode quoteLogChar '"' := by
  refine ⟨fun {a b s t} h ↦ ?_, fun c ↦ ?_⟩
  · rw [← readLogChar_quoteLogChar_append a s, h, readLogChar_quoteLogChar_append]
  · unfold quoteLogChar escapeLogChar
    split_ifs with h
    all_goals first
      | exact ⟨_, _, rfl, by decide⟩
      | exact ⟨_, _, rfl, h⟩

theorem quoted_flatMap_escapeLogChar (s : List Char) :
    (s.flatMap escapeLogChar).flatMap (fun c ↦ if c = '"' then ['\\', '"'] else [c])
      = s.flatMap quoteLogChar := by
  rw [flatMap_assoc]
  congr 1
  funext c
  unfold quoteLogChar
  split_ifs with h
  · rw [h]
    rfl
  · have hne : ∀ d ∈ escapeLogChar c, (if d = '"' then ['\\', '"'] else [d]) = [d] := by
      intro d hd
      refine if_neg ?_
      rintro rfl
      rcases mem_escapeLogChar hd with hd | ⟨hd, _⟩
      · exact hd.2.2 rfl
      · exact h hd.symm
    rw [flatMap_congr hne, flatMap_singleton']

theorem escapeLogText_injective : Function.Injective escapeLogText := by
  intro s t h
  have hquoted := congrArg (flatMap fun c ↦ if c = '"' then ['\\', '"'] else [c])
    (String.ofList_injective h)
  rw [quoted_flatMap_escapeLogChar, quoted_flatMap_escapeLogChar] at hquoted
  exact String.toList_injective (prefixCode_quoteLogChar.flatMap_injective hquoted)

def Ends (s : List Char) : Prop := ∀ c ∈ s.head?, c = ' ' ∨ c = '='

theorem bare_append_inj {s t u v : List Char} (hs : IsBare s) (ht : IsBare t) (hu : Ends u)
    (hv : Ends v) (h : s ++ u = t ++ v) : s = t ∧ u = v := by
  have htake : ∀ {s u : List Char}, IsBare s → Ends u →
      (s ++ u).takeWhile (fun c ↦ decide (c ≠ ' ' ∧ c ≠ '=')) = s := by
    intro s u hs hu
    rw [takeWhile_append_of_pos fun c hc ↦ decide_eq_true ⟨(hs.2 c hc).1, (hs.2 c hc).2.1⟩]
    rcases u with _ | ⟨c, u⟩
    · exact append_nil s
    · rw [takeWhile_cons_of_neg, append_nil]
      have hc := hu c rfl
      rw [decide_eq_true_eq]
      rintro ⟨h1, h2⟩
      exact hc.elim h1 h2
  obtain rfl : s = t := by rw [← htake hs hu, h, htake ht hv]
  exact ⟨rfl, append_cancel_left h⟩

theorem writeQuoted_append_inj {s t : String} {u v : List Char} (hu : Ends u) (hv : Ends v)
    (h : writeQuoted (escapeLogText s).toList ++ u = writeQuoted (escapeLogText t).toList ++ v) :
    s = t ∧ u = v := by
  have hopen : ∀ {s w w' : List Char}, IsBare s → s ++ w ≠ '"' :: w' := by
    intro s w w' hs heq
    rcases s with _ | ⟨c, s⟩
    · exact hs.1 rfl
    · exact (hs.2 c mem_cons_self).2.2 (cons.inj heq).1
  unfold writeQuoted at h
  split at h
  next hs =>
    split at h
    next ht =>
      obtain ⟨hst, rfl⟩ := bare_append_inj hs ht hu hv h
      exact ⟨escapeLogText_injective (String.toList_injective hst), rfl⟩
    · exact absurd h (hopen hs)
  · split at h
    next ht => exact absurd h.symm (hopen ht)
    · simp only [cons_append, append_assoc, escapeLogText, String.toList_ofList,
        quoted_flatMap_escapeLogChar] at h
      obtain ⟨hst, huv⟩ := prefixCode_quoteLogChar.append_mark_inj (cons.inj h).2
      exact ⟨String.toList_injective hst, huv⟩

theorem join_cons_eq_flatMap (sep : Char) (w : List Char) (ws : List (List Char)) :
    join [sep] (w :: ws) = w ++ ws.flatMap (sep :: ·) := by
  induction ws generalizing w with
  | nil => exact (append_nil w).symm
  | cons v ws ih =>
    rw [join, ih, append_assoc, singleton_append, flatMap_cons, cons_append]
    exact cons_ne_nil v ws

def escapedPair (p : String × String) : String × String := (escapeLogText p.1, escapeLogText p.2)

theorem renderedPair_append_inj {p q : String × String} {u v : List Char} (hu : Ends u)
    (hv : Ends v)
    (h : renderedPair (escapedPair p) ++ u = renderedPair (escapedPair q) ++ v) :
    p = q ∧ u = v := by
  simp only [renderedPair, escapedPair, append_assoc, cons_append] at h
  have heq : ∀ w : List Char, Ends ('=' :: w) := by
    intro w c hc
    exact .inr (Option.some.inj hc).symm
  obtain ⟨hkey, h⟩ := writeQuoted_append_inj (heq _) (heq _) h
  obtain ⟨hvalue, huv⟩ := writeQuoted_append_inj hu hv (cons.inj h).2
  exact ⟨Prod.ext hkey hvalue, huv⟩

theorem renderedPair_ne_nil (p : String × String) : renderedPair p ≠ [] :=
  append_ne_nil_of_right_ne_nil _ (cons_ne_nil _ _)

theorem join_renderedPair_injective :
    Function.Injective fun ps : List (String × String) ↦
      join [' '] (ps.map fun p ↦ renderedPair (escapedPair p)) := by
  let rest (ps : List (String × String)) :=
    (ps.map fun p ↦ renderedPair (escapedPair p)).flatMap (' ' :: ·)
  have hends : ∀ ps, Ends (rest ps) := by
    rintro (_ | ⟨p, ps⟩) c hc
    · contradiction
    · exact .inl (Option.some.inj hc).symm
  have hrest : ∀ ps qs, rest ps = rest qs → ps = qs := by
    intro ps
    induction ps with
    | nil =>
      rintro (_ | ⟨q, qs⟩) h
      · rfl
      · contradiction
    | cons p ps ih =>
      rintro (_ | ⟨q, qs⟩) h
      · contradiction
      · obtain ⟨rfl, hpairs⟩ := renderedPair_append_inj (hends ps) (hends qs) (cons.inj h).2
        rw [ih qs hpairs]
  have hne : ∀ p ps, renderedPair (escapedPair p) ++ rest ps ≠ [] := fun p ps ↦
    append_ne_nil_of_left_ne_nil (renderedPair_ne_nil _) _
  rintro (_ | ⟨p, ps⟩) (_ | ⟨q, qs⟩) h
  all_goals simp only [map_nil, map_cons, join_cons_eq_flatMap] at h
  · rfl
  · exact absurd h.symm (hne q qs)
  · exact absurd h (hne p ps)
  · obtain ⟨rfl, hpairs⟩ := renderedPair_append_inj (hends ps) (hends qs) h
    rw [hrest ps qs hpairs]

/-! ## Records -/

def fieldText (D : FieldDisplay) : Json → String
  | .string s => s
  | .number n => (fieldValue D (.number n)).display D
  | .bool b => toString b
  | other => D.json other

/-- The display of a double has only digits, signs, points and letters, so nothing to escape. -/
def FieldDisplay.Plain (D : FieldDisplay) : Prop :=
  ∀ n, ∀ c ∈ (D.float n).toList, IsMark c ∧ c ≠ '\\'

theorem visible_of_isMark {c : Char} (h : IsMark c) : IsVisible c := by
  obtain ⟨hlow, hhigh, _⟩ := h
  simp only [isControl, isInvisibleOrReordering, Bool.or_eq_false_iff, Bool.and_eq_false_imp,
    decide_eq_true_eq, decide_eq_false_iff_not]
  omega

theorem escapeLogText_of_plain {s : String} (h : ∀ c ∈ s.toList, IsMark c ∧ c ≠ '\\') :
    escapeLogText s = s := by
  have hchar : ∀ c ∈ s.toList, escapeLogChar c = [c] := by
    intro c hc
    obtain ⟨hmark, hslash⟩ := h c hc
    have hne : ∀ d : Char, d.toNat ≤ 0x20 → c ≠ d := by
      rintro d hd rfl
      exact absurd hmark.1 (Nat.not_lt.mpr hd)
    rw [escapeLogChar, if_neg hslash, if_neg (hne _ (by decide)), if_neg (hne _ (by decide)),
      if_neg (hne _ (by decide)), visible_of_isMark hmark, if_neg Bool.false_ne_true]
  rw [escapeLogText, flatMap_congr hchar, flatMap_singleton', String.ofList_toList]

theorem plain_toString (i : ℤ) : ∀ c ∈ (toString i).toList, IsMark c ∧ c ≠ '\\' := by
  have hnat : ∀ n : ℕ, ∀ c ∈ (Nat.repr n).toList, IsMark c ∧ c ≠ '\\' := by
    intro n
    rw [Nat.toList_repr]
    exact forall_mem_toDigits (by decide) (by decide) n
  rcases i with n | n
  · exact hnat n
  · intro c hc
    have hsign : toString (Int.negSucc n) = "-" ++ Nat.repr (n + 1) := rfl
    rw [hsign, String.toList_append] at hc
    rcases mem_append.mp hc with hc | hc
    · rw [mem_singleton.mp hc]
      decide
    · exact hnat _ c hc

theorem display_fieldValue {D : FieldDisplay} (hD : D.Plain) (v : Json) :
    (fieldValue D v).display D = escapeLogText (fieldText D v) := by
  rcases v with _ | b | n | s | items | fields
  · rfl
  · have hplain : ∀ b : Bool, escapeLogText (toString b) = toString b := by decide
    exact (hplain b).symm
  · have hplain : ∀ c ∈ ((fieldValue D (.number n)).display D).toList, IsMark c ∧ c ≠ '\\' := by
      rw [fieldValue]
      split
      · exact plain_toString _
      · exact hD n
    exact (escapeLogText_of_plain hplain).symm
  · rfl
  · rfl
  · rfl

theorem escapedPair_injective : Function.Injective escapedPair := by
  intro p q h
  obtain ⟨h1, h2⟩ := Prod.mk.inj h
  exact Prod.ext (escapeLogText_injective h1) (escapeLogText_injective h2)

def fieldTexts (D : FieldDisplay) (m : List (String × Json)) : List (String × String) :=
  m.map fun f ↦ (f.1, fieldText D f.2)

theorem renderedFields_eq {D : FieldDisplay} (hD : D.Plain) (m : List (String × Json)) :
    ∃ ps : List (String × String), renderedFields D (jsonFieldsToServiceFields D m)
        = join [' '] (ps.map fun p ↦ renderedPair (escapedPair p)) ∧
      ps.map escapedPair = sortKeys ((fieldTexts D m).map escapedPair) := by
  have hsort : ((fieldTexts D m).insertionSort fun a b ↦ escapeLogText a.1 ≤ escapeLogText b.1).map
      escapedPair = sortKeys ((fieldTexts D m).map escapedPair) :=
    map_insertionSort _ _ _ _ fun _ _ _ _ ↦ Iff.rfl
  refine ⟨_, ?_, hsort⟩
  have hshow : (jsonFieldsToServiceFields D m).map (fun f ↦ (f.1, f.2.display D))
      = sortKeys ((fieldTexts D m).map escapedPair) := by
    have hmap := map_insertionSort (fun a b ↦ a.1 ≤ b.1) (fun a b ↦ a.1 ≤ b.1)
      (fun f : String × FieldValue ↦ (f.1, f.2.display D))
      (m.map fun f ↦ (escapeLogText f.1, fieldValue D f.2)) fun _ _ _ _ ↦ Iff.rfl
    rw [jsonFieldsToServiceFields]
    refine hmap.trans ?_
    rw [sortKeys, fieldTexts, map_map, map_map]
    congr 2
    funext f
    exact Prod.ext rfl (display_fieldValue hD f.2)
  have hpairs := congrArg (fun l ↦ join [' '] (l.map renderedPair)) (hshow.trans hsort.symm)
  rwa [map_map, map_map] at hpairs

theorem visible_of_mem_writeQuoted {s : String} {c : Char}
    (h : c ∈ writeQuoted (escapeLogText s).toList) : IsVisible c := by
  have hquote : IsVisible '"' := by decide
  have hescaped : ∀ c ∈ s.toList.flatMap escapeLogChar, IsVisible c := by
    intro c hc
    obtain ⟨d, _, hd⟩ := mem_flatMap.mp hc
    rcases mem_escapeLogChar hd with hmark | ⟨rfl, hvisible⟩
    · exact visible_of_isMark hmark
    · exact hvisible
  rw [escapeLogText, String.toList_ofList, writeQuoted] at h
  split at h
  · exact hescaped c h
  · simp only [mem_cons, mem_append, not_mem_nil, or_false, mem_flatMap] at h
    rcases h with rfl | ⟨d, hd, hc⟩ | rfl
    · exact hquote
    · split at hc
      · rcases mem_pair.mp hc with rfl | rfl
        · decide
        · exact hquote
      · exact mem_singleton.mp hc ▸ hescaped d (mem_flatMap.mpr hd)
    · exact hquote

/-- **Records are rendered on one line, and without ambiguity.** No text breaks the line or changes
the order in which it reads, and two records have the same line exactly if their maps have the same
texts under the same keys, in whatever order the maps give them. -/
theorem renderedFields_eq_iff {D : FieldDisplay} (hD : D.Plain) {m m' : List (String × Json)}
    (hm : DistinctKeys m) (hm' : DistinctKeys m') :
    (∀ c ∈ renderedFields D (jsonFieldsToServiceFields D m), IsVisible c) ∧
    (renderedFields D (jsonFieldsToServiceFields D m)
        = renderedFields D (jsonFieldsToServiceFields D m') ↔
      (fieldTexts D m).Perm (fieldTexts D m')) := by
  have hdistinct : ∀ {m : List (String × Json)}, DistinctKeys m →
      DistinctKeys ((fieldTexts D m).map escapedPair) := by
    intro m hm
    have hkeys := List.Nodup.map escapeLogText_injective hm
    rw [map_map] at hkeys
    rw [DistinctKeys, fieldTexts, map_map, map_map]
    exact hkeys
  obtain ⟨ps, hps, hsorted⟩ := renderedFields_eq hD m
  obtain ⟨qs, hqs, hsorted'⟩ := renderedFields_eq hD m'
  refine ⟨?_, ?_⟩
  · rw [hps]
    apply forall_mem_join (P := IsVisible) (forall_mem_singleton.mpr (by decide))
    intro w hw c hc
    obtain ⟨p, _, rfl⟩ := mem_map.mp hw
    rcases mem_append.mp hc with hc | hc
    · exact visible_of_mem_writeQuoted hc
    · rcases mem_cons.mp hc with rfl | hc
      · decide
      · exact visible_of_mem_writeQuoted hc
  rw [hps, hqs, join_renderedPair_injective.eq_iff,
    ← (map_injective_iff.mpr escapedPair_injective).eq_iff, hsorted, hsorted',
    sortKeys_eq_iff (hdistinct hm) (hdistinct hm'), map_perm_map_iff escapedPair_injective]

/-- The displays of the one double and of the one other value below. -/
def sampleDisplay : FieldDisplay := ⟨fun _ ↦ "0.5", fun _ ↦ "null"⟩

def sampleFields : List (String × Json) :=
  [("note", .string "a=1 b"), ("load", .number (.float 0x3fe0000000000000)), ("user", .null)]

theorem renderedFields_reverse :
    renderedFields sampleDisplay (jsonFieldsToServiceFields sampleDisplay sampleFields)
      = renderedFields sampleDisplay
        (jsonFieldsToServiceFields sampleDisplay sampleFields.reverse) := by
  have hplain : sampleDisplay.Plain := by
    intro n c hc
    have htext : "0.5".toList = ['0', '.', '5'] := by decide
    rw [sampleDisplay, htext] at hc
    simp only [mem_cons, not_mem_nil, or_false] at hc
    rcases hc with rfl | rfl | rfl <;> decide
  have hkeys : DistinctKeys sampleFields := by
    rw [DistinctKeys]
    decide
  have hreverse := (reverse_perm sampleFields).symm
  exact (renderedFields_eq_iff hplain hkeys (hkeys.of_perm hreverse)).2.mpr (hreverse.map _)

end WaferRun
