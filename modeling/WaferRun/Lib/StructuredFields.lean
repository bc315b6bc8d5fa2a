import WaferRun.Lib.Text

/-!
# Dictionaries of structured fields

The parsing algorithm of RFC 8941 for dictionaries. What it makes of a number and of the content of
a byte sequence is a parameter (`Leaves`): the algorithm of the RFC bounds the digits of a number
and decodes a byte sequence (`Leaves.strict`), and many readers take any run of the right characters
for one (`Leaves.lenient`).

A lenient reader differs from the algorithm by these two kinds of items and by nothing else: the
algorithm accepts what the lenient reader accepts if each number and byte sequence that is read is
spelled as the RFC has it (`members_strict_iff`). This is not quite a statement about one item at a
time. The algorithm ends the number `1.2` in `1.2.3` before the second point, and fails only later,
because nothing that may follow an item starts with a point.
-/

open List
open Option (map_eq_some_iff)

namespace StructuredFields

variable {input r s t : List Char} {fuel : ℕ}

/-! ## The algorithm -/

/-- An item without its parameters. A number and the content of a byte sequence are kept as they
are written. -/
inductive BareItem
  | number (text : List Char)
  | string (chars : List Char)
  | token (text : List Char)
  | bytes (content : List Char)
  | boolean (value : Bool)
deriving DecidableEq, Repr

/-- How numbers and the contents of byte sequences are read. -/
structure Leaves where
  number : List Char → Option (List Char × List Char)
  decodes : List Char → Bool

abbrev Params := List (List Char × Option BareItem)

structure Item where
  bare : BareItem
  params : Params
deriving DecidableEq, Repr

/-- The value of a member; one that is left out is true. -/
inductive Value
  | flag (params : Params)
  | item (item : Item)
  | inner (items : List Item) (params : Params)
deriving DecidableEq, Repr

structure Member where
  key : List Char
  value : Value
deriving DecidableEq, Repr

def isKeyChar (c : Char) : Bool := c.isLower || c.isDigit || c ∈ ['_', '-', '.', '*']

def key : List Char → Option (List Char × List Char)
  | [] => none
  | c :: s =>
    if c.isLower || c = '*' then some (c :: s.takeWhile isKeyChar, s.dropWhile isKeyChar) else none

def string : List Char → Option (List Char × List Char)
  | [] => none
  | c :: s =>
    if c = '\\' then
      match s with
      | [] => none
      | b :: s => if b = '"' ∨ b = '\\' then (string s).map fun tr ↦ (b :: tr.1, tr.2) else none
    else if c = '"' then some ([], s)
    else if ' ' ≤ c ∧ c ≤ '~' then (string s).map fun tr ↦ (c :: tr.1, tr.2)
    else none

def isTokenChar (c : Char) : Bool :=
  c.isAlphanum || c ∈ "!#$%&'*+-.^_`|~".toList || c = ':' || c = '/'

def isSequenceChar (c : Char) : Bool := c.isAlphanum || c ∈ ['+', '/', '=']

def bytes (L : Leaves) (s : List Char) : Option (BareItem × List Char) :=
  match s.dropWhile (· ≠ ':') with
  | [] => none
  | _ :: r =>
    let content := s.takeWhile (· ≠ ':')
    if content.all isSequenceChar && L.decodes content then some (.bytes content, r) else none

def boolean : List Char → Option (BareItem × List Char)
  | '1' :: s => some (.boolean true, s)
  | '0' :: s => some (.boolean false, s)
  | _ => none

def bareItem (L : Leaves) : List Char → Option (BareItem × List Char)
  | [] => none
  | c :: s =>
    if c.isDigit || c = '-' then (L.number (c :: s)).map fun tr ↦ (.number tr.1, tr.2)
    else if c = '"' then (string s).map fun tr ↦ (.string tr.1, tr.2)
    else if c = ':' then bytes L s
    else if c = '?' then boolean s
    else if c.isAlpha || c = '*' then
      some (.token (c :: s.takeWhile isTokenChar), s.dropWhile isTokenChar)
    else none

/-- Parse parameters, at most `fuel` of them. -/
def params (L : Leaves) : ℕ → List Char → Option (Params × List Char)
  | 0, _ => none
  | fuel + 1, s =>
    if s.head? = some ';' then
      match key (s.tail.dropWhile (· = ' ')) with
      | none => none
      | some (k, s) =>
        if s.head? = some '=' then
          match bareItem L s.tail with
          | none => none
          | some (b, s) => (params L fuel s).map fun pr ↦ ((k, some b) :: pr.1, pr.2)
        else (params L fuel s).map fun pr ↦ ((k, none) :: pr.1, pr.2)
    else some ([], s)

def item (L : Leaves) (s : List Char) : Option (Item × List Char) :=
  match bareItem L s with
  | none => none
  | some (b, s) => (params L (s.length + 1) s).map fun pr ↦ (⟨b, pr.1⟩, pr.2)

/-- Parse the items of an inner list after its opening bracket, in at most `fuel` rounds, and the
parameters of the list. -/
def innerList (L : Leaves) : ℕ → List Char → Option ((List Item × Params) × List Char)
  | 0, _ => none
  | fuel + 1, s =>
    let s := s.dropWhile (· = ' ')
    if s = [] then none
    else if s.head? = some ')' then
      (params L (s.length + 1) s.tail).map fun pr ↦ (([], pr.1), pr.2)
    else
      match item L s with
      | none => none
      | some (i, s) =>
        if s.head? = some ' ' ∨ s.head? = some ')' then
          (innerList L fuel s).map fun lr ↦ ((i :: lr.1.1, lr.1.2), lr.2)
        else none

def value (L : Leaves) (s : List Char) : Option (Value × List Char) :=
  if s.head? = some '=' then
    if s.tail.head? = some '(' then
      (innerList L (s.tail.length + 1) s.tail.tail).map fun lr ↦ (.inner lr.1.1 lr.1.2, lr.2)
    else (item L s.tail).map fun ir ↦ (.item ir.1, ir.2)
  else (params L (s.length + 1) s).map fun pr ↦ (.flag pr.1, pr.2)

/-- Optional white space. -/
def isOws (c : Char) : Bool := c = ' ' || c = '\t'

/-- Parse the members of a dictionary, in at most `fuel` rounds. -/
def members (L : Leaves) : ℕ → List Char → Option (List Member)
  | 0, _ => none
  | fuel + 1, s =>
    if s = [] then some []
    else
      match key s with
      | none => none
      | some (k, s) =>
        match value L s with
        | none => none
        | some (v, s) =>
          match s.dropWhile isOws with
          | [] => some [⟨k, v⟩]
          | c :: s =>
            if c ≠ ',' then none
            else if s.dropWhile isOws = [] then none
            else (members L fuel (s.dropWhile isOws)).map (⟨k, v⟩ :: ·)

/-- Enter a member into a dictionary; the value of a later one of the same key overwrites that of
the earlier. -/
def overwrite (dict : List Member) (m : Member) : List Member :=
  if dict.any fun n ↦ n.key = m.key then
    dict.map fun n ↦ if n.key = m.key then m else n
  else dict ++ [m]

/-- Parse the members of a text with white space around it. What follows the last member is
discarded by the algorithm itself. -/
def allMembers (L : Leaves) (s : List Char) : Option (List Member) :=
  members L (s.length + 1) (s.dropWhile isOws)

def dictionary (L : Leaves) (s : List Char) : Option (List Member) :=
  (allMembers L s).map fun ms ↦ ms.foldl overwrite []

def escape (chars : List Char) : List Char :=
  chars.flatMap fun c ↦ if c = '"' ∨ c = '\\' then ['\\', c] else [c]

def BareItem.written : BareItem → List Char
  | .number text | .token text => text
  | .string chars => '"' :: (escape chars ++ ['"'])
  | .bytes content => ':' :: (content ++ [':'])
  | .boolean value => ['?', if value then '1' else '0']

def Value.items : Value → List BareItem
  | .flag _ => []
  | .item i => [i.bare]
  | .inner items _ => items.map Item.bare

/-! ## Numbers -/

/-- Consume the digits of a number: whether it is a decimal, what has been consumed of it, and the
rest. -/
def digits (decimal : Bool) (input : List Char) : List Char → Option (Bool × List Char × List Char)
  | [] => some (decimal, input, [])
  | c :: s =>
    if c.isDigit then
      if (!decimal && 15 < (input ++ [c]).length) || (decimal && 16 < (input ++ [c]).length) then
        none
      else digits decimal (input ++ [c]) s
    else if !decimal && c = '.' then
      if 12 < input.length then none else digits true (input ++ [c]) s
    else some (decimal, input, c :: s)

def unsigned (sign s : List Char) : Option (List Char × List Char) :=
  if s.head?.any Char.isDigit then
    match digits false [] s with
    | none => none
    | some (false, input, r) => some (sign ++ input, r)
    | some (true, input, r) =>
      if input.getLast? = some '.' then none
      else if 3 < (input.dropWhile (· ≠ '.')).tail.length then none
      else some (sign ++ input, r)
  else none

/-- Parse an integer or a decimal. -/
def number : List Char → Option (List Char × List Char)
  | '-' :: s => unsigned ['-'] s
  | s => unsigned [] s

def Leaves.strict (decodes : List Char → Bool) : Leaves := ⟨StructuredFields.number, decodes⟩

def isNumberChar (c : Char) : Bool := c.isDigit || c = '.'

/-- A lenient reader of numbers takes a sign or a digit and all digits and points after it. -/
def lenientNumber : List Char → Option (List Char × List Char)
  | [] => none
  | c :: s => some (c :: s.takeWhile isNumberChar, s.dropWhile isNumberChar)

def Leaves.lenient : Leaves := ⟨lenientNumber, fun _ ↦ true⟩

/-- Between `least` and `most` digits. -/
structure IsDigits (least most : ℕ) (t : List Char) : Prop where
  digit : ∀ c ∈ t, c.isDigit = true
  least_le : least ≤ t.length
  le_most : t.length ≤ most

def IsSign (sign : List Char) : Prop := sign = [] ∨ sign = ['-']

inductive IsNumber : List Char → Prop
  | integer {sign int : List Char} (hs : IsSign sign) (hi : IsDigits 1 15 int) :
    IsNumber (sign ++ int)
  | decimal {sign int frac : List Char} (hs : IsSign sign) (hi : IsDigits 1 12 int)
    (hf : IsDigits 1 3 frac) : IsNumber (sign ++ (int ++ '.' :: frac))

/-- A text that does not go on with a character of a kind. -/
def Stops (p : Char → Bool) (r : List Char) : Prop := ∀ c, r.head? = some c → p c = false

theorem Stops.any_eq_false {p : Char → Bool} (h : Stops p r) : r.head?.any p = false := by
  cases r with
  | nil => rfl
  | cons c r => exact h c rfl

theorem takeWhile_append_of_stops {p : Char → Bool} (ht : ∀ c ∈ t, p c = true) (hr : Stops p r) :
    (t ++ r).takeWhile p = t ∧ (t ++ r).dropWhile p = r := by
  rw [takeWhile_append_of_pos ht, dropWhile_append_of_pos ht]
  cases r with
  | nil => exact ⟨append_nil t, rfl⟩
  | cons c r =>
    have hc : ¬p c = true := by
      rw [hr c rfl]
      exact Bool.false_ne_true
    rw [takeWhile_cons_of_neg hc, dropWhile_cons_of_neg hc, append_nil]
    exact ⟨rfl, rfl⟩

theorem stops_dropWhile (p : Char → Bool) (s : List Char) : Stops p (s.dropWhile p) := by
  intro c hc
  have := List.head?_dropWhile_not p s
  rw [hc] at this
  exact Bool.eq_false_iff.mpr (by simpa using this)

theorem digits_run (decimal : Bool) {u : List Char} (hu : ∀ c ∈ u, c.isDigit = true)
    (hlen : input.length + u.length ≤ if decimal then 16 else 15) :
    digits decimal input (u ++ r) = digits decimal (input ++ u) r := by
  induction u generalizing input with
  | nil => rw [nil_append, append_nil]
  | cons c u ih =>
    obtain ⟨hc, hu⟩ := forall_mem_cons.mp hu
    have hlength : (input ++ [c]).length + u.length = input.length + (c :: u).length := by
      rw [length_append, length_singleton, length_cons]
      omega
    have hrest := @ih (input ++ [c]) hu (hlength.trans_le hlen)
    rw [append_assoc, singleton_append] at hrest
    rw [cons_append, digits, if_pos hc, if_neg, hrest]
    cases decimal <;> simp at hlen ⊢ <;> omega

theorem digits_fraction {u : List Char} (hu : ∀ c ∈ u, c.isDigit = true) (hr : Stops Char.isDigit r)
    (hlen : input.length + u.length ≤ 16) :
    digits true input (u ++ r) = some (true, input ++ u, r) := by
  rw [digits_run true hu hlen]
  cases r with
  | nil => rfl
  | cons c r =>
    rw [digits, hr c rfl]
    rfl

theorem digits_stop (hr : Stops isNumberChar r) :
    digits false input r = some (false, input, r) := by
  cases r with
  | nil => rfl
  | cons c r =>
    have hc := hr c rfl
    rw [isNumberChar, Bool.or_eq_false_iff] at hc
    rw [digits, hc.1, hc.2]
    rfl

theorem number_of_head (h : s.head?.any Char.isDigit = true) : number s = unsigned [] s := by
  unfold number
  split
  next s =>
    change '-'.isDigit = true at h
    exact absurd h (by decide)
  · rfl

theorem ne_point_of_isDigit {c : Char} (h : c.isDigit = true) : c ≠ '.' := by
  rintro rfl
  revert h
  decide

/-- A number is read if what follows does not go on with it. -/
theorem number_of_isNumber (ht : IsNumber t) (hr : Stops isNumberChar r) :
    number (t ++ r) = some (t, r) := by
  have hdigit : Stops Char.isDigit r := fun c hc ↦ (Bool.or_eq_false_iff.mp (hr c hc)).1
  have hsign {sign int s : List Char} (hs : IsSign sign) (hi : IsDigits 1 15 int) :
      (int ++ s).head?.any Char.isDigit = true ∧
        number (sign ++ (int ++ s)) = unsigned sign (int ++ s) := by
    obtain ⟨d, int, rfl⟩ := exists_cons_of_length_pos hi.least_le
    have hd := hi.digit d mem_cons_self
    refine ⟨hd, ?_⟩
    rcases hs with rfl | rfl
    · exact number_of_head hd
    · rfl
  cases ht with
  | integer hs hi =>
    obtain ⟨hhead, hnumber⟩ := @hsign _ _ r hs hi
    rw [append_assoc, hnumber, unsigned, if_pos hhead,
      digits_run false hi.digit (by simpa using hi.le_most), digits_stop hr]
    rfl
  | @decimal sign int frac hs hi hf =>
    have hi' : IsDigits 1 15 int := ⟨hi.digit, hi.least_le, hi.le_most.trans (by decide)⟩
    have hint := hi.le_most
    have hfrac := hf.le_most
    have hpoint : digits false int ('.' :: (frac ++ r)) = digits true (int ++ ['.']) (frac ++ r) := by
      rw [digits, if_neg (by decide), if_pos (by decide), if_neg (by omega)]
    have hlast : (int ++ '.' :: frac).getLast? ≠ some '.' := by
      obtain ⟨d, hd⟩ := Option.isSome_iff_exists.mp
        (List.getLast?_isSome.mpr (ne_nil_of_length_pos hf.least_le))
      rw [List.getLast?_append, List.getLast?_cons, hd]
      intro heq
      exact ne_point_of_isDigit (hf.digit d (mem_of_getLast? hd)) (by simpa using heq)
    have htail : ((int ++ '.' :: frac).dropWhile (· ≠ '.')).tail = frac := by
      rw [dropWhile_append_of_pos, dropWhile_cons_of_neg (by decide), tail_cons]
      exact fun c hc ↦ decide_eq_true (ne_point_of_isDigit (hi.digit c hc))
    obtain ⟨hhead, hnumber⟩ := @hsign _ _ ('.' :: (frac ++ r)) hs hi'
    rw [append_assoc, append_assoc, cons_append, hnumber, unsigned, if_pos hhead,
      digits_run false hi.digit (by simpa using hi'.le_most), nil_append, hpoint,
      digits_fraction hf.digit hdigit]
    · dsimp only
      rw [append_assoc, singleton_append, if_neg hlast, htail, if_neg (by omega)]
    · rw [length_append, length_singleton]
      omega

theorem digits_fraction_inv {out : List Char} {decimal : Bool}
    (h : digits true input s = some (decimal, out, r)) :
    decimal = true ∧ ∃ u, s = u ++ r ∧ out = input ++ u ∧ (∀ c ∈ u, c.isDigit = true) ∧
      Stops Char.isDigit r := by
  induction s generalizing input with
  | nil =>
    cases h
    exact ⟨rfl, [], rfl, (append_nil _).symm, nofun, nofun⟩
  | cons c s ih =>
    rw [digits] at h
    split at h
    next hc =>
      split at h
      · cases h
      obtain ⟨hd, u, rfl, rfl, hu, hr⟩ := ih h
      exact ⟨hd, c :: u, rfl, append_assoc _ _ _, forall_mem_cons.mpr ⟨hc, hu⟩, hr⟩
    next hc =>
      rw [Bool.not_true, Bool.false_and, if_neg nofun] at h
      cases h
      refine ⟨rfl, [], rfl, (append_nil _).symm, nofun, fun d hd ↦ ?_⟩
      cases hd
      exact Bool.eq_false_iff.mpr hc

theorem digits_inv {out : List Char} {decimal : Bool} (hin : input.length ≤ 15)
    (h : digits false input s = some (decimal, out, r)) :
    ∃ u, (∀ c ∈ u, c.isDigit = true) ∧ (input ++ u).length ≤ 15 ∧
      ((decimal = false ∧ s = u ++ r ∧ out = input ++ u ∧ Stops isNumberChar r) ∨
        (decimal = true ∧ (input ++ u).length ≤ 12 ∧ ∃ f, s = u ++ '.' :: (f ++ r) ∧
          out = input ++ u ++ '.' :: f ∧ (∀ c ∈ f, c.isDigit = true) ∧ Stops Char.isDigit r)) := by
  induction s generalizing input with
  | nil =>
    cases h
    exact ⟨[], nofun, by simpa using hin, .inl ⟨rfl, rfl, (append_nil _).symm, nofun⟩⟩
  | cons c s ih =>
    rw [digits] at h
    split at h
    next hc =>
      split at h
      · cases h
      next hshort =>
        have hlen : (input ++ [c]).length ≤ 15 := by simpa using hshort
        obtain ⟨u, hu, hulen, hcase⟩ := ih hlen h
        rw [append_assoc, singleton_append] at hulen hcase
        refine ⟨c :: u, forall_mem_cons.mpr ⟨hc, hu⟩, hulen, ?_⟩
        rcases hcase with ⟨hd, rfl, hout, hr⟩ | ⟨hd, hlen, f, rfl, hout, hf, hr⟩
        · exact .inl ⟨hd, rfl, hout, hr⟩
        · exact .inr ⟨hd, hlen, f, rfl, hout, hf, hr⟩
    next hc =>
      split at h
      next hpoint =>
        have hdot : c = '.' := by simpa using hpoint
        subst hdot
        split at h
        · cases h
        next hshort =>
          obtain ⟨hd, f, rfl, rfl, hf, hr⟩ := digits_fraction_inv h
          rw [append_assoc, singleton_append]
          refine ⟨[], nofun, by simpa using hin, .inr ⟨hd, ?_, f, rfl, ?_, hf, hr⟩⟩
          · rw [append_nil]
            omega
          · rw [append_nil]
      next hpoint =>
        cases h
        refine ⟨[], nofun, by simpa using hin, .inl ⟨rfl, rfl, (append_nil _).symm, ?_⟩⟩
        intro d hd
        cases hd
        rw [isNumberChar, Bool.or_eq_false_iff]
        exact ⟨Bool.eq_false_iff.mpr hc, by simpa using hpoint⟩

/-- A number that is read is spelled as one, and ends where its digits end. -/
theorem isNumber_of_number (h : number s = some (t, r)) :
    IsNumber t ∧ s = t ++ r ∧ Stops Char.isDigit r := by
  have hunsigned {sign s : List Char} (hs : IsSign sign) (h : unsigned sign s = some (t, r)) :
      IsNumber t ∧ sign ++ s = t ++ r ∧ Stops Char.isDigit r := by
    unfold unsigned at h
    split at h
    next hhead =>
      split at h
      · cases h
      next input r' hdigits =>
        cases h
        obtain ⟨u, hu, hlen, ⟨-, rfl, hout, hr⟩ | ⟨hd, -⟩⟩ := digits_inv (by decide) hdigits
        · rw [nil_append] at hout hlen
          subst hout
          have hpos : 1 ≤ input.length := by
            cases input with
            | nil =>
              rw [nil_append, Stops.any_eq_false fun c hc ↦
                (Bool.or_eq_false_iff.mp (hr c hc)).1] at hhead
              cases hhead
            | cons c u => exact Nat.succ_le_succ (Nat.zero_le _)
          refine ⟨.integer hs ⟨hu, hpos, hlen⟩, (append_assoc _ _ _).symm, ?_⟩
          · exact fun c hc ↦ (Bool.or_eq_false_iff.mp (hr c hc)).1
        · cases hd
      next input r' hdigits =>
        split at h
        · cases h
        next hlast =>
          split at h
          · cases h
          next hshort =>
            cases h
            obtain ⟨u, hu, -, ⟨hd, -⟩ | ⟨-, hlen, f, rfl, rfl, hf, hr⟩⟩ :=
              digits_inv (by decide) hdigits
            · cases hd
            · rw [nil_append] at hlen hlast hshort ⊢
              have hpos : 1 ≤ u.length := by
                cases u with
                | nil => cases hhead
                | cons c u => exact Nat.succ_le_succ (Nat.zero_le _)
              have hfpos : 1 ≤ f.length := by
                cases f with
                | nil => exact absurd (List.getLast?_concat) hlast
                | cons c f => exact Nat.succ_le_succ (Nat.zero_le _)
              rw [dropWhile_append_of_pos, dropWhile_cons_of_neg (by decide),
                tail_cons] at hshort
              · refine ⟨.decimal hs ⟨hu, hpos, hlen⟩ ⟨hf, hfpos, by omega⟩, ?_, hr⟩
                rw [append_assoc, append_assoc, cons_append]
              · exact fun c hc ↦ decide_eq_true (ne_point_of_isDigit (hu c hc))
    · cases h
  unfold number at h
  split at h
  · exact hunsigned (.inr rfl) h
  · exact hunsigned (.inl rfl) h

/-! ## Reading leniently -/

def BareItem.IsSpelled (decodes : List Char → Bool) : BareItem → Prop
  | .number t => IsNumber t
  | .bytes content => decodes content = true
  | .string _ | .token _ | .boolean _ => True

def Params.bareItems (ps : Params) : List BareItem := ps.filterMap Prod.snd

def Item.bareItems (i : Item) : List BareItem := i.bare :: Params.bareItems i.params

def Value.bareItems : Value → List BareItem
  | .flag ps => Params.bareItems ps
  | .item i => i.bareItems
  | .inner items ps => items.flatMap Item.bareItems ++ Params.bareItems ps

def Member.bareItems (m : Member) : List BareItem := m.value.bareItems

def Spelled (decodes : List Char → Bool) (bs : List BareItem) : Prop :=
  ∀ b ∈ bs, b.IsSpelled decodes

section Lenient

variable {decodes : List Char → Bool}

theorem Spelled.append_iff {bs cs : List BareItem} :
    Spelled decodes (bs ++ cs) ↔ Spelled decodes bs ∧ Spelled decodes cs := forall_mem_append

theorem Spelled.cons_iff {b : BareItem} {bs : List BareItem} :
    Spelled decodes (b :: bs) ↔ b.IsSpelled decodes ∧ Spelled decodes bs := forall_mem_cons

theorem Spelled.nil : Spelled decodes [] := nofun

theorem IsNumber.exists_cons (ht : IsNumber t) :
    ∃ c t', t = c :: t' ∧ ∀ d ∈ t', isNumberChar d = true := by
  have hdigits {u : List Char} (hu : ∀ c ∈ u, c.isDigit = true) : ∀ d ∈ u, isNumberChar d = true :=
    fun d hd ↦ by rw [isNumberChar, hu d hd, Bool.true_or]
  have hcons {sign u : List Char} (hs : IsSign sign) (hu : ∀ d ∈ u, isNumberChar d = true)
      (hpos : 1 ≤ u.length) : ∃ c t', sign ++ u = c :: t' ∧ ∀ d ∈ t', isNumberChar d = true := by
    rcases hs with rfl | rfl
    · obtain ⟨c, u, rfl⟩ := exists_cons_of_length_pos hpos
      exact ⟨c, u, rfl, (forall_mem_cons.mp hu).2⟩
    · exact ⟨'-', u, rfl, hu⟩
  cases ht with
  | integer hs hi => exact hcons hs (hdigits hi.digit) hi.least_le
  | decimal hs hi hf =>
    refine hcons hs (fun d hd ↦ ?_) ?_
    · rcases mem_append.mp hd with hd | hd
      · exact hdigits hi.digit d hd
      · rcases mem_cons.mp hd with rfl | hd
        · rfl
        · exact hdigits hf.digit d hd
    · rw [length_append]
      exact hi.least_le.trans (Nat.le_add_right _ _)

/-- **A number is read by the algorithm if it is read leniently and spelled right**, unless it is
followed by a point. -/
theorem number_iff (hr : r.head? ≠ some '.') :
    number s = some (t, r) ↔ lenientNumber s = some (t, r) ∧ IsNumber t := by
  constructor
  · intro h
    obtain ⟨ht, rfl, hdigit⟩ := isNumber_of_number h
    obtain ⟨c, t, rfl, htail⟩ := ht.exists_cons
    have hstop : Stops isNumberChar r := fun d hd ↦ by
      rw [isNumberChar, hdigit d hd, Bool.false_or]
      exact decide_eq_false fun heq ↦ hr (heq ▸ hd)
    obtain ⟨htake, hdrop⟩ := takeWhile_append_of_stops htail hstop
    refine ⟨?_, ht⟩
    rw [cons_append, lenientNumber, htake, hdrop]
  · rintro ⟨h, ht⟩
    cases s with
    | nil => cases h
    | cons c s =>
      cases h
      have := number_of_isNumber ht (stops_dropWhile isNumberChar s)
      rwa [cons_append, takeWhile_append_dropWhile] at this

theorem bytes_iff {b : BareItem} :
    bytes (.strict decodes) s = some (b, r) ↔
      bytes .lenient s = some (b, r) ∧ b.IsSpelled decodes := by
  unfold bytes
  cases s.dropWhile (· ≠ ':') with
  | nil => exact ⟨nofun, fun h ↦ absurd h.1 nofun⟩
  | cons c s' =>
    have hsplit (d : List Char → Bool) (n : List Char → Option (List Char × List Char)) :
        (if (s.takeWhile (· ≠ ':')).all isSequenceChar && (Leaves.mk n d).decodes
            (s.takeWhile (· ≠ ':')) then some (BareItem.bytes (s.takeWhile (· ≠ ':')), s')
          else none) = some (b, r) ↔
        (s.takeWhile (· ≠ ':')).all isSequenceChar = true ∧ d (s.takeWhile (· ≠ ':')) = true ∧
          BareItem.bytes (s.takeWhile (· ≠ ':')) = b ∧ s' = r := by
      rw [Option.ite_none_right_eq_some, Bool.and_eq_true, Option.some.injEq, Prod.mk.injEq,
        and_assoc]
    refine (hsplit decodes _).trans (Iff.trans ?_ (and_congr_left' (hsplit _ _).symm))
    constructor
    · rintro ⟨hall, hd, rfl, rfl⟩
      exact ⟨⟨hall, rfl, rfl, rfl⟩, hd⟩
    · rintro ⟨⟨hall, -, rfl, rfl⟩, hd⟩
      exact ⟨hall, hd, rfl, rfl⟩

theorem bareItem_iff {b : BareItem} (hr : r.head? ≠ some '.') :
    bareItem (.strict decodes) s = some (b, r) ↔
      bareItem .lenient s = some (b, r) ∧ b.IsSpelled decodes := by
  cases s with
  | nil => exact ⟨fun h ↦ (by cases h), fun h ↦ (by cases h.1)⟩
  | cons c s =>
    rw [bareItem, bareItem]
    split
    · rw [map_eq_some_iff, map_eq_some_iff]
      constructor
      · rintro ⟨⟨t, r'⟩, h, heq⟩
        cases heq
        obtain ⟨hlenient, ht⟩ := (number_iff hr).mp h
        exact ⟨⟨(t, r'), hlenient, rfl⟩, ht⟩
      · rintro ⟨⟨⟨t, r'⟩, h, heq⟩, hb⟩
        cases heq
        exact ⟨(t, r'), (number_iff hr).mpr ⟨h, hb⟩, rfl⟩
    split
    · refine ⟨fun h ↦ ⟨h, ?_⟩, fun h ↦ h.1⟩
      obtain ⟨tr, -, heq⟩ := map_eq_some_iff.mp h
      cases heq
      trivial
    split
    · exact bytes_iff
    split
    · refine ⟨fun h ↦ ⟨h, ?_⟩, fun h ↦ h.1⟩
      unfold boolean at h
      split at h
      · cases h
        trivial
      · cases h
        trivial
      · cases h
    split
    · refine ⟨fun h ↦ ⟨h, ?_⟩, fun h ↦ h.1⟩
      cases h
      trivial
    · exact ⟨fun h ↦ (by cases h), fun h ↦ (by cases h.1)⟩

theorem params_end {L : Leaves} {ps : Params} (h : params L fuel s = some (ps, r)) :
    s.head? = some ';' ∨ (ps = [] ∧ r = s) := by
  cases fuel with
  | zero => cases h
  | succ fuel =>
    rw [params] at h
    split at h
    next hs => exact .inl hs
    · cases h
      exact .inr ⟨rfl, rfl⟩

theorem params_start {L : Leaves} {ps : Params} (h : params L fuel s = some (ps, r))
    (hr : r.head? ≠ some '.') : s.head? ≠ some '.' := by
  rcases params_end h with hs | ⟨-, rfl⟩
  · rw [hs]
    decide
  · exact hr

theorem map_iff {α β : Type} (f : α → β) (P : α → Prop) (Q : β → Prop)
    {x y : Option (α × List Char)} {b : β} (hQ : ∀ a, Q (f a) ↔ P a)
    (h : ∀ a, x = some (a, r) ↔ y = some (a, r) ∧ P a) :
    (x.map fun t ↦ (f t.1, t.2)) = some (b, r) ↔
      (y.map fun t ↦ (f t.1, t.2)) = some (b, r) ∧ Q b := by
  rw [map_eq_some_iff, map_eq_some_iff]
  constructor
  · rintro ⟨⟨a, r'⟩, hx, heq⟩
    cases heq
    obtain ⟨hy, ha⟩ := (h a).mp hx
    exact ⟨⟨_, hy, rfl⟩, (hQ a).mpr ha⟩
  · rintro ⟨⟨⟨a, r'⟩, hy, heq⟩, hb⟩
    cases heq
    exact ⟨_, (h a).mpr ⟨hy, (hQ a).mp hb⟩, rfl⟩

theorem params_iff {ps : Params} (hr : r.head? ≠ some '.') :
    params (.strict decodes) fuel s = some (ps, r) ↔
      params .lenient fuel s = some (ps, r) ∧ Spelled decodes (Params.bareItems ps) := by
  induction fuel generalizing s ps with
  | zero => exact ⟨nofun, fun h ↦ absurd h.1 nofun⟩
  | succ fuel ih =>
    rw [params, params]
    split
    · cases key (s.tail.dropWhile (· = ' ')) with
      | none => exact ⟨nofun, fun h ↦ absurd h.1 nofun⟩
      | some ks =>
        obtain ⟨k, s⟩ := ks
        dsimp only
        split
        · constructor
          · intro h
            split at h; · cases h
            next b s' hb =>
            obtain ⟨⟨ps', r'⟩, hps, heq⟩ := map_eq_some_iff.mp h
            cases heq
            obtain ⟨hb, hspelled⟩ := (bareItem_iff (params_start hps hr)).mp hb
            obtain ⟨hps, hall⟩ := ih.mp hps
            rw [hb]
            dsimp only
            rw [hps]
            exact ⟨rfl, Spelled.cons_iff.mpr ⟨hspelled, hall⟩⟩
          · rintro ⟨h, hall⟩
            split at h; · cases h
            next b s' hb =>
            obtain ⟨⟨ps', r'⟩, hps, heq⟩ := map_eq_some_iff.mp h
            cases heq
            obtain ⟨hspelled, hall⟩ := Spelled.cons_iff.mp hall
            rw [(bareItem_iff (params_start hps hr)).mpr ⟨hb, hspelled⟩]
            dsimp only
            rw [ih.mpr ⟨hps, hall⟩]
            rfl
        · exact map_iff (fun ps ↦ (k, none) :: ps) (fun ps ↦ Spelled decodes (Params.bareItems ps))
            (fun ps ↦ Spelled decodes (Params.bareItems ps)) (fun _ ↦ Iff.rfl) fun _ ↦ ih
    · refine ⟨fun h ↦ ⟨h, ?_⟩, fun h ↦ h.1⟩
      cases h
      exact Spelled.nil

theorem item_iff {i : Item} (hr : r.head? ≠ some '.') :
    item (.strict decodes) s = some (i, r) ↔
      item .lenient s = some (i, r) ∧ Spelled decodes i.bareItems := by
  unfold item
  constructor
  · intro h
    split at h; · cases h
    next b s' hb =>
    obtain ⟨⟨ps, r'⟩, hps, heq⟩ := map_eq_some_iff.mp h
    cases heq
    obtain ⟨hb, hspelled⟩ := (bareItem_iff (params_start hps hr)).mp hb
    obtain ⟨hps, hall⟩ := (params_iff hr).mp hps
    rw [hb]
    dsimp only
    rw [hps]
    exact ⟨rfl, Spelled.cons_iff.mpr ⟨hspelled, hall⟩⟩
  · rintro ⟨h, hall⟩
    split at h; · cases h
    next b s' hb =>
    obtain ⟨⟨ps, r'⟩, hps, heq⟩ := map_eq_some_iff.mp h
    cases heq
    obtain ⟨hspelled, hall⟩ := Spelled.cons_iff.mp hall
    rw [(bareItem_iff (params_start hps hr)).mpr ⟨hb, hspelled⟩]
    dsimp only
    rw [(params_iff hr).mpr ⟨hps, hall⟩]
    rfl

theorem innerList_iff {items : List Item} {ps : Params} (hr : r.head? ≠ some '.') :
    innerList (.strict decodes) fuel s = some ((items, ps), r) ↔
      innerList .lenient fuel s = some ((items, ps), r) ∧
        Spelled decodes (items.flatMap Item.bareItems ++ Params.bareItems ps) := by
  induction fuel generalizing s items with
  | zero => exact ⟨nofun, fun h ↦ absurd h.1 nofun⟩
  | succ fuel ih =>
    have hnext {s : List Char} (h : s.head? = some ' ' ∨ s.head? = some ')') :
        s.head? ≠ some '.' := by
      rcases h with h | h <;> rw [h] <;> decide
    rw [innerList, innerList]
    split
    · exact ⟨nofun, fun h ↦ absurd h.1 nofun⟩
    split
    · exact map_iff (fun ps ↦ ([], ps)) (fun ps ↦ Spelled decodes (Params.bareItems ps))
        (fun lp ↦ Spelled decodes (lp.1.flatMap Item.bareItems ++ Params.bareItems lp.2))
        (fun _ ↦ Iff.rfl) fun _ ↦ params_iff hr
    · constructor
      · intro h
        split at h; · cases h
        next i s' hi =>
        split at h
        next hs =>
          obtain ⟨⟨⟨items', ps'⟩, r'⟩, hrest, heq⟩ := map_eq_some_iff.mp h
          cases heq
          obtain ⟨hi, hspelled⟩ := (item_iff (hnext hs)).mp hi
          obtain ⟨hrest, hall⟩ := ih.mp hrest
          rw [hi]
          dsimp only
          rw [if_pos hs, hrest, flatMap_cons, append_assoc]
          exact ⟨rfl, Spelled.append_iff.mpr ⟨hspelled, hall⟩⟩
        · cases h
      · rintro ⟨h, hall⟩
        split at h; · cases h
        next i s' hi =>
        split at h
        next hs =>
          obtain ⟨⟨⟨items', ps'⟩, r'⟩, hrest, heq⟩ := map_eq_some_iff.mp h
          cases heq
          rw [flatMap_cons, append_assoc] at hall
          obtain ⟨hspelled, hall⟩ := Spelled.append_iff.mp hall
          rw [(item_iff (hnext hs)).mpr ⟨hi, hspelled⟩]
          dsimp only
          rw [if_pos hs, ih.mpr ⟨hrest, hall⟩]
          rfl
        · cases h

theorem value_iff {v : Value} (hr : r.head? ≠ some '.') :
    value (.strict decodes) s = some (v, r) ↔
      value .lenient s = some (v, r) ∧ Spelled decodes v.bareItems := by
  unfold value
  split
  · split
    · exact map_iff (fun lp : List Item × Params ↦ Value.inner lp.1 lp.2)
        (fun lp ↦ Spelled decodes (lp.1.flatMap Item.bareItems ++ Params.bareItems lp.2))
        (fun v : Value ↦ Spelled decodes v.bareItems) (fun _ ↦ Iff.rfl) fun _ ↦ innerList_iff hr
    · exact map_iff Value.item (fun i : Item ↦ Spelled decodes i.bareItems)
        (fun v : Value ↦ Spelled decodes v.bareItems) (fun _ ↦ Iff.rfl) fun _ ↦ item_iff hr
  · exact map_iff Value.flag (fun ps ↦ Spelled decodes (Params.bareItems ps))
      (fun v : Value ↦ Spelled decodes v.bareItems) (fun _ ↦ Iff.rfl) fun _ ↦ params_iff hr

theorem ne_point_of_dropWhile (h : s.dropWhile isOws = [] ∨ ∃ r, s.dropWhile isOws = ',' :: r) :
    s.head? ≠ some '.' := by
  intro hs
  obtain ⟨s, rfl⟩ : ∃ t, s = '.' :: t := by
    cases s with
    | nil => cases hs
    | cons c s => exact ⟨s, congrArg (· :: s) (Option.some.inj hs)⟩
  rw [dropWhile_cons_of_neg (by decide)] at h
  rcases h with h | ⟨r, h⟩
  · cases h
  · cases h

/-- **The algorithm accepts what is read leniently and spelled right.** -/
theorem members_strict_iff {ms : List Member} :
    members (.strict decodes) fuel s = some ms ↔
      members .lenient fuel s = some ms ∧ Spelled decodes (ms.flatMap Member.bareItems) := by
  induction fuel generalizing s ms with
  | zero => exact ⟨nofun, fun h ↦ absurd h.1 nofun⟩
  | succ fuel ih =>
    rw [members, members]
    split
    · refine ⟨fun h ↦ ⟨h, ?_⟩, fun h ↦ h.1⟩
      cases h
      exact Spelled.nil
    · cases key s with
      | none => exact ⟨nofun, fun h ↦ absurd h.1 nofun⟩
      | some ks =>
        obtain ⟨k, s⟩ := ks
        dsimp only
        constructor
        · intro h
          split at h; · cases h
          next v s' hv =>
          split at h
          next hend =>
            cases h
            obtain ⟨hv, hspelled⟩ := (value_iff (ne_point_of_dropWhile (.inl hend))).mp hv
            rw [hv]
            dsimp only
            rw [hend]
            exact ⟨rfl, by rwa [flatMap_singleton]⟩
          next c s'' hmore =>
            split at h; · cases h
            next hc =>
            rw [not_not] at hc
            subst hc
            split at h; · cases h
            next hne =>
            obtain ⟨ms', hrest, rfl⟩ := map_eq_some_iff.mp h
            obtain ⟨hv, hspelled⟩ := (value_iff (ne_point_of_dropWhile (.inr ⟨_, hmore⟩))).mp hv
            obtain ⟨hrest, hall⟩ := ih.mp hrest
            rw [hv]
            dsimp only
            rw [hmore]
            dsimp only
            rw [if_neg (not_not.mpr rfl), if_neg hne, hrest, flatMap_cons]
            exact ⟨rfl, Spelled.append_iff.mpr ⟨hspelled, hall⟩⟩
        · rintro ⟨h, hall⟩
          split at h; · cases h
          next v s' hv =>
          split at h
          next hend =>
            cases h
            rw [flatMap_singleton] at hall
            rw [(value_iff (ne_point_of_dropWhile (.inl hend))).mpr ⟨hv, hall⟩]
            dsimp only
            rw [hend]
          next c s'' hmore =>
            split at h; · cases h
            next hc =>
            rw [not_not] at hc
            subst hc
            split at h; · cases h
            next hne =>
            obtain ⟨ms', hrest, rfl⟩ := map_eq_some_iff.mp h
            rw [flatMap_cons] at hall
            obtain ⟨hspelled, hall⟩ := Spelled.append_iff.mp hall
            rw [(value_iff (ne_point_of_dropWhile (.inr ⟨_, hmore⟩))).mpr ⟨hv, hspelled⟩]
            dsimp only
            rw [hmore]
            dsimp only
            rw [if_neg (not_not.mpr rfl), if_neg hne, ih.mpr ⟨hrest, hall⟩]
            rfl

end Lenient

/-! ## What is written is read

An item that has been read is read again from its text, in front of anything that ends an item. So
a dictionary without parameters whose items have been read is read from its text
(`allMembers_written`).
-/

section Write

open Text

def IsKey (k : List Char) : Prop :=
  ∃ c t, k = c :: t ∧ (c.isLower || decide (c = '*')) = true ∧ ∀ d ∈ t, isKeyChar d = true

structure Leaves.Stable (L : Leaves) : Prop where
  number : ∀ {s t r : List Char}, L.number s = some (t, r) → ∃ c t', s.head? = some c ∧
    t = c :: t' ∧ ∀ r', Stops isNumberChar r' → L.number (t ++ r') = some (t, r')

/-- What stands behind an item that has no parameters. -/
def Ended (r : List Char) : Prop := ∀ c, r.head? = some c → c ∈ [' ', ')', ',']

theorem Ended.stops (hr : Ended r) {p : Char → Bool}
    (hp : ∀ c ∈ [' ', ')', ','], p c = false) : Stops p r := fun c hc ↦ hp c (hr c hc)

theorem Ended.head_ne (hr : Ended r) : r.head? ≠ some ';' := fun h ↦
  absurd (hr ';' h) (by decide)

structure Readable (L : Leaves) (b : BareItem) : Prop where
  head : ∃ c t, b.written = c :: t ∧ c ≠ ' ' ∧ c ≠ ')' ∧ c ≠ '('
  parse : ∀ r, Ended r → bareItem L (b.written ++ r) = some (b, r)

theorem Leaves.stable_strict (decodes : List Char → Bool) : (Leaves.strict decodes).Stable := by
  refine ⟨fun {s t r} h ↦ ?_⟩
  obtain ⟨ht, rfl, -⟩ := isNumber_of_number h
  obtain ⟨c, t', rfl, -⟩ := ht.exists_cons
  exact ⟨c, t', rfl, rfl, fun r' hr ↦ number_of_isNumber ht hr⟩

theorem Leaves.stable_lenient : Leaves.lenient.Stable := by
  refine ⟨fun {s t r} h ↦ ?_⟩
  cases s with
  | nil => cases h
  | cons c s =>
    cases h
    refine ⟨c, _, rfl, rfl, fun r' hr ↦ ?_⟩
    obtain ⟨htake, hdrop⟩ := takeWhile_append_of_stops
      (fun d (hd : d ∈ s.takeWhile isNumberChar) ↦ mem_takeWhile_imp hd) hr
    exact congrArg some (Prod.ext (congrArg (c :: ·) htake) hdrop)

theorem isKey_of_key {k : List Char} (h : key s = some (k, r)) : IsKey k := by
  cases s with
  | nil => cases h
  | cons c s =>
    rw [key] at h
    split at h
    next hc =>
      cases h
      exact ⟨c, _, rfl, hc, fun d hd ↦ mem_takeWhile_imp hd⟩
    · cases h

theorem key_append {k : List Char} (hk : IsKey k) (hr : Stops isKeyChar r) :
    key (k ++ r) = some (k, r) := by
  obtain ⟨c, t, rfl, hc, ht⟩ := hk
  obtain ⟨htake, hdrop⟩ := takeWhile_append_of_stops ht hr
  rw [cons_append, key, if_pos hc, htake, hdrop]

def isStringChar (c : Char) : Bool := ' ' ≤ c && c ≤ '~'

theorem isStringChar_of_string (h : string s = some (t, r)) : ∀ c ∈ t, isStringChar c = true := by
  fun_induction string s generalizing t with
  | case1 => cases h
  | case2 => cases h
  | case3 b s hb ih =>
    obtain ⟨⟨t', r'⟩, h', heq⟩ := map_eq_some_iff.mp h
    cases heq
    refine forall_mem_cons.mpr ⟨?_, ih h'⟩
    rcases hb with rfl | rfl <;> decide
  | case4 => cases h
  | case5 s =>
    cases h
    exact nofun
  | case6 c s hc hq hrange ih =>
    obtain ⟨⟨t', r'⟩, h', heq⟩ := map_eq_some_iff.mp h
    cases heq
    exact forall_mem_cons.mpr ⟨by simpa [isStringChar] using hrange, ih h'⟩
  | case7 => cases h

theorem escape_cons (c : Char) (t : List Char) :
    escape (c :: t) = (if c = '"' ∨ c = '\\' then ['\\', c] else [c]) ++ escape t :=
  flatMap_cons

theorem string_escape (ht : ∀ c ∈ t, isStringChar c = true) (r : List Char) :
    string (escape t ++ '"' :: r) = some (t, r) := by
  induction t with
  | nil =>
    rw [escape, flatMap_nil, nil_append, string.eq_def]
    rfl
  | cons c t ih =>
    obtain ⟨hc, ht⟩ := forall_mem_cons.mp ht
    rw [escape_cons, append_assoc]
    split
    next hspecial =>
      rw [cons_append, singleton_append, string, if_pos rfl, if_pos hspecial, ih ht]
      rfl
    next hplain =>
      rw [not_or] at hplain
      rw [isStringChar, Bool.and_eq_true, decide_eq_true_eq, decide_eq_true_eq] at hc
      rw [singleton_append, string.eq_def]
      dsimp only
      rw [if_neg hplain.2, if_neg hplain.1, if_pos hc, ih ht]
      rfl

variable {L : Leaves}

theorem bytes_append {content : List Char} (hall : content.all isSequenceChar = true)
    (hd : L.decodes content = true) (r : List Char) :
    bytes L (content ++ ':' :: r) = some (.bytes content, r) := by
  have hne : ∀ c ∈ content, decide (c ≠ ':') = true := by
    rintro c hc
    refine decide_eq_true ?_
    rintro rfl
    exact absurd (all_eq_true.mp hall ':' hc) (by decide)
  obtain ⟨htake, hdrop⟩ := takeWhile_append_of_stops (r := ':' :: r) hne fun c hc ↦ by
    cases hc
    rfl
  rw [bytes, hdrop]
  dsimp only
  rw [htake, hall, hd]
  rfl

/-- **A bare item that has been read is read from its text.** -/
theorem readable_of_bareItem (hL : L.Stable) {b : BareItem} (h : bareItem L s = some (b, r)) :
    Readable L b := by
  cases s with
  | nil => cases h
  | cons c s =>
    rw [bareItem] at h
    split at h
    next hc =>
      obtain ⟨⟨t, r'⟩, hnumber, heq⟩ := map_eq_some_iff.mp h
      cases heq
      obtain ⟨d, t', hhead, rfl, hagain⟩ := hL.number hnumber
      cases hhead
      refine ⟨⟨c, t', rfl, ?_⟩, fun r' hr ↦ ?_⟩
      · refine ⟨?_, ?_, ?_⟩ <;>
        · rintro rfl
          exact absurd hc (by decide)
      · have := hagain r' (hr.stops (by decide))
        rw [cons_append] at this
        rw [BareItem.written, cons_append, bareItem, if_pos hc, this]
        rfl
    next hnumber =>
    split at h
    next hc =>
      subst hc
      obtain ⟨⟨t, r'⟩, hstring, heq⟩ := map_eq_some_iff.mp h
      cases heq
      refine ⟨⟨'"', _, rfl, by decide⟩, fun r' hr ↦ ?_⟩
      have hagain := string_escape (isStringChar_of_string hstring) r'
      rw [BareItem.written, cons_append, append_assoc, singleton_append, bareItem,
        if_neg hnumber, if_pos rfl, hagain]
      rfl
    next hquote =>
    split at h
    next hc =>
      subst hc
      unfold bytes at h
      split at h
      · cases h
      next r' hdrop =>
      dsimp only at h
      split at h
      next hcontent =>
        cases h
        obtain ⟨hall, hd⟩ := (Bool.and_eq_true _ _).mp hcontent
        refine ⟨⟨':', _, rfl, by decide⟩, fun r' hr ↦ ?_⟩
        rw [BareItem.written, cons_append, append_assoc, singleton_append, bareItem,
          if_neg hnumber, if_neg hquote, if_pos rfl, bytes_append hall hd]
      · cases h
    next hcolon =>
    split at h
    next hc =>
      subst hc
      unfold boolean at h
      split at h
      · cases h
        exact ⟨⟨'?', _, rfl, by decide⟩, fun r' hr ↦ rfl⟩
      · cases h
        exact ⟨⟨'?', _, rfl, by decide⟩, fun r' hr ↦ rfl⟩
      · cases h
    next hboolean =>
    split at h
    next hc =>
      cases h
      refine ⟨⟨c, _, rfl, ?_⟩, fun r' hr ↦ ?_⟩
      · refine ⟨?_, ?_, ?_⟩ <;>
        · rintro rfl
          exact absurd hc (by decide)
      · have htoken : ∀ d ∈ s.takeWhile isTokenChar, isTokenChar d = true :=
          fun d hd ↦ mem_takeWhile_imp hd
        obtain ⟨htake, hdrop⟩ := takeWhile_append_of_stops htoken (hr.stops (by decide))
        rw [BareItem.written, cons_append, bareItem, if_neg hnumber, if_neg hquote,
          if_neg hcolon, if_neg hboolean, if_pos hc, htake, hdrop]
    · cases h

/-! ### Items and lists that have been read -/

theorem readable_of_item (hL : L.Stable) {i : Item} (h : item L s = some (i, r)) :
    Readable L i.bare := by
  unfold item at h
  split at h
  · cases h
  next b s' hb =>
    obtain ⟨_, -, heq⟩ := map_eq_some_iff.mp h
    cases heq
    exact readable_of_bareItem hL hb

theorem readable_of_innerList (hL : L.Stable) {items : List Item} {ps : Params}
    (h : innerList L fuel s = some ((items, ps), r)) : ∀ i ∈ items, Readable L i.bare := by
  induction fuel generalizing s items with
  | zero => cases h
  | succ fuel ih =>
    rw [innerList] at h
    split at h
    · cases h
    split at h
    · obtain ⟨_, -, heq⟩ := map_eq_some_iff.mp h
      cases heq
      exact nofun
    split at h
    · cases h
    next i s' hi =>
    split at h
    · obtain ⟨⟨⟨items', ps'⟩, r'⟩, hrest, heq⟩ := map_eq_some_iff.mp h
      cases heq
      exact forall_mem_cons.mpr ⟨readable_of_item hL hi, ih hrest⟩
    · cases h

theorem readable_of_value (hL : L.Stable) {v : Value} (h : value L s = some (v, r)) :
    ∀ b ∈ v.items, Readable L b := by
  unfold value at h
  split at h
  · split at h
    · obtain ⟨⟨⟨items, ps⟩, r'⟩, hlist, heq⟩ := map_eq_some_iff.mp h
      cases heq
      exact forall_mem_map.mpr (readable_of_innerList hL hlist)
    · obtain ⟨⟨i, r'⟩, hi, heq⟩ := map_eq_some_iff.mp h
      cases heq
      exact forall_mem_singleton.mpr (readable_of_item hL hi)
  · obtain ⟨_, -, heq⟩ := map_eq_some_iff.mp h
    cases heq
    exact nofun

structure Member.Readable (L : Leaves) (m : Member) : Prop where
  key : IsKey m.key
  items : ∀ b ∈ m.value.items, StructuredFields.Readable L b

theorem readable_of_members (hL : L.Stable) {ms : List Member} (h : members L fuel s = some ms) :
    ∀ m ∈ ms, m.Readable L := by
  induction fuel generalizing s ms with
  | zero => cases h
  | succ fuel ih =>
    rw [members] at h
    split at h
    · cases h
      exact nofun
    split at h
    · cases h
    next k s₁ hk =>
    split at h
    · cases h
    next v s₂ hv =>
    have hm : Member.Readable L ⟨k, v⟩ := ⟨isKey_of_key hk, readable_of_value hL hv⟩
    split at h
    · cases h
      exact forall_mem_singleton.mpr hm
    split at h
    · cases h
    split at h
    · cases h
    obtain ⟨ms', hrest, rfl⟩ := map_eq_some_iff.mp h
    exact forall_mem_cons.mpr ⟨hm, ih hrest⟩

theorem mem_overwrite {dict : List Member} {m n : Member} (h : n ∈ overwrite dict m) :
    n = m ∨ n ∈ dict := by
  unfold overwrite at h
  split at h
  · obtain ⟨n', hn', rfl⟩ := mem_map.mp h
    split
    · exact .inl rfl
    · exact .inr hn'
  · rcases mem_append.mp h with h | h
    · exact .inr h
    · exact .inl (mem_singleton.mp h)

theorem mem_foldl_overwrite {ms dict : List Member} {n : Member}
    (h : n ∈ ms.foldl overwrite dict) : n ∈ ms ∨ n ∈ dict := by
  induction ms generalizing dict with
  | nil => exact .inr h
  | cons m ms ih =>
    rcases ih h with h | h
    · exact .inl (mem_cons_of_mem m h)
    · rcases mem_overwrite h with rfl | h
      · exact .inl mem_cons_self
      · exact .inr h

theorem overwrite_of_notMem {dict : List Member} {m : Member} (h : m.key ∉ dict.map Member.key) :
    overwrite dict m = dict ++ [m] := by
  rw [overwrite, if_neg]
  rw [Bool.not_eq_true, any_eq_false]
  exact fun n hn heq ↦ h (mem_map.mpr ⟨n, hn, of_decide_eq_true heq⟩)

theorem nodup_foldl_overwrite {ms dict : List Member} (h : (dict.map Member.key).Nodup) :
    ((ms.foldl overwrite dict).map Member.key).Nodup := by
  induction ms generalizing dict with
  | nil => exact h
  | cons m ms ih =>
    refine ih ?_
    by_cases hm : m.key ∈ dict.map Member.key
    · obtain ⟨n, hn, heq⟩ := mem_map.mp hm
      have hkeys : (overwrite dict m).map Member.key = dict.map Member.key := by
        rw [overwrite, if_pos (any_eq_true.mpr ⟨n, hn, decide_eq_true heq⟩), map_map]
        refine map_congr_left fun n _ ↦ ?_
        rw [Function.comp_apply]
        split
        next heq => exact heq.symm
        · rfl
      rwa [hkeys]
    · rw [overwrite_of_notMem hm, map_append, map_singleton]
      exact nodup_append.mpr ⟨h, pairwise_singleton _ _, fun a ha b hb heq ↦
        hm (mem_singleton.mp hb ▸ heq ▸ ha)⟩

/-- Members with different keys make up a dictionary. -/
theorem foldl_overwrite_of_nodup {ms dict : List Member} (h : ((dict ++ ms).map Member.key).Nodup) :
    ms.foldl overwrite dict = dict ++ ms := by
  induction ms generalizing dict with
  | nil => exact (append_nil dict).symm
  | cons m ms ih =>
    have hassoc : dict ++ m :: ms = dict ++ [m] ++ ms := (append_assoc dict [m] ms).symm
    have hm : m.key ∉ dict.map Member.key := by
      rw [map_append, nodup_append] at h
      exact fun hm ↦ h.2.2 _ hm m.key mem_cons_self rfl
    rw [foldl_cons, overwrite_of_notMem hm, hassoc]
    exact ih (hassoc ▸ h)

theorem readable_of_dictionary (hL : L.Stable) {dict : List Member}
    (h : dictionary L s = some dict) : ∀ m ∈ dict, m.Readable L := by
  obtain ⟨ms, hms, rfl⟩ := map_eq_some_iff.mp h
  intro m hm
  rcases mem_foldl_overwrite hm with hm | hm
  · exact readable_of_members hL hms m hm
  · cases hm

/-! ### Dictionaries without parameters -/

def Value.written : Value → List Char
  | .flag _ => []
  | .item i => '=' :: i.bare.written
  | .inner items _ => '=' :: '(' :: (join [' '] (items.map (·.bare.written)) ++ [')'])

def Member.written (m : Member) : List Char := m.key ++ m.value.written

def Value.Plain : Value → Prop
  | .flag ps => ps = []
  | .item i => i.params = []
  | .inner items ps => (∀ i ∈ items, i.params = []) ∧ ps = []

theorem params_of_ended (hr : Ended r) (fuel : ℕ) : params L (fuel + 1) r = some ([], r) := by
  rw [params, if_neg hr.head_ne]

theorem item_written {i : Item} (hi : Readable L i.bare) (hplain : i.params = []) (hr : Ended r) :
    item L (i.bare.written ++ r) = some (i, r) := by
  rw [item, hi.parse r hr]
  dsimp only
  rw [params_of_ended hr, Option.map_some, ← hplain]

theorem innerList_space (fuel : ℕ) (s : List Char) :
    innerList L fuel (' ' :: s) = innerList L fuel s := by
  cases fuel with
  | zero => rfl
  | succ fuel => rw [innerList, dropWhile_cons_of_pos (by decide), innerList]

theorem ended_cons {c : Char} (hc : c ∈ [' ', ')', ',']) (r : List Char) : Ended (c :: r) :=
  fun _ hd ↦ Option.some.inj hd ▸ hc

theorem innerList_item {i : Item} (hi : Readable L i.bare) (hplain : i.params = []) {c : Char}
    (hc : c ∈ [' ', ')']) (r : List Char) (fuel : ℕ) :
    innerList L (fuel + 1) (i.bare.written ++ c :: r) =
      (innerList L fuel (c :: r)).map fun lr ↦ ((i :: lr.1.1, lr.1.2), lr.2) := by
  obtain ⟨d, t, hwritten, hspace, hclose, -⟩ := hi.head
  have hended : Ended (c :: r) := ended_cons (mem_append_left [','] hc) r
  have hitem := item_written hi hplain hended
  rw [hwritten, cons_append] at hitem
  rw [hwritten, cons_append, innerList, dropWhile_cons_of_neg (by simpa using hspace),
    if_neg (cons_ne_nil _ _), List.head?_cons, if_neg fun h ↦ hclose (Option.some.inj h), hitem]
  dsimp only
  rw [if_pos]
  rcases mem_pair.mp hc with rfl | rfl
  · exact .inl rfl
  · exact .inr rfl

theorem innerList_close (hr : Ended r) (fuel : ℕ) :
    innerList L (fuel + 1) (')' :: r) = some (([], []), r) := by
  rw [innerList, dropWhile_cons_of_neg (by decide), if_neg (cons_ne_nil _ _),
    List.head?_cons, if_pos rfl, tail_cons, params_of_ended hr]
  rfl

theorem innerList_join {items : List Item} (hi : ∀ i ∈ items, Readable L i.bare)
    (hplain : ∀ i ∈ items, i.params = []) (hr : Ended r) (hfuel : items.length < fuel) :
    innerList L fuel (join [' '] (items.map (·.bare.written)) ++ ')' :: r) =
      some ((items, []), r) := by
  induction items generalizing fuel with
  | nil =>
    obtain ⟨n, rfl⟩ := Nat.exists_eq_succ_of_ne_zero (Nat.ne_zero_of_lt hfuel)
    exact innerList_close hr n
  | cons i items ih =>
    obtain ⟨n, rfl⟩ := Nat.exists_eq_succ_of_ne_zero (Nat.ne_zero_of_lt hfuel)
    obtain ⟨hhead, hi⟩ := forall_mem_cons.mp hi
    obtain ⟨hnone, hplain⟩ := forall_mem_cons.mp hplain
    have hrest := ih hi hplain (Nat.lt_of_succ_lt_succ hfuel)
    cases items with
    | nil =>
      rw [map_singleton, join, innerList_item hhead hnone (by decide)]
      rw [map_nil, join, nil_append] at hrest
      rw [hrest]
      rfl
    | cons j items =>
      have hjoin : join [' '] ((i :: j :: items).map (·.bare.written)) ++ ')' :: r =
          i.bare.written ++ ' ' ::
            (join [' '] ((j :: items).map (·.bare.written)) ++ ')' :: r) := by
        rw [map_cons, map_cons, join, append_assoc, append_assoc]
        · rfl
        · exact cons_ne_nil _ _
      rw [hjoin, innerList_item hhead hnone (by decide), innerList_space, hrest]
      rfl

/-- What stands behind a member. -/
def Separated (s : List Char) : Prop := ∀ c, s.head? = some c → c = ','

theorem Separated.ended (hs : Separated s) : Ended s := fun c hc ↦ by
  rw [hs c hc]
  decide

theorem value_written {v : Value} (hplain : v.Plain) (hv : ∀ b ∈ v.items, Readable L b)
    (hs : Separated s) : value L (v.written ++ s) = some (v, s) := by
  unfold value
  cases v with
  | flag ps =>
    have hhead : s.head? ≠ some '=' := fun h ↦ absurd (hs '=' h) (by decide)
    cases hplain
    rw [Value.written, nil_append, if_neg hhead, params_of_ended hs.ended]
    rfl
  | item i =>
    have hi : Readable L i.bare := hv i.bare (mem_singleton_self _)
    obtain ⟨c, t, hwritten, -, -, hopen⟩ := hi.head
    have hitem := item_written hi hplain hs.ended
    rw [hwritten, cons_append] at hitem
    rw [Value.written, cons_append, List.head?_cons, if_pos rfl, tail_cons, hwritten,
      cons_append, List.head?_cons, if_neg fun h ↦ hopen (Option.some.inj h), hitem]
    rfl
  | inner items ps =>
    obtain ⟨hnone, rfl⟩ := hplain
    have hitems : ∀ i ∈ items, Readable L i.bare := forall_mem_map.mp hv
    have hlength := length_le_length_join [' '] (l := items.map (·.bare.written))
      (forall_mem_map.mpr fun i hi ↦ by
        obtain ⟨c, t, hwritten, -⟩ := (hitems i hi).head
        rw [hwritten]
        exact cons_ne_nil c t)
    have htext : (Value.inner items []).written ++ s =
        '=' :: '(' :: (join [' '] (items.map (·.bare.written)) ++ ')' :: s) := by
      rw [Value.written, cons_append, cons_append, append_assoc,
        singleton_append]
    rw [length_map] at hlength
    rw [htext, List.head?_cons, if_pos rfl, tail_cons, List.head?_cons, if_pos rfl,
      tail_cons, innerList_join hitems hnone hs.ended]
    · rfl
    · rw [length_cons, length_append]
      omega

theorem stops_written (v : Value) (hs : Separated s) : Stops isKeyChar (v.written ++ s) := by
  intro c hc
  cases v with
  | flag ps =>
    rw [hs c hc]
    decide
  | item i =>
    cases hc
    decide
  | inner items ps =>
    cases hc
    decide

structure Member.Printable (L : Leaves) (m : Member) : Prop extends m.Readable L where
  plain : m.value.Plain

theorem member_written {m : Member} (hm : m.Printable L) (hs : Separated s) :
    ∃ c t, m.written ++ s = c :: t ∧ isOws c = false ∧ ∃ s', key (c :: t) = some (m.key, s') ∧
      value L s' = some (m.value, s) := by
  obtain ⟨c, t, hkey, hc, -⟩ := hm.key
  have hread := key_append hm.key (stops_written m.value hs)
  rw [Member.written, append_assoc]
  refine ⟨c, t ++ (m.value.written ++ s), by rw [hkey]; rfl, ?_, m.value.written ++ s, ?_,
    value_written hm.plain hm.items hs⟩
  · rw [isOws, Bool.or_eq_false_iff, decide_eq_false_iff_not, decide_eq_false_iff_not]
    constructor <;>
    · rintro rfl
      exact absurd hc (by decide)
  · rw [← hread, hkey]
    rfl

def membersWritten (ms : List Member) : List Char := join ", ".toList (ms.map Member.written)

theorem membersWritten_cons_cons (m m' : Member) (ms : List Member) :
    membersWritten (m :: m' :: ms) = m.written ++ ',' :: ' ' :: membersWritten (m' :: ms) := by
  rw [membersWritten, map_cons, map_cons, join, append_assoc]
  · rfl
  · exact cons_ne_nil _ _

theorem membersWritten_cons {m : Member} (hm : m.Printable L) (ms : List Member) :
    ∃ c t, membersWritten (m :: ms) = c :: t ∧ isOws c = false := by
  cases ms with
  | nil =>
    obtain ⟨c, t, hwritten, hc, -⟩ := member_written hm (s := []) nofun
    rw [append_nil] at hwritten
    exact ⟨c, t, hwritten, hc⟩
  | cons m' ms =>
    rw [membersWritten_cons_cons]
    obtain ⟨c, t, hwritten, hc, -⟩ := member_written hm
      (s := ',' :: ' ' :: membersWritten (m' :: ms)) fun c hc ↦ (Option.some.inj hc).symm
    exact ⟨c, t, hwritten, hc⟩

theorem dropWhile_membersWritten {ms : List Member} (hms : ∀ m ∈ ms, m.Printable L) :
    (membersWritten ms).dropWhile isOws = membersWritten ms := by
  cases ms with
  | nil => rfl
  | cons m ms =>
    obtain ⟨c, t, hwritten, hc⟩ := membersWritten_cons (hms m mem_cons_self) ms
    rw [hwritten, dropWhile_cons_of_neg (Bool.eq_false_iff.mp hc)]

theorem members_written {ms : List Member} (hms : ∀ m ∈ ms, m.Printable L)
    (hfuel : ms.length < fuel) : members L fuel (membersWritten ms) = some ms := by
  induction ms generalizing fuel with
  | nil =>
    obtain ⟨n, rfl⟩ := Nat.exists_eq_succ_of_ne_zero (Nat.ne_zero_of_lt hfuel)
    rfl
  | cons m ms ih =>
    obtain ⟨n, rfl⟩ := Nat.exists_eq_succ_of_ne_zero (Nat.ne_zero_of_lt hfuel)
    obtain ⟨hm, hms⟩ := forall_mem_cons.mp hms
    cases ms with
    | nil =>
      obtain ⟨c, t, hwritten, -, s', hkey, hvalue⟩ := member_written hm (s := []) nofun
      rw [append_nil] at hwritten
      rw [membersWritten, map_singleton, join, hwritten, members,
        if_neg (cons_ne_nil _ _), hkey]
      dsimp only
      rw [hvalue]
      rfl
    | cons m' ms =>
      obtain ⟨c, t, hwritten, -, s', hkey, hvalue⟩ := member_written hm
        (s := ',' :: ' ' :: membersWritten (m' :: ms)) fun c hc ↦ (Option.some.inj hc).symm
      have hskip : (' ' :: membersWritten (m' :: ms)).dropWhile isOws =
          membersWritten (m' :: ms) := by
        rw [dropWhile_cons_of_pos (by decide), dropWhile_membersWritten hms]
      have hne : membersWritten (m' :: ms) ≠ [] := by
        obtain ⟨d, u, hd, -⟩ := membersWritten_cons (hms m' mem_cons_self) ms
        rw [hd]
        exact cons_ne_nil d u
      rw [membersWritten_cons_cons, hwritten, members, if_neg (cons_ne_nil _ _), hkey]
      dsimp only
      rw [hvalue]
      dsimp only
      rw [dropWhile_cons_of_neg (by decide)]
      dsimp only
      rw [if_neg (not_not.mpr rfl), hskip, if_neg hne, ih hms (Nat.lt_of_succ_lt_succ hfuel)]
      rfl

/-- **A dictionary without parameters is read from its text.** -/
theorem allMembers_written {ms : List Member} (hms : ∀ m ∈ ms, m.Printable L) :
    allMembers L (membersWritten ms) = some ms := by
  have hlength := length_le_length_join ", ".toList (l := ms.map Member.written)
    (forall_mem_map.mpr fun m hm ↦ by
      obtain ⟨c, t, hwritten, -⟩ := member_written (hms m hm) (s := []) nofun
      rw [append_nil] at hwritten
      rw [hwritten]
      exact cons_ne_nil c t)
  rw [length_map] at hlength
  rw [allMembers, dropWhile_membersWritten hms]
  exact members_written hms (Nat.lt_succ_of_le hlength)

end Write

end StructuredFields
