import Mathlib.Data.List.Infix
import Mathlib.Data.List.TakeWhile

/-!
# Searching, splitting and rewriting text

The string operations of a standard library, over lists of characters: the first occurrence of a
piece of text, the split around it, the replacement of every occurrence, and full lower-casing.

The first occurrence is represented by the split it induces rather than by an offset. The text
before it and the text after it are what callers slice out, and the equation
`s = a ++ p ++ b` is what proofs about them use.

## First occurrences are decided by what precedes their end

Whether `p` occurs first at a position depends only on the text up to the end of that occurrence.
`splitOnce_append` is this locality. It is what lets a fact about a short text be carried to every
extension of it, and conversely.

## Lower-casing

Unicode lower-casing sends a character to a short list of characters, and the capital sigma to one
of two letters according to its surroundings. The tables are a parameter. All that is asked of them
is that they treat ASCII as ASCII, and it follows that a prefix of a lower-cased text that avoids
both small sigmas does not depend on what comes after.
-/

open List Option

namespace Text

theorem repr_injective : Function.Injective Nat.repr := by
  intro m n h
  have hdigits : Nat.toDigits 10 m = Nat.toDigits 10 n := by
    rw [← Nat.toList_repr, h, Nat.toList_repr]
  rw [← Nat.ofDigitChars_ten_toDigits (n := m), hdigits, Nat.ofDigitChars_ten_toDigits]

/-! ## Deciding a property of every character -/

/-- What decides whether a word is in a list. -/
instance instLawfulBEqListChar : LawfulBEq (List Char) := List.instLawfulBEq

/-- A bounded property is decided along the text, not over all characters. -/
instance decidableForallMem (s : List Char) (p : Char → Prop) [DecidablePred p] :
    Decidable (∀ c ∈ s, p c) :=
  List.decidableBAll p s

instance decidableExistsMem (s : List Char) (p : Char → Prop) [DecidablePred p] :
    Decidable (∃ c ∈ s, p c) :=
  List.decidableBEx p s

variable {α : Type*} [DecidableEq α]

/-! ## The first occurrence -/

/-- The text before and after the first occurrence of `p`. -/
def splitOnce (p : List α) : List α → Option (List α × List α)
  | [] => if p = [] then some ([], []) else none
  | c :: s =>
    if p <+: c :: s then some ([], (c :: s).drop p.length)
    else (splitOnce p s).map fun ab ↦ (c :: ab.1, ab.2)

theorem splitOnce_of_isPrefix {p s : List α} (h : p <+: s) :
    splitOnce p s = some ([], s.drop p.length) := by
  cases s with
  | nil =>
    obtain rfl := prefix_nil.mp h
    rfl
  | cons c s => rw [splitOnce, if_pos h]

theorem splitOnce_cons_of_not_isPrefix {p s : List α} {c : α} (h : ¬p <+: c :: s) :
    splitOnce p (c :: s) = (splitOnce p s).map fun ab ↦ (c :: ab.1, ab.2) := by
  rw [splitOnce, if_neg h]

theorem eq_of_splitOnce {p s a b : List α} (h : splitOnce p s = some (a, b)) : s = a ++ p ++ b := by
  induction s generalizing a with
  | nil =>
    rw [splitOnce] at h
    split at h
    · next hp =>
      obtain ⟨rfl, rfl⟩ := Prod.mk.inj (some.inj h)
      rw [hp, append_nil, append_nil]
    · cases h
  | cons c s ih =>
    by_cases hp : p <+: c :: s
    · rw [splitOnce_of_isPrefix hp] at h
      obtain ⟨rfl, rfl⟩ := Prod.mk.inj (some.inj h)
      obtain ⟨t, ht⟩ := hp
      rw [← ht, drop_left, nil_append]
    · rw [splitOnce_cons_of_not_isPrefix hp, map_eq_some_iff] at h
      obtain ⟨⟨a', b'⟩, h', hab⟩ := h
      obtain ⟨rfl, rfl⟩ := Prod.mk.inj hab
      rw [ih h', cons_append, cons_append]

/-- **Locality of the first occurrence.** If `p` first occurs right after `a` in some text, it does
so in every text that starts with `a ++ p`. -/
theorem splitOnce_append {p a b : List α} (h : splitOnce p (a ++ p ++ b) = some (a, b))
    (t : List α) : splitOnce p (a ++ p ++ t) = some (a, t) := by
  induction a with
  | nil =>
    rw [nil_append, splitOnce_of_isPrefix (prefix_append p t), drop_left]
  | cons c a ih =>
    have hp : ¬p <+: c :: (a ++ p ++ b) := by
      intro hp
      rw [cons_append, cons_append, splitOnce_of_isPrefix hp] at h
      cases (Prod.mk.inj (some.inj h)).1
    have hp' : ¬p <+: c :: (a ++ p ++ t) := by
      intro hp'
      -- both texts agree up to the end of `a ++ p`, and `p` is no longer than that
      have hle : p.length ≤ (c :: (a ++ p)).length := by
        simp only [length_cons, length_append]
        omega
      have h' := prefix_of_prefix_length_le hp' (prefix_append (c :: (a ++ p)) t) hle
      exact hp (h'.trans (prefix_append (c :: (a ++ p)) b))
    rw [cons_append, cons_append, splitOnce_cons_of_not_isPrefix hp,
      map_eq_some_iff] at h
    obtain ⟨⟨a', b'⟩, h', hab⟩ := h
    obtain ⟨hac, rfl⟩ := Prod.mk.inj hab
    obtain rfl := cons_inj_right c |>.mp hac
    rw [cons_append, cons_append, splitOnce_cons_of_not_isPrefix hp', ih h']
    rfl

theorem splitOnce_left_eq_none {p s a b : List α} (hne : p ≠ []) (h : splitOnce p s = some (a, b)) :
    splitOnce p a = none := by
  induction a generalizing s with
  | nil => rw [splitOnce, if_neg hne]
  | cons c a ih =>
    cases s with
    | nil => rw [splitOnce, if_neg hne] at h; cases h
    | cons d s =>
      by_cases hp : p <+: d :: s
      · rw [splitOnce_of_isPrefix hp] at h
        cases (Prod.mk.inj (some.inj h)).1
      · rw [splitOnce_cons_of_not_isPrefix hp, map_eq_some_iff] at h
        obtain ⟨⟨a', b'⟩, h', hab⟩ := h
        obtain ⟨hac, rfl⟩ := Prod.mk.inj hab
        obtain ⟨rfl, rfl⟩ := cons.inj hac
        have hp' : ¬p <+: d :: a' := by
          intro hp'
          have hs := eq_of_splitOnce h'
          rw [hs, append_assoc] at hp
          exact hp (hp'.trans (prefix_append (d :: a') (p ++ b')))
        rw [splitOnce_cons_of_not_isPrefix hp', ih h']
        rfl

/-! ### Single characters -/

theorem splitOnce_singleton_eq_none {c : α} {s : List α} : splitOnce [c] s = none ↔ c ∉ s := by
  induction s with
  | nil => simp [splitOnce]
  | cons d s ih =>
    rw [mem_cons, not_or]
    by_cases h : c = d
    · rw [splitOnce_of_isPrefix (singleton_prefix_cons_iff.mpr h)]
      simp [h]
    · rw [splitOnce_cons_of_not_isPrefix (mt singleton_prefix_cons_iff.mp h),
        map_eq_none_iff, ih, and_iff_right h]

theorem splitOnce_singleton_append {c : α} {a : List α} (h : c ∉ a) (b : List α) :
    splitOnce [c] (a ++ c :: b) = some (a, b) := by
  induction a with
  | nil => rw [nil_append, splitOnce_of_isPrefix (singleton_prefix_cons_iff.mpr rfl)]; rfl
  | cons d a ih =>
    rw [mem_cons, not_or] at h
    rw [cons_append, splitOnce_cons_of_not_isPrefix (mt singleton_prefix_cons_iff.mp h.1),
      ih h.2]
    rfl

theorem splitOnce_singleton_eq_some {c : α} {s a b : List α} :
    splitOnce [c] s = some (a, b) ↔ s = a ++ c :: b ∧ c ∉ a := by
  constructor
  · intro h
    refine ⟨?_, splitOnce_singleton_eq_none.mp (splitOnce_left_eq_none (cons_ne_nil c []) h)⟩
    rw [eq_of_splitOnce h, append_assoc, singleton_append]
  · rintro ⟨rfl, h⟩
    exact splitOnce_singleton_append h b

/-- At most `n` pieces of a text, cut at the first occurrences of `c`; the last piece is the rest.
-/
def splitn (c : α) : ℕ → List α → List (List α)
  | 0, _ => []
  | 1, s => [s]
  | n + 2, s =>
    match splitOnce [c] s with
    | none => [s]
    | some (a, b) => a :: splitn c (n + 1) b

theorem splitn_append {c : α} {a : List α} (h : c ∉ a) (b : List α) (n : ℕ) :
    splitn c (n + 2) (a ++ c :: b) = a :: splitn c (n + 1) b := by
  rw [splitn, splitOnce_singleton_append h]

/-! ## Replacement -/

/-- Replace every occurrence of `p`, from left to right and without overlaps. The first argument
counts the characters still to be dropped of the occurrence just replaced. -/
def replaceFrom (p r : List α) : ℕ → List α → List α
  | _, [] => []
  | k + 1, _ :: s => replaceFrom p r k s
  | 0, c :: s =>
    if p <+: c :: s then r ++ replaceFrom p r (p.length - 1) s else c :: replaceFrom p r 0 s

/-- Replace every occurrence of the nonempty text `p` by `r`. -/
def replace (p r s : List α) : List α := replaceFrom p r 0 s

/-- Replace every occurrence of the character `c` by the text `r`. -/
def replaceChar (c : α) (r s : List α) : List α := s.flatMap fun d ↦ if d = c then r else [d]

private theorem replaceFrom_eq_replace_drop (p r : List α) (k : ℕ) (s : List α) :
    replaceFrom p r k s = replace p r (s.drop k) := by
  induction k generalizing s with
  | zero => rfl
  | succ k ih =>
    cases s with
    | nil => rfl
    | cons c s => rw [replaceFrom, ih, drop_succ_cons]

theorem replace_append_of_splitOnce {p s a b : List α} (r : List α) (hne : p ≠ [])
    (h : splitOnce p s = some (a, b)) : replace p r s = a ++ r ++ replace p r b := by
  induction s generalizing a with
  | nil => rw [splitOnce, if_neg hne] at h; cases h
  | cons c s ih =>
    by_cases hp : p <+: c :: s
    · rw [splitOnce_of_isPrefix hp] at h
      obtain ⟨rfl, rfl⟩ := Prod.mk.inj (some.inj h)
      have hdrop : (c :: s).drop p.length = s.drop (p.length - 1) := by
        obtain ⟨d, q, rfl⟩ := exists_cons_of_ne_nil hne
        rfl
      rw [replace, replaceFrom, if_pos hp, replaceFrom_eq_replace_drop, nil_append, hdrop]
    · rw [splitOnce_cons_of_not_isPrefix hp, map_eq_some_iff] at h
      obtain ⟨⟨a', b'⟩, h', hab⟩ := h
      obtain ⟨rfl, rfl⟩ := Prod.mk.inj hab
      have := ih h'
      rw [replace] at this ⊢
      rw [replaceFrom, if_neg hp, this, cons_append, cons_append]

theorem replace_of_splitOnce_eq_none {p s : List α} (r : List α) (h : splitOnce p s = none) :
    replace p r s = s := by
  induction s with
  | nil => rfl
  | cons c s ih =>
    by_cases hp : p <+: c :: s
    · rw [splitOnce_of_isPrefix hp] at h
      cases h
    · rw [splitOnce_cons_of_not_isPrefix hp, map_eq_none_iff] at h
      have := ih h
      rw [replace] at this ⊢
      rw [replaceFrom, if_neg hp, this]

/-- A text whose first character occurs nowhere else in it is put in for a character and taken out
again, wherever it was not there before. -/
theorem replace_replaceChar {c w : α} {t x : List α} (hw : w ∉ t) (hx : ¬w :: t <:+: x) :
    replace (w :: t) [c] (replaceChar c (w :: t) x) = x := by
  have hcons : ∀ d x, replaceChar c (w :: t) (d :: x) =
      (if d = c then w :: t else [d]) ++ replaceChar c (w :: t) x := fun _ _ ↦ rfl
  -- an occurrence of the text does not begin inside another one
  have hback : ∀ s x, w ∉ s → s <+: replaceChar c (w :: t) x → s <+: x := by
    intro s
    induction s with
    | nil => exact fun x _ _ ↦ nil_prefix
    | cons e s ih =>
      intro x hws h
      rw [mem_cons, not_or] at hws
      obtain ⟨hne, hws⟩ := hws
      rcases x with _ | ⟨d, x⟩
      · exact absurd (prefix_nil.mp h) (cons_ne_nil e s)
      · rw [hcons] at h
        split at h
        · exact absurd (cons_prefix_cons.mp h).1.symm hne
        · obtain ⟨hed, hs⟩ := cons_prefix_cons.mp h
          exact cons_prefix_cons.mpr ⟨hed, ih x hws hs⟩
  induction x with
  | nil => rfl
  | cons d x ih =>
    have hx' : ¬w :: t <:+: x := fun h ↦ hx (h.trans (infix_cons infix_rfl))
    rw [hcons]
    split
    · rename_i hd
      rw [replace_append_of_splitOnce _ (cons_ne_nil w t)
        (splitOnce_of_isPrefix (prefix_append _ _)), drop_left, ih hx', hd]
      rfl
    · have hnot : ¬w :: t <+: d :: replaceChar c (w :: t) x := by
        intro h
        obtain ⟨hwd, ht⟩ := cons_prefix_cons.mp h
        exact hx (cons_prefix_cons.mpr ⟨hwd, hback t x hw ht⟩).isInfix
      rw [singleton_append, replace, replaceFrom, if_neg hnot]
      exact congrArg (d :: ·) (ih hx')

/-! ## Pieces and joins -/

theorem of_mem_splitOnP {α : Type*} {p : α → Bool} {s piece : List α} (h : piece ∈ s.splitOnP p) :
    ∀ c ∈ piece, c ∈ s ∧ p c = false := by
  induction s generalizing piece with
  | nil =>
    rw [splitOnP_nil, mem_singleton] at h
    exact fun c hc ↦ absurd (h ▸ hc) not_mem_nil
  | cons d s ih =>
    have hlater {w : List α} (hw : w ∈ s.splitOnP p) : ∀ c ∈ w, c ∈ d :: s ∧ p c = false :=
      fun c hc ↦ (ih hw c hc).imp_left (mem_cons_of_mem d)
    rw [splitOnP_cons_eq_if_modifyHead] at h
    split at h
    · rcases mem_cons.mp h with rfl | h
      · exact fun c hc ↦ absurd hc not_mem_nil
      · exact hlater h
    · next hd =>
      obtain ⟨x, xs, hs⟩ := exists_cons_of_ne_nil (splitOnP_ne_nil p s)
      rw [hs, modifyHead_cons] at h
      rcases mem_cons.mp h with rfl | h
      · exact forall_mem_cons.mpr
          ⟨⟨mem_cons_self, Bool.eq_false_iff.mpr hd⟩, hlater (hs ▸ mem_cons_self)⟩
      · exact hlater (hs ▸ mem_cons_of_mem x h)

theorem mem_of_mem_splitOnP {α : Type*} {p : α → Bool} {s piece : List α}
    (h : piece ∈ s.splitOnP p) : piece ⊆ s :=
  fun c hc ↦ (of_mem_splitOnP h c hc).1

theorem not_sep_of_mem_splitOnP {α : Type*} {p : α → Bool} {s piece : List α}
    (h : piece ∈ s.splitOnP p) : ∀ c ∈ piece, p c = false :=
  fun c hc ↦ (of_mem_splitOnP h c hc).2

theorem not_mem_of_mem_splitOn {s piece : List α} {a : α} (h : piece ∈ s.splitOn a) :
    a ∉ piece := by
  rw [splitOn_eq_splitOnP] at h
  intro ha
  have := not_sep_of_mem_splitOnP h a ha
  rw [beq_self_eq_true] at this
  cases this

theorem mem_of_mem_splitOn {s piece : List α} {a : α} (h : piece ∈ s.splitOn a) : piece ⊆ s := by
  rw [splitOn_eq_splitOnP] at h
  exact mem_of_mem_splitOnP h

def join {α : Type*} (sep : List α) : List (List α) → List α
  | [] => []
  | [x] => x
  | x :: xs => x ++ sep ++ join sep xs

theorem forall_mem_join {α : Type*} {P : α → Prop} {sep : List α} {l : List (List α)}
    (hsep : ∀ c ∈ sep, P c) (h : ∀ x ∈ l, ∀ c ∈ x, P c) : ∀ c ∈ join sep l, P c := by
  fun_induction join sep l with
  | case1 => exact fun c hc ↦ absurd hc not_mem_nil
  | case2 x => exact h x mem_cons_self
  | case3 x xs _ ih =>
    intro c hc
    rw [mem_append, mem_append] at hc
    rcases hc with (hc | hc) | hc
    · exact h x mem_cons_self c hc
    · exact hsep c hc
    · exact ih (fun y hy ↦ h y (mem_cons_of_mem x hy)) c hc

theorem length_le_length_join {α : Type*} (sep : List α) {l : List (List α)} (h : ∀ x ∈ l, x ≠ []) :
    l.length ≤ (join sep l).length := by
  fun_induction join sep l with
  | case1 => exact le_rfl
  | case2 x => exact length_pos_iff.mpr (h x mem_cons_self)
  | case3 x l _ ih =>
    have hx := length_pos_iff.mpr (h x mem_cons_self)
    have hl := ih fun y hy ↦ h y (mem_cons_of_mem x hy)
    rw [length_append, length_append, length_cons]
    omega

/-! ## Trimming and comparing -/

/-- The Unicode property `White_Space`. -/
def isWhiteSpace (c : Char) : Bool :=
  (9 ≤ c.toNat && c.toNat ≤ 13) || c.toNat = 0x20 || c.toNat = 0x85 || c.toNat = 0xA0 ||
    c.toNat = 0x1680 || (0x2000 ≤ c.toNat && c.toNat ≤ 0x200A) || c.toNat = 0x2028 ||
    c.toNat = 0x2029 || c.toNat = 0x202F || c.toNat = 0x205F || c.toNat = 0x3000

def trim (s : List Char) : List Char :=
  ((s.dropWhile isWhiteSpace).reverse.dropWhile isWhiteSpace).reverse

def asciiLower (s : List Char) : List Char := s.map Char.toLower

def eqIgnoreAsciiCase (s t : List Char) : Bool := asciiLower s = asciiLower t

theorem toLower_eq_iff {c d : Char} (hd : d.toNat < 65 ∨ 90 < d.toNat ∧ d.toNat < 97) :
    c.toLower = d ↔ c = d := by
  by_cases hc : c.val ≥ 'A'.val ∧ c.val ≤ 'Z'.val
  · have hlo : 65 ≤ c.toNat := UInt32.le_iff_toNat_le.mp hc.1
    have hhi : c.toNat ≤ 90 := UInt32.le_iff_toNat_le.mp hc.2
    have hnat : c.toLower.toNat = c.toNat + 32 := by
      have hlower : c.toLower = _ := dif_pos hc
      rw [hlower]
      change (c.val + 32).toNat = c.toNat + 32
      rw [UInt32.toNat_add]
      exact Nat.mod_eq_of_lt (Nat.lt_of_le_of_lt (Nat.add_le_add_right hhi 32) (by decide))
    constructor
    · rintro rfl
      omega
    · rintro rfl
      omega
  · have hsame : c.toLower = c := dif_neg hc
    rw [hsame]

theorem asciiLower_asciiLower (s : List Char) : asciiLower (asciiLower s) = asciiLower s := by
  rw [asciiLower, asciiLower, List.map_map]
  refine map_congr_left fun c _ ↦ ?_
  rw [Function.comp_apply]
  by_cases hupper : c.val ≥ 'A'.val ∧ c.val ≤ 'Z'.val
  · have hlower : c.toLower = _ := dif_pos hupper
    have hval : c.toLower.val = c.val + 32 := congrArg Char.val hlower
    refine dif_neg fun hagain ↦ ?_
    rw [hval] at hagain
    grind
  · have hsame : c.toLower = c := dif_neg hupper
    rw [hsame, hsame]

theorem mem_of_mem_trim {c : Char} {s : List Char} (h : c ∈ trim s) : c ∈ s := by
  rw [trim, mem_reverse] at h
  exact (dropWhile_subset _) (mem_reverse.mp ((dropWhile_subset _) h))

def Blank (w : List Char) : Prop := ∀ c ∈ w, isWhiteSpace c = true

def Trimmed (s : List Char) : Prop :=
  (∀ c ∈ s.head?, isWhiteSpace c = false) ∧ ∀ c ∈ s.getLast?, isWhiteSpace c = false

theorem Trimmed.trim_eq {s : List Char} (h : Trimmed s) : trim s = s := by
  have hstay : ∀ t : List Char, (∀ c ∈ t.head?, isWhiteSpace c = false) →
      t.dropWhile isWhiteSpace = t := by
    intro t ht
    cases t with
    | nil => rfl
    | cons c t => exact dropWhile_cons_of_neg (by simp [ht c rfl])
  rw [trim, hstay s h.1, hstay s.reverse (by simpa using h.2), reverse_reverse]

theorem trim_blank_append {w : List Char} (hw : Blank w) (s : List Char) :
    trim (w ++ s) = trim s := by
  rw [trim, dropWhile_append_of_pos hw, trim]

theorem trim_append_blank {w : List Char} (hw : Blank w) (s : List Char) :
    trim (s ++ w) = trim s := by
  have hdrop : w.reverse.dropWhile isWhiteSpace = [] :=
    dropWhile_eq_nil_iff.mpr fun c hc ↦ hw c (mem_reverse.mp hc)
  rw [trim, trim, dropWhile_append]
  split
  · rename_i h
    rw [List.isEmpty_iff.mp h, dropWhile_eq_nil_iff.mpr hw]
  · rw [reverse_append, dropWhile_append, hdrop, isEmpty_nil, if_pos rfl]

theorem exists_eq_append_trim (s : List Char) :
    ∃ w₁ w₂, Blank w₁ ∧ Blank w₂ ∧ s = w₁ ++ trim s ++ w₂ := by
  let a := s.dropWhile isWhiteSpace
  refine ⟨s.takeWhile isWhiteSpace, (a.reverse.takeWhile isWhiteSpace).reverse, ?_, ?_, ?_⟩
  · exact fun c hc ↦ mem_takeWhile_imp hc
  · exact fun c hc ↦ mem_takeWhile_imp (mem_reverse.mp hc)
  · rw [trim, append_assoc, ← reverse_append, takeWhile_append_dropWhile,
      reverse_reverse, takeWhile_append_dropWhile]

theorem trimmed_trim (s : List Char) : Trimmed (trim s) := by
  have hstop : ∀ t : List Char, ∀ c ∈ (t.dropWhile isWhiteSpace).head?,
      isWhiteSpace c = false := by
    intro t c hc
    have h := List.head?_dropWhile_not isWhiteSpace t
    rw [mem_def.mp hc] at h
    exact h
  refine ⟨fun c hc ↦ hstop s c ?_, fun c hc ↦ hstop _ c (by rwa [trim, List.getLast?_reverse] at hc)⟩
  -- what trimming keeps is an initial part of what follows the leading white space
  have hpre : trim s <+: s.dropWhile isWhiteSpace := by
    have h := reverse_prefix.mpr
      (dropWhile_suffix (l := (s.dropWhile isWhiteSpace).reverse) isWhiteSpace)
    rwa [reverse_reverse] at h
  obtain ⟨t, ht⟩ := hpre
  rw [← ht, List.head?_append, mem_def.mp hc]
  rfl

theorem length_trim_le (s : List Char) : (trim s).length ≤ s.length := by
  obtain ⟨w₁, w₂, -, -, h⟩ := exists_eq_append_trim s
  have hlen := congrArg List.length h
  rw [length_append, length_append] at hlen
  omega

theorem Trimmed.append {u v m : List Char} (hu : Trimmed u) (hv : Trimmed v) (hu0 : u ≠ [])
    (hv0 : v ≠ []) : Trimmed (u ++ m ++ v) := by
  constructor
  · rw [append_assoc, List.head?_append_of_ne_nil _ hu0]
    exact hu.1
  · rw [List.getLast?_append_of_ne_nil _ hv0]
    exact hv.2

/-! ## Lower-casing -/

structure CaseTables where
  /-- The lower-case form of a character, one to three characters long. -/
  toLower : Char → List Char
  /-- The property `Cased`. -/
  cased : Char → Bool
  /-- The property `Case_Ignorable`. -/
  caseIgnorable : Char → Bool
  toLower_ascii : ∀ c : Char, c.val < 128 → toLower c = [c.toLower]

namespace CaseTables

variable (U : CaseTables)

def caseIgnorableThenCased (s : List Char) : Bool :=
  match s.dropWhile U.caseIgnorable with
  | [] => false
  | c :: _ => U.cased c

/-- Lower-case the characters of a text, given the reversed text before them. A capital sigma that
ends a word becomes the final sigma. -/
def lowerFrom (before : List Char) : List Char → List Char
  | [] => []
  | c :: s =>
    (if c = 'Σ' then
      if U.caseIgnorableThenCased before && !U.caseIgnorableThenCased s then ['ς'] else ['σ']
    else U.toLower c) ++ lowerFrom (c :: before) s

def ascii : CaseTables where
  toLower c := [c.toLower]
  cased := Char.isAlpha
  caseIgnorable c := c ∈ ['\'', '.', ':', '^', '`']
  toLower_ascii _ _ := rfl

def lower (s : List Char) : List Char := U.lowerFrom [] s

private theorem lowerFrom_prefix_append {q s : List Char} (hσ : 'σ' ∉ q) (hς : 'ς' ∉ q)
    (t before : List Char) (h : q <+: U.lowerFrom before s) :
    q <+: U.lowerFrom before (s ++ t) := by
  induction s generalizing q before with
  | nil =>
    rw [lowerFrom, prefix_nil] at h
    exact h ▸ nil_prefix
  | cons c s ih =>
    rw [cons_append, lowerFrom] at *
    by_cases hc : c = 'Σ'
    · -- a lower-cased sigma would stand in `q`, unless `q` ends before it
      cases q with
      | nil => exact nil_prefix
      | cons d q =>
        rw [if_pos hc] at h
        rw [mem_cons, not_or] at hσ hς
        split at h
        · exact absurd (cons_prefix_cons.mp h).1.symm hς.1
        · exact absurd (cons_prefix_cons.mp h).1.symm hσ.1
    · rw [if_neg hc] at h ⊢
      rcases prefix_or_prefix_of_prefix h (prefix_append (U.toLower c) _) with hq | hq
      · exact hq.trans (prefix_append _ _)
      · obtain ⟨q', rfl⟩ := hq
        rw [prefix_append_right_inj] at h ⊢
        exact ih (fun hm ↦ hσ (mem_append_right _ hm))
          (fun hm ↦ hς (mem_append_right _ hm)) _ h

/-- **A lower-cased prefix survives extension**, as long as no small sigma stands in it: only the
lower case of a capital sigma looks ahead. -/
theorem lower_prefix_append {q s : List Char} (hσ : 'σ' ∉ q) (hς : 'ς' ∉ q) (t : List Char)
    (h : q <+: U.lower s) : q <+: U.lower (s ++ t) :=
  U.lowerFrom_prefix_append hσ hς t [] h

theorem exists_lowerFrom_append {q : List Char} (hq : ∀ c ∈ q, c.val < 128 ∧ c.toLower = c)
    (before t : List Char) : ∃ b, U.lowerFrom before (q ++ t) = q ++ U.lowerFrom b t := by
  induction q generalizing before with
  | nil => exact ⟨before, rfl⟩
  | cons c q ih =>
    obtain ⟨hc, hl⟩ := hq c mem_cons_self
    have hcap : c ≠ 'Σ' := by
      rintro rfl
      exact absurd hc (by decide)
    rw [cons_append, lowerFrom, if_neg hcap, U.toLower_ascii c hc, hl, singleton_append]
    exact (ih (fun d hd ↦ hq d (mem_cons_of_mem c hd)) _).imp fun b hb ↦ congrArg (c :: ·) hb

theorem lower_eq_self {q : List Char} (hq : ∀ c ∈ q, c.val < 128 ∧ c.toLower = c) :
    U.lower q = q := by
  obtain ⟨b, hb⟩ := U.exists_lowerFrom_append hq [] []
  rwa [append_nil, lowerFrom, append_nil] at hb

theorem prefix_lower_append {q : List Char} (hq : ∀ c ∈ q, c.val < 128 ∧ c.toLower = c)
    (t : List Char) : q <+: U.lower (q ++ t) := by
  obtain ⟨b, hb⟩ := U.exists_lowerFrom_append hq [] t
  rw [lower, hb]
  exact prefix_append _ _

end CaseTables

/-! ## Recursion on shorter texts -/

section Recursion

variable {σ β : Type*}

/-- Repeat a step, at most `n` texts deep. -/
def within (step : (List σ → β) → List σ → β) (stop : β) : ℕ → List σ → β
  | 0, _ => stop
  | n + 1, s => step (within step stop n) s

/-- The function that a step defines from its values on shorter texts. -/
def recurse (step : (List σ → β) → List σ → β) (stop : β) (s : List σ) : β :=
  within step stop (s.length + 1) s

def AsksShorter (step : (List σ → β) → List σ → β) : Prop :=
  ∀ (f g : List σ → β) (s : List σ), (∀ t, t.length < s.length → f t = g t) → step f s = step g s

variable {step : (List σ → β) → List σ → β} (h : AsksShorter step) (stop : β)
include h

theorem AsksShorter.within_eq {n m : ℕ} {s : List σ} (hn : s.length < n) (hm : s.length < m) :
    within step stop n s = within step stop m s := by
  induction n generalizing m s with
  | zero => exact absurd hn (Nat.not_lt_zero _)
  | succ n ih =>
    obtain ⟨m, rfl⟩ := Nat.exists_eq_succ_of_ne_zero (Nat.ne_zero_of_lt hm)
    exact h _ _ s fun t ht ↦ ih (by omega) (by omega)

theorem AsksShorter.recurse_eq (s : List σ) :
    recurse step stop s = step (recurse step stop) s :=
  h _ _ s fun _ ht ↦ h.within_eq stop ht (Nat.lt_succ_self _)

end Recursion

end Text
