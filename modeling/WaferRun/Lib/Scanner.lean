import Mathlib.Data.List.Basic

/-!
# Texts with strings and groups

A scanner that looks for tokens in a text must not look into string literals and parenthesized
groups. The *positions* of a text are the places it may look at: those outside of every string and
every group, on characters that open and close neither.

A text is *closed* if every string and every group in it ends in it. Scanning a closed text leaves
the scanner as it was, so the positions of a text are those of its closed pieces, and a token is
found in the whole if it is found in a piece or straddles two of them.
-/

open List Option

namespace Scanner

variable {a c : Char} {before token u v x : List Char}

/-- Whether a character is escaped by the backslashes before it, given the reversed text before it:
their number is odd. -/
def isEscaped (before : List Char) : Bool := (before.takeWhile (· = '\\')).length % 2 = 1

theorem isEscaped_cons (c : Char) (before : List Char) :
    isEscaped (c :: before) = (c = '\\' && !isEscaped before) := by
  unfold isEscaped
  by_cases hc : c = '\\'
  · rw [takeWhile_cons_of_pos (by simpa using hc), length_cons]
    rcases Nat.mod_two_eq_zero_or_one (before.takeWhile (· = '\\')).length with h | h
    · simp [hc, Nat.add_mod, h]
    · simp [hc, Nat.add_mod, h]
  · rw [takeWhile_cons_of_neg (by simpa using hc)]
    simp [hc]

def isQuote (c : Char) : Bool := c = '"' || c = '\''

/-- A character that opens or closes neither a string nor a group. -/
def isPlain (c : Char) : Bool := !isQuote c && c ≠ '(' && c ≠ ')'

theorem eq_of_isQuote {q : Char} (h : isQuote q = true) : q = '"' ∨ q = '\'' := by
  simpa [isQuote] using h

theorem notMem_of_class {p : Char → Bool} {l : List Char} (hl : ∀ d ∈ l, p d = false)
    (h : p c = true) : c ∉ l :=
  fun hc ↦ absurd h (by rw [hl c hc]; exact Bool.false_ne_true)

theorem isPlain_of_class {p : Char → Bool} (hp : ∀ d ∈ ['"', '\'', '(', ')'], p d = false)
    (h : p c = true) : isPlain c = true := by
  have hc := notMem_of_class hp h
  simp only [mem_cons, not_mem_nil, or_false, not_or] at hc
  simp [isPlain, isQuote, hc]

/-- Where the scanner is: in a string or not, and in how many groups. -/
structure State where
  quote : Option Char
  depth : ℕ
deriving DecidableEq

/-- Outside of all strings and groups. -/
def start : State := ⟨none, 0⟩

def State.step (before : List Char) (st : State) (c : Char) : State :=
  match st.quote with
  | some q => if c = q && !isEscaped before then { st with quote := none } else st
  | none =>
    if isQuote c then { st with quote := some c }
    else if c = '(' then { st with depth := st.depth + 1 }
    else if c = ')' then { st with depth := st.depth - 1 }
    else st

def State.sees (st : State) (c : Char) : Bool := st = start && isPlain c

/-- The places the scanner looks at: the reversed text before each, and the text from it on. -/
def positionsFrom (before : List Char) (st : State) : List Char → List (List Char × List Char)
  | [] => []
  | c :: s =>
    (if st.sees c then [(before, c :: s)] else []) ++ positionsFrom (c :: before) (st.step before c) s

def positions (s : List Char) : List (List Char × List Char) := positionsFrom [] start s

def State.after (before : List Char) (st : State) : List Char → State
  | [] => st
  | c :: s => (st.step before c).after (c :: before) s

theorem after_append (before : List Char) (st : State) (u v : List Char) :
    st.after before (u ++ v) = (st.after before u).after (u.reverse ++ before) v := by
  induction u generalizing before st with
  | nil => rfl
  | cons c u ih => rw [cons_append, State.after, ih, State.after, reverse_cons,
      append_assoc, singleton_append]

theorem positionsFrom_append (before : List Char) (st : State) (u v : List Char) :
    positionsFrom before st (u ++ v) =
      (positionsFrom before st u).map (fun p ↦ (p.1, p.2 ++ v)) ++
        positionsFrom (u.reverse ++ before) (st.after before u) v := by
  induction u generalizing before st with
  | nil => rfl
  | cons c u ih =>
    rw [cons_append, positionsFrom, ih, positionsFrom, State.after, reverse_cons,
      append_assoc (u.reverse), singleton_append, map_append, append_assoc]
    split_ifs <;> rfl

theorem eq_of_mem_positionsFrom {s : List Char} {st : State} {p : List Char × List Char}
    (h : p ∈ positionsFrom before st s) :
    ∃ u c v, s = u ++ c :: v ∧ p = (u.reverse ++ before, c :: v) ∧ st.after before u = start ∧
      isPlain c = true := by
  induction s generalizing before st with
  | nil => exact absurd h not_mem_nil
  | cons c s ih =>
    rw [positionsFrom, mem_append] at h
    rcases h with h | h
    · split_ifs at h with hsees
      · rw [State.sees, Bool.and_eq_true, decide_eq_true_eq] at hsees
        exact ⟨[], c, s, rfl, mem_singleton.mp h, hsees.1, hsees.2⟩
      · exact absurd h not_mem_nil
    · obtain ⟨u, d, v, hs, hp, hafter, hd⟩ := ih h
      refine ⟨c :: u, d, v, by rw [hs]; rfl, ?_, hafter, hd⟩
      rw [hp, reverse_cons, append_assoc, singleton_append]

theorem mem_positionsFrom {st : State} (h : st.after before u = start) (hc : isPlain c = true) :
    (u.reverse ++ before, c :: v) ∈ positionsFrom before st (u ++ c :: v) := by
  rw [positionsFrom_append, h]
  refine mem_append_right _ ?_
  rw [positionsFrom, State.sees, hc]
  exact mem_append_left _ (mem_singleton.mpr rfl)

theorem step_inString (before : List Char) (q : Char) (d : ℕ) (c : Char) :
    State.step before ⟨some q, d⟩ c =
      if c = q && !isEscaped before then ⟨none, d⟩ else ⟨some q, d⟩ := rfl

theorem step_quote {q : Char} (hq : isQuote q = true) (before : List Char) (d : ℕ) :
    State.step before ⟨none, d⟩ q = ⟨some q, d⟩ :=
  if_pos hq

theorem step_open (before : List Char) (d : ℕ) :
    State.step before ⟨none, d⟩ '(' = ⟨none, d + 1⟩ := rfl

theorem step_close (before : List Char) (d : ℕ) :
    State.step before ⟨none, d⟩ ')' = ⟨none, d - 1⟩ := rfl

theorem step_plain (h : isPlain c = true) (before : List Char) (d : ℕ) :
    State.step before ⟨none, d⟩ c = ⟨none, d⟩ := by
  simp only [isPlain, Bool.and_eq_true, Bool.not_eq_true', decide_eq_true_eq] at h
  simp [State.step, h.1.1, h.1.2, h.2]

theorem step_start (h : isPlain c = true) (before : List Char) : start.step before c = start :=
  step_plain h before 0

theorem isQuote_of_mem_quote {s : List Char} {st : State} (h : ∀ q ∈ st.quote, isQuote q = true) :
    ∀ q ∈ (st.after before s).quote, isQuote q = true := by
  induction s generalizing before st with
  | nil => exact h
  | cons c s ih =>
    refine ih fun q hq ↦ ?_
    rw [State.step] at hq
    split at hq
    · split_ifs at hq
      · exact absurd hq (not_mem_none q)
      · exact h q hq
    · split_ifs at hq with hc
      · rw [← mem_some.mp hq]
        exact hc
      · exact h q hq
      · exact h q hq
      · exact h q hq

theorem after_eq_start_of_concat (hc : isPlain c = true) (h : start.after [] (u ++ [c]) = start) :
    start.after [] u = start := by
  have hq : ∀ q ∈ (start.after [] u).quote, isQuote q = true :=
    isQuote_of_mem_quote fun q hq ↦ absurd hq (not_mem_none q)
  rw [after_append] at h
  simp only [isPlain, Bool.and_eq_true, Bool.not_eq_true', decide_eq_true_eq] at hc
  obtain ⟨⟨hquote, hopen⟩, hclose⟩ := hc
  simp only [State.after, State.step] at h
  split at h
  · rename_i q hst
    have hne : c ≠ q := by
      rintro rfl
      exact absurd (hq c hst) (by rw [hquote]; exact Bool.false_ne_true)
    rwa [if_neg (by simp [hne])] at h
  · rwa [if_neg (by simp [hquote]), if_neg hopen, if_neg hclose] at h

/-! ## Independence of what comes before -/

theorem isEscaped_append (h : ∃ c ∈ x, c ≠ '\\') (before : List Char) :
    isEscaped (x ++ before) = isEscaped x := by
  induction x with
  | nil => exact absurd h (by simp)
  | cons c x ih =>
    rw [cons_append, isEscaped_cons, isEscaped_cons]
    by_cases hc : c = '\\'
    · -- a backslash decides nothing, so another character of the text does
      obtain ⟨d, hd, hne⟩ := h
      rcases mem_cons.mp hd with rfl | hd
      · exact absurd hc hne
      · rw [ih ⟨d, hd, hne⟩]
    · simp [hc]

/-- The scanner can tell which quotes are escaped without looking further back. -/
def Settled (st : State) (x : List Char) : Prop := st.quote = none ∨ ∃ c ∈ x, c ≠ '\\'

theorem Settled.step_append {st : State} (h : Settled st x) (before : List Char) (c : Char) :
    st.step (x ++ before) c = st.step x c := by
  rcases h with h | h
  · simp [State.step, h]
  · simp [State.step, isEscaped_append h]

theorem Settled.step {st : State} (h : Settled st x) (c : Char) :
    Settled (st.step x c) (c :: x) := by
  rcases h with h | ⟨d, hd, hne⟩
  · by_cases hc : c = '\\'
    · left
      simp [State.step, h, hc, isQuote]
    · exact .inr ⟨c, mem_cons_self, hc⟩
  · exact .inr ⟨d, mem_cons_of_mem c hd, hne⟩

theorem Settled.after_append {st : State} (h : Settled st x) (before s : List Char) :
    st.after (x ++ before) s = st.after x s := by
  induction s generalizing st x with
  | nil => rfl
  | cons c s ih =>
    rw [State.after, State.after, h.step_append]
    exact ih (h.step c)

theorem Settled.positionsFrom_append {st : State} (h : Settled st x) (before s : List Char) :
    positionsFrom (x ++ before) st s =
      (positionsFrom x st s).map fun p ↦ (p.1 ++ before, p.2) := by
  induction s generalizing st x with
  | nil => rfl
  | cons c s ih =>
    have ih' := ih (h.step c)
    rw [cons_append] at ih'
    rw [positionsFrom, positionsFrom, h.step_append, ih', map_append]
    split_ifs <;> rfl

/-! ## Texts after which the scanner is where it was -/

/-- After the text the scanner is outside of everything again. -/
def Balanced (u : List Char) : Prop := start.after [] u = start

theorem Balanced.after (h : Balanced u) (before : List Char) : start.after before u = start :=
  (Settled.after_append (x := []) (.inl rfl) before u).trans h

theorem Balanced.append (hu : Balanced u) (hv : Balanced v) : Balanced (u ++ v) := by
  rw [Balanced, after_append, hu]
  exact hv.after _

theorem Balanced.positions_append (h : Balanced u) (v : List Char) :
    positions (u ++ v) = (positions u).map (fun p ↦ (p.1, p.2 ++ v)) ++
      (positions v).map fun p ↦ (p.1 ++ u.reverse, p.2) := by
  rw [positions, positionsFrom_append, h, append_nil]
  exact congrArg _ (Settled.positionsFrom_append (x := []) (.inl rfl) _ _)

theorem Balanced.forall_positions_append (h : Balanced u) {P : List Char × List Char → Prop} :
    (∀ p ∈ positions (u ++ v), P p) ↔ (∀ p ∈ positions u, P (p.1, p.2 ++ v)) ∧
      ∀ p ∈ positions v, P (p.1 ++ u.reverse, p.2) := by
  rw [h.positions_append]
  simp only [mem_append, List.mem_map, or_imp, forall_and, forall_exists_index, and_imp,
    forall_apply_eq_imp_iff₂]

theorem positions_cons (hc : isPlain c = true) (v : List Char) :
    positions (c :: v) = ([], c :: v) :: (positions v).map fun p ↦ (p.1 ++ [c], p.2) := by
  have hsees : start.sees c = true := by simp [State.sees, hc]
  rw [positions, positionsFrom, if_pos hsees, step_start hc]
  exact congrArg _ (Settled.positionsFrom_append (x := []) (.inl rfl) _ _)

/-! ## Finding a token -/

variable {hit : List Char × List Char → Bool}

theorem Balanced.find?_positions (hu : Balanced u) (hc : isPlain c = true)
    (hhit : hit (u.reverse, c :: v) = true)
    (hno : ∀ p ∈ positions u, hit (p.1, p.2 ++ c :: v) = false) :
    (positions (u ++ c :: v)).find? hit = some (u.reverse, c :: v) := by
  rw [hu.positions_append, positions_cons hc, List.find?_append, List.find?_eq_none.mpr,
    none_or, map_cons, nil_append, List.find?_cons_of_pos hhit]
  intro p hp
  obtain ⟨q, hq, rfl⟩ := List.mem_map.mp hp
  exact Bool.not_eq_true _ ▸ hno q hq

theorem Balanced.find?_reverse_positions (hu : Balanced u) (hc : isPlain c = true)
    (hhit : hit (u.reverse, c :: v) = true)
    (hno : ∀ p ∈ positions v, hit (p.1 ++ c :: u.reverse, p.2) = false) :
    (positions (u ++ c :: v)).reverse.find? hit = some (u.reverse, c :: v) := by
  rw [hu.positions_append, positions_cons hc, reverse_append, List.find?_append,
    map_cons, reverse_cons, List.find?_append, List.find?_eq_none.mpr, none_or,
    nil_append, List.find?_cons_of_pos hhit, some_or]
  intro p hp
  rw [List.map_map, mem_reverse] at hp
  obtain ⟨q, hq, rfl⟩ := List.mem_map.mp hp
  simpa using hno q hq

theorem exists_of_mem_positions {t : List Char} {p : List Char × List Char}
    (h : p ∈ positions t) :
    ∃ u c v, t = u ++ c :: v ∧ p = (u.reverse, c :: v) ∧ Balanced u ∧ isPlain c = true := by
  obtain ⟨u, c, v, ht, hp, hu, hc⟩ := eq_of_mem_positionsFrom h
  exact ⟨u, c, v, ht, by rwa [append_nil] at hp, hu, hc⟩

theorem Balanced.before_of_find? (hu : Balanced u)
    (h : (positions (u ++ c :: v)).find? hit = some (u.reverse, c :: v)) :
    ∀ p ∈ positions u, hit (p.1, p.2 ++ c :: v) = false := by
  rw [hu.positions_append, List.find?_append] at h
  rcases hfirst : ((positions u).map fun p ↦ (p.1, p.2 ++ c :: v)).find? hit with _ | q
  · intro p hp
    exact Bool.not_eq_true _ ▸ List.find?_eq_none.mp hfirst _ (List.mem_map.mpr ⟨p, hp, rfl⟩)
  · -- an earlier place has more text after it
    rw [hfirst, some_or] at h
    obtain ⟨p, hp, hq⟩ := List.mem_map.mp (mem_of_find?_eq_some hfirst)
    obtain ⟨x, d, y, -, rfl, -, -⟩ := exists_of_mem_positions hp
    have hlen := congrArg (fun q ↦ q.2.length) (hq.trans (some.inj h))
    simp only [length_cons, length_append] at hlen
    omega

theorem Balanced.after_of_find?_reverse (hu : Balanced u) (hc : isPlain c = true)
    (h : (positions (u ++ c :: v)).reverse.find? hit = some (u.reverse, c :: v)) :
    ∀ p ∈ positions v, hit (p.1 ++ c :: u.reverse, p.2) = false := by
  rw [hu.positions_append, positions_cons hc, reverse_append, List.find?_append,
    map_cons, reverse_cons, List.find?_append, List.map_map] at h
  rcases hlast : (((positions v).map ((fun p ↦ (p.1 ++ u.reverse, p.2)) ∘
      fun p ↦ (p.1 ++ [c], p.2))).reverse.find? hit) with _ | q
  · intro p hp
    have hno := List.find?_eq_none.mp hlast (p.1 ++ [c] ++ u.reverse, p.2)
      (mem_reverse.mpr (List.mem_map.mpr ⟨p, hp, rfl⟩))
    rw [append_assoc] at hno
    exact Bool.not_eq_true _ ▸ hno
  · -- a later place has less text after it
    rw [hlast, some_or, some_or] at h
    obtain ⟨p, hp, hq⟩ := List.mem_map.mp
      (mem_reverse.mp (List.mem_of_find?_eq_some hlast))
    obtain ⟨x, d, y, rfl, rfl, -, -⟩ := exists_of_mem_positions hp
    have hlen := congrArg (fun q ↦ q.2.length) (hq.trans (some.inj h))
    simp only [Function.comp_apply, length_cons, length_append] at hlen
    omega

/-- No place the scanner looks at starts with the token. -/
def Mute (token t : List Char) : Prop := ∀ p ∈ positions t, ¬token <+: p.2

instance (token t : List Char) : Decidable (Mute token t) :=
  inferInstanceAs (Decidable (∀ p ∈ positions t, _))

theorem mute_of_notMem {t : List Char} (h : a ∉ t) : Mute (a :: token) t := by
  intro p hp hpre
  obtain ⟨u, c, v, rfl, rfl, -, -⟩ := eq_of_mem_positionsFrom hp
  obtain ⟨rfl, -⟩ := cons_prefix_cons.mp hpre
  exact h (by simp)

theorem Mute.of_append_left (h : Mute token (u ++ v)) : Mute token u := by
  intro p hp hpre
  have hmem : (p.1, p.2 ++ v) ∈ positions (u ++ v) := by
    rw [positions, positionsFrom_append]
    exact mem_append_left _ (List.mem_map.mpr ⟨p, hp, rfl⟩)
  exact h _ hmem (hpre.trans (prefix_append _ _))

theorem Mute.of_append_right (hu : Balanced u) (h : Mute token (u ++ v)) : Mute token v :=
  (hu.forall_positions_append.mp h).2

theorem Mute.not_isPrefix_append (hmu : Mute token u)
    (hborder : ∀ x y, x ≠ [] → token = x ++ y → x <:+ u → y <+: v → y = []) :
    ∀ p ∈ positions u, ¬token <+: p.2 ++ v := by
  intro p hp hpre
  obtain ⟨x, c, z, hu', hp', -, -⟩ := eq_of_mem_positionsFrom hp
  -- the token ends in the first part, or it covers the end of it
  rcases prefix_or_prefix_of_prefix hpre (prefix_append p.2 v) with hin | ⟨y, hy⟩
  · exact hmu p hp hin
  · rw [← hy, prefix_append_right_inj] at hpre
    have hy0 : y = [] := by
      refine hborder p.2 y ?_ hy.symm ⟨x, ?_⟩ hpre
      · rw [hp']
        exact cons_ne_nil c z
      · rw [hp']
        exact hu'.symm
    have htoken : token = p.2 := by rw [← hy, hy0, append_nil]
    exact hmu p hp (htoken ▸ prefix_refl p.2)

theorem Mute.not_singleton_isPrefix (h : Mute [a] u) (v : List Char) :
    ∀ p ∈ positions u, ¬[a] <+: p.2 ++ v := by
  refine h.not_isPrefix_append fun x y hx hxy _ _ ↦ ?_
  rcases append_eq_singleton_iff.mp hxy.symm with ⟨rfl, -⟩ | ⟨-, hy⟩
  · exact absurd rfl hx
  · exact hy

theorem Mute.not_pair_isPrefix {b : Char} (h : Mute [a, b] u)
    (hborder : u.getLast? = some a → v.head? ≠ some b) :
    ∀ p ∈ positions u, ¬[a, b] <+: p.2 ++ v := by
  refine h.not_isPrefix_append fun x y hx hxy hxu hyv ↦ ?_
  obtain ⟨d, x, rfl⟩ := exists_cons_of_ne_nil hx
  rw [cons_append, List.cons.injEq] at hxy
  obtain ⟨rfl, hxy⟩ := hxy
  rcases append_eq_singleton_iff.mp hxy.symm with ⟨rfl, rfl⟩ | ⟨-, hy⟩
  · obtain ⟨u', rfl⟩ := hxu
    obtain ⟨v', rfl⟩ := hyv
    exact absurd rfl (hborder (by simp))
  · exact hy

theorem Mute.append_singleton (hu : Balanced u) (hmu : Mute [a] u) (hmv : Mute [a] v) :
    Mute [a] (u ++ v) :=
  hu.forall_positions_append.mpr ⟨hmu.not_singleton_isPrefix v, hmv⟩

theorem Mute.append_pair {b : Char} (hu : Balanced u) (hmu : Mute [a, b] u) (hmv : Mute [a, b] v)
    (hborder : u.getLast? = some a → v.head? ≠ some b) : Mute [a, b] (u ++ v) :=
  hu.forall_positions_append.mpr ⟨hmu.not_pair_isPrefix hborder, hmv⟩

/-! ## Closed texts -/

/-- Read the inside of a string: whether the next character is escaped, `none` if the string has
ended. -/
def escapeAfter (q : Char) (escaped : Bool) : List Char → Option Bool
  | [] => some escaped
  | c :: s => if c = q && !escaped then none else escapeAfter q (c = '\\' && !escaped) s

/-- A text that can stand in a string: the quote after it is the first that ends the string. -/
def Sealed (q : Char) (body : List Char) : Prop := escapeAfter q false body = some false

instance (q : Char) (body : List Char) : Decidable (Sealed q body) :=
  inferInstanceAs (Decidable (_ = _))

/-- Every string and every group of the text ends in it. -/
inductive Closed : List Char → Prop
  | nil : Closed []
  | plain {c s} (hc : isPlain c = true) (hs : Closed s) : Closed (c :: s)
  | string {q body s} (hq : isQuote q = true) (hbody : Sealed q body) (hs : Closed s) :
      Closed (q :: (body ++ q :: s))
  | group {u s} (hu : Closed u) (hs : Closed s) : Closed ('(' :: (u ++ ')' :: s))

theorem after_of_escapeAfter {q : Char} {body : List Char} {e : Bool} (d : ℕ)
    (h : escapeAfter q (isEscaped before) body = some e) :
    State.after before ⟨some q, d⟩ body = ⟨some q, d⟩ ∧ isEscaped (body.reverse ++ before) = e ∧
      positionsFrom before ⟨some q, d⟩ body = [] := by
  induction body generalizing before with
  | nil => exact ⟨rfl, some.inj h, rfl⟩
  | cons c body ih =>
    rw [escapeAfter] at h
    split_ifs at h with hc
    rw [← isEscaped_cons] at h
    have hsees : ¬State.sees ⟨some q, d⟩ c = true := by simp [State.sees, start]
    rw [State.after, positionsFrom, step_inString, if_neg hc, if_neg hsees, reverse_cons,
      append_assoc]
    exact ih h

theorem isEscaped_quote {q : Char} (hq : isQuote q = true) (before : List Char) :
    isEscaped (q :: before) = false := by
  rw [isEscaped_cons]
  rcases eq_of_isQuote hq with rfl | rfl <;> simp

section String

variable {q : Char} (hq : isQuote q = true) {body : List Char} (h : Sealed q body)
include hq h

theorem after_string (before : List Char) (d : ℕ) (s : List Char) :
    State.after before ⟨none, d⟩ (q :: (body ++ q :: s)) =
      State.after (q :: (body.reverse ++ q :: before)) ⟨none, d⟩ s := by
  have hread : escapeAfter q (isEscaped (q :: before)) body = some false := by
    rwa [isEscaped_quote hq]
  obtain ⟨hafter, hescaped, -⟩ := after_of_escapeAfter d hread
  rw [State.after, step_quote hq, Scanner.after_append, hafter, State.after, step_inString,
    hescaped, if_pos (by simp)]

theorem positionsFrom_string (before : List Char) (d : ℕ) (s : List Char) :
    positionsFrom before ⟨none, d⟩ (q :: (body ++ q :: s)) =
      positionsFrom (q :: (body.reverse ++ q :: before)) ⟨none, d⟩ s := by
  have hread : escapeAfter q (isEscaped (q :: before)) body = some false := by
    rwa [isEscaped_quote hq]
  obtain ⟨hafter, hescaped, hpositions⟩ := after_of_escapeAfter d hread
  have hsees : ∀ st : State, ¬st.sees q = true := by simp [State.sees, isPlain, hq]
  rw [positionsFrom, if_neg (hsees _), step_quote hq, nil_append,
    Scanner.positionsFrom_append, hafter, hpositions, map_nil, nil_append, positionsFrom,
    if_neg (hsees _), nil_append, step_inString, hescaped, if_pos (by simp)]

end String

theorem Closed.after {s : List Char} (h : Closed s) (before : List Char) (d : ℕ) :
    State.after before ⟨none, d⟩ s = ⟨none, d⟩ := by
  induction h generalizing before d with
  | nil => rfl
  | plain hc _ ih => rw [State.after, step_plain hc, ih]
  | string hq hbody _ ih => rw [after_string hq hbody, ih]
  | group _ _ ihu ih =>
    rw [State.after, step_open, Scanner.after_append, ihu, State.after, step_close,
      Nat.add_sub_cancel, ih]

theorem Closed.balanced {s : List Char} (h : Closed s) : Balanced s := h.after [] 0

theorem Closed.positionsFrom_deep {s : List Char} (h : Closed s) (before : List Char) (d : ℕ) :
    positionsFrom before ⟨none, d + 1⟩ s = [] := by
  have hsees : ∀ d c, ¬State.sees ⟨none, d + 1⟩ c = true := by simp [State.sees, start]
  induction h generalizing before d with
  | nil => rfl
  | plain hc _ ih => rw [positionsFrom, if_neg (hsees _ _), step_plain hc, ih, append_nil]
  | string hq hbody _ ih => rw [positionsFrom_string hq hbody, ih]
  | group hu _ ihu ih =>
    rw [positionsFrom, if_neg (hsees _ _), nil_append, step_open, positionsFrom_append, ihu,
      map_nil, nil_append, hu.after, positionsFrom, if_neg (hsees _ _), nil_append,
      step_close, Nat.add_sub_cancel, ih]

theorem positions_string {q : Char} (hq : isQuote q = true) {body : List Char}
    (h : Sealed q body) : positions (q :: (body ++ [q])) = [] :=
  positionsFrom_string hq h [] 0 []

theorem Closed.positions_group (h : Closed u) : positions ('(' :: (u ++ [')'])) = [] := by
  rw [positions, positionsFrom, start, step_open, Scanner.positionsFrom_append,
    h.positionsFrom_deep, h.after, positionsFrom, positionsFrom]
  simp [State.sees, isPlain]

theorem Closed.append (hu : Closed u) (hv : Closed v) : Closed (u ++ v) := by
  induction hu with
  | nil => exact hv
  | plain hc _ ih => exact .plain hc ih
  | string hq hbody _ ih => simpa using Closed.string hq hbody ih
  | group hu _ _ ih => simpa using Closed.group hu ih

theorem closed_of_isPlain {w : List Char} (h : ∀ c ∈ w, isPlain c = true) : Closed w := by
  induction w with
  | nil => exact .nil
  | cons c w ih =>
    exact .plain (h c mem_cons_self) (ih fun d hd ↦ h d (mem_cons_of_mem c hd))

end Scanner
