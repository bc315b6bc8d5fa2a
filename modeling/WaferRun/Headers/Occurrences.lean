import WaferRun.Headers.OperatorCsp

/-!
# What a policy says of a directive

A policy may name a directive more than once. The parser keeps the first occurrence, unless all its
sources are invalid: then it goes on to the next one. So what it keeps are the valid sources of the
first occurrence that has any or that has no sources at all (`counted`, `lookup_parse`).

It reports the invalid sources of each occurrence until then, and of each occurrence after that, that
it is a repetition (`repetitions_parse`).
-/

open List Option

namespace WaferRun.SecurityHeaders

open Text

/-! ## Occurrences -/

structure Occurrence where
  written : Word
  tokens : List Word
deriving DecidableEq, Repr

namespace Occurrence

variable (o : Occurrence)

def Names (name : Word) : Prop := isDirectiveName o.written = true ∧ asciiLower o.written = name

instance (name : Word) : DecidablePred fun o : Occurrence ↦ o.Names name := fun o ↦ by
  unfold Names
  infer_instance

/-- The valid sources. -/
def values : List Word := o.tokens.filter isValueToken

/-- The occurrence says something: it has a valid source, or none by intention. -/
def Counts : Prop := o.tokens = [] ∨ o.values ≠ []

instance : DecidablePred Counts := fun o ↦ by
  unfold Counts
  infer_instance

end Occurrence

/-- The directive between two semicolons. -/
def readOccurrence (raw : List Char) : Option Occurrence :=
  match Csp.words raw with
  | [] => none
  | written :: tokens => some ⟨written, tokens⟩

/-- The directives of a policy in the order in which they are written. -/
def occurrences (policy : List Char) : List Occurrence :=
  (policy.splitOn ';').filterMap readOccurrence

def named (policy : List Char) (name : Word) : List Occurrence :=
  (occurrences policy).filter fun o ↦ o.Names name

def counted (policy : List Char) (name : Word) : Option (List Word) :=
  ((named policy name).find? fun o ↦ o.Counts).map (·.values)

def repeated : String := "duplicate directive; browsers use only the first"

def invalidSource : String :=
  "not a valid CSP token (comma, control or non-ASCII character)"

def Occurrence.refusals (o : Occurrence) (known : Bool) : List Refusal :=
  if isDirectiveName o.written then
    if known then [⟨o.written, none, repeated⟩]
    else (o.tokens.filter fun token ↦ !isValueToken token).map fun token ↦
      ⟨o.written, some token, invalidSource⟩
  else [⟨o.written, none, "not a valid directive name"⟩]

/-! ## The parser -/

def parseOccurrence (out : Merging) (o : Occurrence) : Merging :=
  let name := asciiLower o.written
  ⟨if isDirectiveName o.written ∧ name ∉ out.directives ∧ o.Counts then
      out.directives.insert name o.values
    else out.directives,
    out.refused ++ o.refusals (name ∈ out.directives)⟩

theorem Occurrence.not_counts {o : Occurrence} : ¬o.Counts ↔ o.tokens ≠ [] ∧ o.values = [] := by
  rw [Counts, not_or, not_not]

theorem parseDirective_eq (out : Merging) (raw : List Char) :
    parseDirective out raw = (readOccurrence raw).elim out (parseOccurrence out) := by
  unfold parseDirective readOccurrence
  rcases Csp.words raw with _ | ⟨written, tokens⟩
  · rfl
  · unfold parseOccurrence Occurrence.refusals
    dsimp only [elim_some]
    by_cases hname : isDirectiveName written = true
    · by_cases hknown : asciiLower written ∈ out.directives
      · simp [hname, hknown, Merging.refuse, repeated]
      · by_cases hcounts : (⟨written, tokens⟩ : Occurrence).Counts
        · have hvalid : ¬(tokens ≠ [] ∧ tokens.filter isValueToken = []) :=
            fun h ↦ Occurrence.not_counts.mpr h hcounts
          rw [if_neg (by simp [hname]), if_neg hknown, if_neg hvalid, if_pos ⟨hname, hknown, hcounts⟩]
          simp [hname, hknown, Merging.refuse, invalidSource, Occurrence.values]
        · have hinvalid : tokens ≠ [] ∧ tokens.filter isValueToken = [] :=
            Occurrence.not_counts.mp hcounts
          rw [if_neg (by simp [hname]), if_neg hknown, if_pos hinvalid,
            if_neg fun h ↦ hcounts h.2.2]
          simp [hname, hknown, Merging.refuse, invalidSource]
    · simp [hname, Merging.refuse]

theorem parse_eq (input : List Char) (refused : List Refusal) :
    parse input refused = (occurrences input).foldl parseOccurrence ⟨∅, refused⟩ := by
  rw [parse, occurrences]
  generalize (⟨∅, refused⟩ : Merging) = out
  induction input.splitOn ';' generalizing out with
  | nil => rfl
  | cons raw rest ih =>
    rw [foldl_cons, filterMap_cons, parseDirective_eq]
    rcases readOccurrence raw with _ | o
    · exact ih out
    · exact ih (parseOccurrence out o)

theorem lookup_parseOccurrence (out : Merging) (o : Occurrence) (name : Word) :
    (parseOccurrence out o).directives.lookup name =
      (out.directives.lookup name).or
        (if o.Names name ∧ o.Counts then some o.values else none) := by
  unfold parseOccurrence Occurrence.Names
  dsimp only
  split
  · rename_i h
    obtain ⟨hname, hunknown, hcounts⟩ := h
    by_cases heq : asciiLower o.written = name
    · subst heq
      rw [AList.lookup_insert, AList.lookup_eq_none.mpr hunknown, if_pos ⟨⟨hname, rfl⟩, hcounts⟩]
      rfl
    · rw [AList.lookup_insert_ne (Ne.symm heq), if_neg fun h ↦ heq h.1.2, or_none]
  · rename_i h
    by_cases hnames : (isDirectiveName o.written = true ∧ asciiLower o.written = name) ∧ o.Counts
    · obtain ⟨⟨hname, rfl⟩, hcounts⟩ := hnames
      have hknown : asciiLower o.written ∈ out.directives := by
        by_contra hunknown
        exact h ⟨hname, hunknown, hcounts⟩
      obtain ⟨sources, hlookup⟩ := isSome_iff_exists.mp (AList.lookup_isSome.mpr hknown)
      rw [hlookup, some_or]
    · rw [if_neg hnames, or_none]

theorem mem_parseOccurrence {out : Merging} {o : Occurrence} {name : Word} :
    name ∈ (parseOccurrence out o).directives ↔
      name ∈ out.directives ∨ o.Names name ∧ o.Counts := by
  rw [← AList.lookup_isSome, lookup_parseOccurrence, isSome_or, Bool.or_eq_true,
    AList.lookup_isSome]
  split <;> simp [*]

theorem refused_parseOccurrence (out : Merging) (o : Occurrence) :
    (parseOccurrence out o).refused =
      out.refused ++ o.refusals (asciiLower o.written ∈ out.directives) := rfl

theorem lookup_foldl_parseOccurrence (os : List Occurrence) (out : Merging) (name : Word) :
    (os.foldl parseOccurrence out).directives.lookup name =
      (out.directives.lookup name).or
        (((os.filter fun o ↦ o.Names name).find? fun o ↦ o.Counts).map (·.values)) := by
  induction os generalizing out with
  | nil => exact (or_none).symm
  | cons o os ih =>
    rw [foldl_cons, ih, lookup_parseOccurrence, Option.or_assoc]
    congr 1
    by_cases hnames : o.Names name
    · rw [filter_cons, if_pos (decide_eq_true hnames), List.find?_cons]
      by_cases hcounts : o.Counts <;> simp [hnames, hcounts]
    · rw [if_neg fun h ↦ hnames h.1, none_or, filter_cons, if_neg (by simpa using hnames)]

/-- **The parser keeps the sources that count.** -/
theorem lookup_parse (input : List Char) (refused : List Refusal) (name : Word) :
    (parse input refused).directives.lookup name = counted input name := by
  rw [parse_eq, lookup_foldl_parseOccurrence, AList.lookup_empty, none_or]
  rfl

/-! ## What the parser reports -/

theorem refused_parse (input : List Char) (refused : List Refusal) :
    (parse input refused).refused = refused ++ (parse input []).refused := by
  have hfold : ∀ (os : List Occurrence) (ds : Directives) (before after : List Refusal),
      (os.foldl parseOccurrence ⟨ds, before ++ after⟩).refused =
        before ++ (os.foldl parseOccurrence ⟨ds, after⟩).refused := by
    intro os
    induction os with
    | nil => exact fun _ _ _ ↦ rfl
    | cons o os ih =>
      intro ds before after
      rw [foldl_cons, foldl_cons, parseOccurrence, parseOccurrence, ← ih,
        append_assoc]
  rw [parse_eq, parse_eq]
  simpa using hfold (occurrences input) ∅ refused []

theorem mem_refusals {o : Occurrence} {known : Bool} {r : Refusal} (h : r ∈ o.refusals known) :
    r.directive = o.written ∧
      (r.source = none ∧ (isDirectiveName o.written = false ∨ r.reason = repeated) ∨
        ∃ token ∈ o.tokens, r.source = some token ∧ isValueToken token = false) := by
  unfold Occurrence.refusals at h
  split at h
  · split at h
    · rw [mem_singleton.mp h]
      exact ⟨rfl, .inl ⟨rfl, .inr rfl⟩⟩
    · obtain ⟨token, htoken, rfl⟩ := List.mem_map.mp h
      obtain ⟨hmem, hinvalid⟩ := mem_filter.mp htoken
      exact ⟨rfl, .inr ⟨token, hmem, rfl, by simpa using hinvalid⟩⟩
  · rename_i hname
    rw [mem_singleton.mp h]
    exact ⟨rfl, .inl ⟨rfl, .inl (by simpa using hname)⟩⟩

theorem exists_of_mem_refused_parse {input : List Char} {r : Refusal}
    (h : r ∈ (parse input []).refused) :
    ∃ o ∈ occurrences input, ∃ known, r ∈ o.refusals known := by
  have hfold : ∀ (os : List Occurrence) (out : Merging),
      r ∈ (os.foldl parseOccurrence out).refused →
        r ∈ out.refused ∨ ∃ o ∈ os, ∃ known, r ∈ o.refusals known := by
    intro os
    induction os with
    | nil => exact fun _ h ↦ .inl h
    | cons o os ih =>
      intro out h
      rcases ih _ h with h | ⟨p, hp, h⟩
      · rcases mem_append.mp h with h | h
        · exact .inl h
        · exact .inr ⟨o, mem_cons_self, _, h⟩
      · exact .inr ⟨p, mem_cons_of_mem o hp, h⟩
  rw [parse_eq] at h
  exact (hfold _ _ h).resolve_left not_mem_nil

theorem subset_refused_foldl (os : List Occurrence) (out : Merging) :
    out.refused ⊆ (os.foldl parseOccurrence out).refused := by
  induction os generalizing out with
  | nil => exact List.Subset.refl _
  | cons o os ih =>
    exact List.Subset.trans (subset_append_left _ _) (ih (parseOccurrence out o))

theorem refusals_subset_of_named {input : List Char} {name : Word} {o : Occurrence}
    {later : List Occurrence} (h : named input name = o :: later) :
    o.refusals false ⊆ (parse input []).refused := by
  obtain ⟨pre, post, hsplit, hpre, hnames, -⟩ := filter_eq_cons_iff.mp h
  have hname : asciiLower o.written = name := (of_decide_eq_true hnames).2
  have hunknown : asciiLower o.written ∉ (pre.foldl parseOccurrence ⟨∅, []⟩).directives := by
    rw [← AList.lookup_eq_none, lookup_foldl_parseOccurrence, AList.lookup_empty, hname,
      filter_eq_nil_iff.mpr hpre]
    rfl
  rw [parse_eq, hsplit, foldl_append, foldl_cons]
  refine List.Subset.trans ?_ (subset_refused_foldl post _)
  rw [refused_parseOccurrence, decide_eq_false hunknown]
  exact subset_append_right _ _

theorem refusals_subset_of_invalid {input : List Char} {o : Occurrence} (h : o ∈ occurrences input)
    (hname : isDirectiveName o.written = false) : o.refusals false ⊆ (parse input []).refused := by
  obtain ⟨pre, post, hsplit⟩ := append_of_mem h
  rw [parse_eq, hsplit, foldl_append, foldl_cons]
  refine List.Subset.trans ?_ (subset_refused_foldl post _)
  have hany (known : Bool) : o.refusals known = o.refusals false := by
    rw [Occurrence.refusals, Occurrence.refusals, hname, if_neg Bool.false_ne_true,
      if_neg Bool.false_ne_true]
  rw [refused_parseOccurrence, hany (decide _)]
  exact subset_append_right _ _

/-! ## Repetitions -/

def IsRepetition (name : Word) (r : Refusal) : Prop :=
  r.source = none ∧ r.reason = repeated ∧ asciiLower r.directive = name

instance (name : Word) : DecidablePred (IsRepetition name) := fun r ↦ by
  unfold IsRepetition
  infer_instance

def repetitions (name : Word) (refused : List Refusal) : ℕ :=
  refused.countP fun r ↦ IsRepetition name r

theorem repetitions_append (name : Word) (rs ss : List Refusal) :
    repetitions name (rs ++ ss) = repetitions name rs + repetitions name ss :=
  countP_append

theorem repetitions_refusals (name : Word) (o : Occurrence) (known : Bool) :
    repetitions name (o.refusals known) = if o.Names name ∧ known = true then 1 else 0 := by
  unfold Occurrence.refusals Occurrence.Names repetitions
  by_cases hname : isDirectiveName o.written = true
  · rcases known with _ | _
    · rw [if_pos hname, if_neg (by decide), if_neg (by simp), countP_eq_zero]
      intro r hr
      obtain ⟨token, -, rfl⟩ := List.mem_map.mp hr
      simp [IsRepetition]
    · by_cases heq : asciiLower o.written = name <;> simp [hname, IsRepetition, heq]
  · have hreason : "not a valid directive name" ≠ repeated := by decide
    simp [hname, IsRepetition, hreason]

def afterCounted (os : List Occurrence) : List Occurrence :=
  (os.dropWhile fun o ↦ !decide o.Counts).tail

theorem afterCounted_cons_pos {o : Occurrence} (h : o.Counts) (os : List Occurrence) :
    afterCounted (o :: os) = os := by
  rw [afterCounted, dropWhile_cons_of_neg (by simpa using h), tail_cons]

theorem afterCounted_cons_neg {o : Occurrence} (h : ¬o.Counts) (os : List Occurrence) :
    afterCounted (o :: os) = afterCounted os := by
  rw [afterCounted, dropWhile_cons_of_pos (by simpa using h), afterCounted]

theorem repetitions_parse (input : List Char) (name : Word) :
    repetitions name (parse input []).refused = (afterCounted (named input name)).length := by
  have hfold : ∀ (os : List Occurrence) (out : Merging),
      repetitions name (os.foldl parseOccurrence out).refused = repetitions name out.refused +
        if name ∈ out.directives then (os.filter fun o ↦ o.Names name).length
        else (afterCounted (os.filter fun o ↦ o.Names name)).length := by
    intro os
    induction os with
    | nil =>
      intro out
      split <;> rfl
    | cons o os ih =>
      intro out
      rw [foldl_cons, ih, refused_parseOccurrence, repetitions_append, repetitions_refusals,
        filter_cons]
      by_cases hnames : o.Names name
      · have hname : asciiLower o.written = name := hnames.2
        rw [if_pos (decide_eq_true hnames), hname]
        by_cases hknown : name ∈ out.directives
        · rw [if_pos ⟨hnames, decide_eq_true hknown⟩, if_pos hknown,
            if_pos (mem_parseOccurrence.mpr (.inl hknown)), length_cons]
          omega
        · rw [if_neg fun h ↦ hknown (of_decide_eq_true h.2), if_neg hknown]
          by_cases hcounts : o.Counts
          · rw [if_pos (mem_parseOccurrence.mpr (.inr ⟨hnames, hcounts⟩)), Nat.add_zero,
              afterCounted_cons_pos hcounts]
          · rw [if_neg fun h ↦ (mem_parseOccurrence.mp h).elim hknown fun h ↦ hcounts h.2,
              Nat.add_zero, afterCounted_cons_neg hcounts]
      · have hmem : name ∈ (parseOccurrence out o).directives ↔ name ∈ out.directives :=
          mem_parseOccurrence.trans (or_iff_left fun h ↦ hnames h.1)
        rw [if_neg fun h : o.Names name ∧ _ ↦ hnames h.1, Nat.add_zero, if_congr hmem rfl rfl,
          if_neg fun h : decide (o.Names name) = true ↦ hnames (of_decide_eq_true h)]
  rw [parse_eq, hfold, if_neg (AList.notMem_empty name)]
  exact Nat.zero_add _

end WaferRun.SecurityHeaders
