import WaferRun.Flow.Expr

/-!
# The grammar of expressions

The grammar that the parser documents, with its four levels from the loosest to the tightest
binding: disjunction, conjunction, comparison, operand. A text derives an expression at a level
(`Derives`), white space around operators and in groups being free.

The parser has no tokens, so a sentence can be cut at a wrong place only where the cut falls into
an operand. What is common to all operands is that the scanner finds nothing in them (`Silent`); a
text derived at a level is silent up to the operators of that level, and it is closed. From this
the splits of a sentence are computed: they are those of its derivation.

Completeness (`parseExpr_of_derives`) follows by induction on the derivation. Conversely, whatever
the parser accepts, it has cut at operators of the grammar, down to texts that it reads as
operands. The first and the last characters of these decide how they are read, so not all of them
are operands of the grammar: a path may hold an operator, a parenthesis or a quote, and two strings
with anything between them are read as one. An accepted text is a sentence if and only if this has
happened nowhere (`derives_iff_forall_operandTexts`).
-/

open List

namespace WaferRun

open Scanner Text

/-! ## Sentences -/

def operatorTokens : List (List Char) :=
  ["&&", "||", "==", "!=", ">=", "<=", ">", "<"].map String.toList

/-- A text in which nothing is found that could stand outside of a path: no quote, parenthesis or
operator, and no keyword between white space or the ends. -/
structure IsTidy (t : List Char) : Prop where
  plain : ∀ c ∈ t, isPlain c = true
  noOperator : ∀ token ∈ operatorTokens, ¬token <:+: t
  noKeyword : findKeyword t "in".toList = none

/-- The last word of a text is `not`. -/
def EndsInNot (t : List Char) : Prop :=
  ∃ u, t = u ++ "not".toList ∧ u.getLast?.all isAsciiWhitespace = true

inductive Level
  | operand
  | comparison
  | conjunction
  | disjunction
deriving DecidableEq, Repr

inductive Derives (J : JsonReader) : Level → List Char → Expr → Prop
  | path {t segments} (hread : parsePath t = .ok segments) (htidy : IsTidy t) (htrim : Trimmed t) :
      Derives J .operand t (.path segments)
  | string {q body value} (hq : isQuote q = true) (hbody : Sealed q body)
      (hvalue : unescapeStringLiteral body = .ok value) :
      Derives J .operand (q :: (body ++ [q])) (.literal (.string value))
  | scalar {t v} (hread : parseScalar J t = some v) (htrim : Trimmed t) :
      Derives J .operand t (.literal v)
  | group {w₁ t w₂ e} (hw₁ : Blank w₁) (hw₂ : Blank w₂) (ht : Derives J .disjunction t e) :
      Derives J .operand ('(' :: (w₁ ++ t ++ w₂ ++ [')'])) e
  | ofOperand {t e} (ht : Derives J .operand t e) : Derives J .comparison t e
  | compare {l r w₁ w₂ x y} (op : CompareOp) (hl : Derives J .operand l x)
      (hr : Derives J .operand r y) (hw₁ : Blank w₁) (hw₂ : Blank w₂)
      (hborder : op = .eq → w₁ = [] → l.getLast? ≠ some '=') :
      Derives J .comparison (l ++ (w₁ ++ op.asStr.toList ++ w₂) ++ r) (.compare x op y)
  | membership {l r w₁ w₂ x y} (op : MembershipOp) (hl : Derives J .operand l x)
      (hr : Derives J .operand r y) (hw₁ : Blank w₁) (hw₂ : Blank w₂)
      (hbefore : ∃ c ∈ w₁.getLast?, isAsciiWhitespace c = true)
      (hafter : ∃ c ∈ w₂.head?, isAsciiWhitespace c = true)
      (hborder : op = .isIn → w₁ = [' '] → ¬EndsInNot l) :
      Derives J .comparison (l ++ (w₁ ++ op.asStr.toList ++ w₂) ++ r) (.membership x op y)
  | ofComparison {t e} (ht : Derives J .comparison t e) : Derives J .conjunction t e
  | and {l r w₁ w₂ x y} (hl : Derives J .conjunction l x) (hr : Derives J .comparison r y)
      (hw₁ : Blank w₁) (hw₂ : Blank w₂) :
      Derives J .conjunction (l ++ (w₁ ++ LogicalOp.and.asStr.toList ++ w₂) ++ r)
        (.logical x .and y)
  | ofConjunction {t e} (ht : Derives J .conjunction t e) : Derives J .disjunction t e
  | or {l r w₁ w₂ x y} (hl : Derives J .disjunction l x) (hr : Derives J .conjunction r y)
      (hw₁ : Blank w₁) (hw₂ : Blank w₂) :
      Derives J .disjunction (l ++ (w₁ ++ LogicalOp.or.asStr.toList ++ w₂) ++ r)
        (.logical x .or y)

/-! ## Silence -/

/-- No keyword stands at a place the scanner looks at. -/
def Unkeyed (keyword t : List Char) : Prop := ∀ p ∈ positions t, keywordAt keyword p = false

/-- The operators and the keyword are found nowhere in the text. -/
structure Silent (t : List Char) : Prop where
  closed : Closed t
  mute : ∀ token ∈ operatorTokens, Mute token t
  unkeyed : Unkeyed "in".toList t

theorem unkeyed_iff {keyword t : List Char} : Unkeyed keyword t ↔ findKeyword t keyword = none := by
  rw [Unkeyed, findKeyword, List.find?_eq_none]
  simp

theorem IsTidy.silent {t : List Char} (h : IsTidy t) : Silent t where
  closed := closed_of_isPlain h.plain
  mute token htoken p hp hpre := by
    obtain ⟨u, c, v, rfl, rfl, -, -⟩ := eq_of_mem_positionsFrom hp
    exact h.noOperator token htoken (hpre.isInfix.trans (suffix_append u (c :: v)).isInfix)
  unkeyed := unkeyed_iff.mpr h.noKeyword

theorem silent_of_positions {t : List Char} (hclosed : Closed t)
    (h : ∀ p ∈ positions t, ∃ c s, p.2 = c :: s ∧ c ∉ ['&', '|', '=', '!', '>', '<', 'i']) :
    Silent t where
  closed := hclosed
  mute token htoken p hp hpre := by
    obtain ⟨c, s, hp2, hc⟩ := h p hp
    rw [hp2] at hpre
    have hhead : ∀ token ∈ operatorTokens, ∃ d ∈ ['&', '|', '=', '!', '>', '<', 'i'],
        token.head? = some d := by decide
    obtain ⟨d, hd, htd⟩ := hhead token htoken
    obtain ⟨rest, rfl⟩ := List.head?_eq_some_iff.mp htd
    obtain ⟨rfl, -⟩ := cons_prefix_cons.mp hpre
    exact hc hd
  unkeyed p hp := by
    obtain ⟨c, s, hp2, hc⟩ := h p hp
    have hne : ('i' == c) = false := by
      rw [beq_eq_false_iff_ne]
      rintro rfl
      exact hc (by decide)
    simp [keywordAt, hp2, List.isPrefixOf, hne]

theorem isPlain_of_isJsonChar {c : Char} : isJsonChar c = true → isPlain c = true :=
  isPlain_of_class (by decide)

theorem JsonShaped.closed {t : List Char} (h : JsonShaped t) : Closed t := by
  induction h with
  | nil => exact .nil
  | char hc _ ih => exact .plain (isPlain_of_isJsonChar hc) ih
  | string hbody _ ih => exact .string (by decide) hbody ih

theorem JsonShaped.forall_positionsFrom {t : List Char} (h : JsonShaped t) (before : List Char) :
    ∀ p ∈ positionsFrom before start t, ∃ c s, p.2 = c :: s ∧ isJsonChar c = true := by
  induction h generalizing before with
  | nil => exact fun p hp ↦ absurd hp not_mem_nil
  | @char c s hc _ ih =>
    have hplain := isPlain_of_isJsonChar hc
    intro p hp
    rw [positionsFrom, step_start hplain] at hp
    rcases mem_append.mp hp with hp | hp
    · split_ifs at hp
      · rw [mem_singleton.mp hp]
        exact ⟨c, s, rfl, hc⟩
      · exact absurd hp not_mem_nil
    · exact ih _ p hp
  | string hbody _ ih =>
    intro p hp
    rw [start, positionsFrom_string (by decide) hbody] at hp
    exact ih _ p hp

theorem JsonShaped.silent {t : List Char} (h : JsonShaped t) : Silent t := by
  refine silent_of_positions h.closed fun p hp ↦ ?_
  obtain ⟨c, s, hp2, hc⟩ := h.forall_positionsFrom [] p hp
  exact ⟨c, s, hp2, notMem_of_class (by decide) hc⟩

theorem silent_of_positions_eq_nil {t : List Char} (hclosed : Closed t) (h : positions t = []) :
    Silent t :=
  silent_of_positions hclosed fun p hp ↦ absurd hp (by rw [h]; exact not_mem_nil)

theorem silent_string {q : Char} (hq : isQuote q = true) {body : List Char}
    (hbody : Sealed q body) : Silent (q :: (body ++ [q])) :=
  silent_of_positions_eq_nil (.string hq hbody .nil) (positions_string hq hbody)

theorem silent_group {u : List Char} (h : Closed u) : Silent ('(' :: (u ++ [')'])) :=
  silent_of_positions_eq_nil (.group h .nil) h.positions_group

theorem isPlain_of_isWhiteSpace {c : Char} : isWhiteSpace c = true → isPlain c = true :=
  isPlain_of_class (by decide)

theorem closed_of_blank {w : List Char} (h : Blank w) : Closed w :=
  closed_of_isPlain fun c hc ↦ isPlain_of_isWhiteSpace (h c hc)

/-! ## What is common to the texts of a level -/

/-- The ends of an expression: no white space, and no character that continues an operator. -/
structure Delimited (t : List Char) : Prop where
  trimmed : Trimmed t
  head : ∃ c s, t = c :: s ∧ c ∉ ['=', '&', '|']

theorem Delimited.ne_nil {t : List Char} (h : Delimited t) : t ≠ [] := by
  obtain ⟨c, s, rfl, -⟩ := h.head
  exact cons_ne_nil c s

theorem Delimited.append {l r : List Char} (hl : Delimited l) (hr : Delimited r) (m : List Char) :
    Delimited (l ++ m ++ r) := by
  refine ⟨hl.trimmed.append hr.trimmed hl.ne_nil hr.ne_nil, ?_⟩
  obtain ⟨c, s, rfl, hc⟩ := hl.head
  exact ⟨c, s ++ m ++ r, rfl, hc⟩

/-- A token of two characters is not found in an operator, nor does the operator complete it. -/
def Apart (a b : Char) (op : List Char) : Prop :=
  isWhiteSpace a = false ∧ isWhiteSpace b = false ∧ (∀ c ∈ op, isPlain c = true) ∧ op ≠ [] ∧
    op.head? ≠ some b ∧ Mute [a, b] op

instance (a b : Char) (op : List Char) : Decidable (Apart a b op) :=
  inferInstanceAs (Decidable (_ ∧ _))

section Across

variable {l r w₁ w₂ op : List Char} (hw₁ : Blank w₁) (hw₂ : Blank w₂)
include hw₁ hw₂

theorem closed_gap (hop : ∀ c ∈ op, isPlain c = true) : Closed (w₁ ++ op ++ w₂) :=
  ((closed_of_blank hw₁).append (closed_of_isPlain hop)).append (closed_of_blank hw₂)

variable {a b : Char}

theorem mute_gap (h : Apart a b op) : Mute [a, b] (w₁ ++ op ++ w₂) := by
  obtain ⟨ha, hb, hop, -, -, hmute⟩ := h
  have hnot : ∀ {w : List Char} {c : Char}, Blank w → isWhiteSpace c = false → c ∉ w :=
    fun hw hc hmem ↦ absurd (hw _ hmem) (by rw [hc]; exact Bool.false_ne_true)
  have hleft : Closed (w₁ ++ op) := (closed_of_blank hw₁).append (closed_of_isPlain hop)
  refine Mute.append_pair hleft.balanced ?_ (mute_of_notMem (hnot hw₂ ha)) fun _ hhead ↦ ?_
  · refine Mute.append_pair (closed_of_blank hw₁).balanced (mute_of_notMem (hnot hw₁ ha)) hmute
      fun hlast _ ↦ ?_
    exact hnot hw₁ ha (List.mem_of_getLast? hlast)
  · exact hnot hw₂ hb (List.mem_of_head? hhead)

theorem mute_across (h : Apart a b op) (hl : Closed l) (hml : Mute [a, b] l)
    (hmr : Mute [a, b] r) (hr : r.head? ≠ some b) : Mute [a, b] (l ++ (w₁ ++ op ++ w₂) ++ r) := by
  obtain ⟨-, hb, hop, hop0, hhead, -⟩ := id h
  have hgap : Closed (w₁ ++ op ++ w₂) := closed_gap hw₁ hw₂ hop
  refine Mute.append_pair (hl.append hgap).balanced ?_ hmr fun _ ↦ hr
  refine Mute.append_pair hl.balanced hml (mute_gap hw₁ hw₂ h) fun _ hfirst ↦ ?_
  -- the gap starts with white space or with the operator
  cases w₁ with
  | nil => exact hhead (by rwa [nil_append, List.head?_append_of_ne_nil _ hop0] at hfirst)
  | cons c w =>
    obtain rfl := Option.some.inj hfirst
    exact absurd (hw₁ c mem_cons_self) (by rw [hb]; exact Bool.false_ne_true)

end Across

/-- What a text has in common with every other text of its level. -/
structure Level.Fits (level : Level) (t : List Char) : Prop where
  closed : Closed t
  delimited : Delimited t
  silent : level = .operand → Silent t
  muteAnd : level = .operand ∨ level = .comparison → Mute ['&', '&'] t
  muteOr : level ≠ .disjunction → Mute ['|', '|'] t

theorem CompareOp.apart (op : CompareOp) :
    Apart '&' '&' op.asStr.toList ∧ Apart '|' '|' op.asStr.toList := by
  cases op <;> decide

theorem MembershipOp.apart (op : MembershipOp) :
    Apart '&' '&' op.asStr.toList ∧ Apart '|' '|' op.asStr.toList := by
  cases op <;> decide

theorem fits_operand {t : List Char} (hsilent : Silent t) (ht : Delimited t) :
    Level.operand.Fits t where
  closed := hsilent.closed
  delimited := ht
  silent _ := hsilent
  muteAnd _ := hsilent.mute ['&', '&'] (by decide)
  muteOr _ := hsilent.mute ['|', '|'] (by decide)

theorem Delimited.head_ne {t : List Char} (h : Delimited t) {b : Char}
    (hb : b ∈ ['=', '&', '|']) : t.head? ≠ some b := by
  obtain ⟨c, s, rfl, hc⟩ := h.head
  rintro hhead
  obtain rfl := Option.some.inj hhead
  exact hc hb

section Fits

variable {l r w₁ w₂ op : List Char} (hw₁ : Blank w₁) (hw₂ : Blank w₂)
include hw₁ hw₂

theorem closed_across (hl : Closed l) (hr : Closed r) (hop : ∀ c ∈ op, isPlain c = true) :
    Closed (l ++ (w₁ ++ op ++ w₂) ++ r) :=
  (hl.append (closed_gap hw₁ hw₂ hop)).append hr

theorem fits_comparison (hl : Level.operand.Fits l) (hr : Level.operand.Fits r)
    (hop : Apart '&' '&' op ∧ Apart '|' '|' op) :
    Level.comparison.Fits (l ++ (w₁ ++ op ++ w₂) ++ r) where
  closed := closed_across hw₁ hw₂ hl.closed hr.closed hop.1.2.2.1
  delimited := hl.delimited.append hr.delimited _
  silent h := by simp at h
  muteAnd _ :=
    mute_across hw₁ hw₂ hop.1 hl.closed (hl.muteAnd (by simp)) (hr.muteAnd (by simp))
      (hr.delimited.head_ne (by decide))
  muteOr _ :=
    mute_across hw₁ hw₂ hop.2 hl.closed (hl.muteOr (by simp)) (hr.muteOr (by simp))
      (hr.delimited.head_ne (by decide))

theorem fits_conjunction (hl : Level.conjunction.Fits l) (hr : Level.comparison.Fits r) :
    Level.conjunction.Fits (l ++ (w₁ ++ LogicalOp.and.asStr.toList ++ w₂) ++ r) where
  closed := closed_across hw₁ hw₂ hl.closed hr.closed (by decide)
  delimited := hl.delimited.append hr.delimited _
  silent h := by simp at h
  muteAnd h := by simp at h
  muteOr _ :=
    mute_across hw₁ hw₂ (by decide) hl.closed (hl.muteOr (by simp)) (hr.muteOr (by simp))
      (hr.delimited.head_ne (by decide))

theorem fits_disjunction (hl : Level.disjunction.Fits l) (hr : Level.conjunction.Fits r) :
    Level.disjunction.Fits (l ++ (w₁ ++ LogicalOp.or.asStr.toList ++ w₂) ++ r) where
  closed := closed_across hw₁ hw₂ hl.closed hr.closed (by decide)
  delimited := hl.delimited.append hr.delimited _
  silent h := by simp at h
  muteAnd h := by simp at h
  muteOr h := by simp at h

end Fits

theorem prefix_of_parsePath {t : List Char} {segments : List String}
    (h : parsePath t = .ok segments) : ∃ s, t = '$' :: '.' :: s := by
  rw [parsePath] at h
  split at h
  · exact absurd h (by simp)
  · rename_i hpre
    rw [not_not, isPrefixOf_iff_prefix] at hpre
    obtain ⟨s, hs⟩ := hpre
    exact ⟨s, hs.symm⟩

theorem trimmed_enclosed {c d : Char} (hc : isWhiteSpace c = false) (hd : isWhiteSpace d = false)
    (u : List Char) : Trimmed (c :: (u ++ [d])) := by
  constructor
  · intro e he
    rwa [← Option.some.inj he]
  · intro e he
    rw [← cons_append, List.getLast?_concat] at he
    rwa [← Option.some.inj he]

theorem fits_of_derives {J : JsonReader} {level : Level} {t : List Char} {e : Expr}
    (h : Derives J level t e) : level.Fits t := by
  induction h with
  | path hread htidy htrim =>
    obtain ⟨s, rfl⟩ := prefix_of_parsePath hread
    exact fits_operand htidy.silent ⟨htrim, '$', _, rfl, by decide⟩
  | @string q body value hq hbody _ =>
    have hspace : isWhiteSpace q = false := by
      rcases eq_of_isQuote hq with rfl | rfl <;> decide
    exact fits_operand (silent_string hq hbody)
      ⟨trimmed_enclosed hspace hspace body, q, _, rfl, notMem_of_class (by decide) hq⟩
  | scalar hread htrim =>
    obtain ⟨hshaped, c, s, rfl, hc⟩ := shaped_of_parseScalar hread
    exact fits_operand hshaped.silent ⟨htrim, c, s, rfl, notMem_of_class (by decide) hc⟩
  | @group w₁ t w₂ e hw₁ hw₂ _ ih =>
    have hclosed : Closed (w₁ ++ t ++ w₂) :=
      ((closed_of_blank hw₁).append ih.closed).append (closed_of_blank hw₂)
    exact fits_operand (silent_group hclosed)
      ⟨trimmed_enclosed (by decide) (by decide) _, '(', _, rfl, by decide⟩
  | ofOperand _ ih => exact ⟨ih.closed, ih.delimited, by simp, fun _ ↦ ih.muteAnd (by simp),
      fun _ ↦ ih.muteOr (by simp)⟩
  | compare op _ _ hw₁ hw₂ _ ihl ihr => exact fits_comparison hw₁ hw₂ ihl ihr op.apart
  | membership op _ _ hw₁ hw₂ _ _ _ ihl ihr => exact fits_comparison hw₁ hw₂ ihl ihr op.apart
  | ofComparison _ ih => exact ⟨ih.closed, ih.delimited, by simp, by simp,
      fun _ ↦ ih.muteOr (by simp)⟩
  | and _ _ hw₁ hw₂ ihl ihr => exact fits_conjunction hw₁ hw₂ ihl ihr
  | ofConjunction _ ih => exact ⟨ih.closed, ih.delimited, by simp, by simp, by simp⟩
  | or _ _ hw₁ hw₂ ihl ihr => exact fits_disjunction hw₁ hw₂ ihl ihr

/-! ## Operand texts

Where the parser stops splitting, it reads what is left by its first and last characters. -/

section OperandTexts

variable (f : List Char → List (List Char))

/-- The operand texts of an atom; `f` gives those of the expression in a group. -/
def atomTexts (s : List Char) : List (List Char) :=
  match stripOuterParens (trim s) with
  | some inner => f inner
  | none => [trim s]

def operandTextsStep (s : List Char) : List (List Char) :=
  match logicalSplit (trim s) with
  | some (p, op) => f (leftOperand p) ++ f (rightOperand p op.asStr)
  | none =>
    match comparisonSplit (trim s) with
    | some (p, op) => atomTexts f (leftOperand p) ++ atomTexts f (rightOperand p op.asStr)
    | none =>
      match membershipSplit (trim s) with
      | some (p, op) => atomTexts f (leftOperand p) ++ atomTexts f (rightOperand p op.asStr)
      | none => atomTexts f (trim s)

end OperandTexts

def operandTexts (s : List Char) : List (List Char) := recurse operandTextsStep [] s

/-- A text that its first and last characters describe rightly: a path is tidy, and a string ends at
the first quote that could end it. -/
structure IsFaithful (t : List Char) : Prop where
  path : "$.".toList.isPrefixOf t = true → IsTidy t
  string : isQuoted t = true → Sealed (t.headD '"') t.tail.dropLast

theorem operandTextsStep_asksShorter : AsksShorter operandTextsStep := by
  intro f g s h
  have hlt : ∀ t, t.length < (trim s).length → f t = g t :=
    fun t ht ↦ h t (ht.trans_le (length_trim_le s))
  have hatom : ∀ t, t.length ≤ (trim s).length → atomTexts f t = atomTexts g t := by
    intro t ht
    rw [atomTexts, atomTexts]
    split
    · rename_i inner hinner
      exact hlt inner ((length_of_stripOuterParens hinner).trans_le ((length_trim_le t).trans ht))
    · rfl
  rw [operandTextsStep, operandTextsStep]
  split
  · rename_i p op hsplit
    have hp := mem_positions_of_logicalSplit hsplit
    rw [hlt _ (length_leftOperand_lt hp), hlt _ (length_rightOperand_lt hp op.asStr_ne_nil)]
  split
  · rename_i p op hsplit
    have hp := List.mem_of_find?_eq_some (findOperator_of_comparisonSplit hsplit)
    rw [hatom _ (length_leftOperand_lt hp).le,
      hatom _ (length_rightOperand_lt hp op.asStr_ne_nil).le]
  split
  · rename_i p op hsplit
    have hp := List.mem_of_find?_eq_some (findKeyword_of_membershipSplit hsplit)
    rw [hatom _ (length_leftOperand_lt hp).le,
      hatom _ (length_rightOperand_lt hp op.asStr_ne_nil).le]
  · exact hatom _ le_rfl

theorem operandTexts_eq (s : List Char) : operandTexts s = operandTextsStep operandTexts s :=
  operandTextsStep_asksShorter.recurse_eq _ s

section Equation

variable {s : List Char} (hs : Trimmed s)
include hs

theorem operandTexts_of_logicalSplit {p : List Char × List Char} {op : LogicalOp}
    (h : logicalSplit s = some (p, op)) :
    operandTexts s = operandTexts (leftOperand p) ++ operandTexts (rightOperand p op.asStr) := by
  rw [operandTexts_eq, operandTextsStep, hs.trim_eq, h]

variable (hlogical : logicalSplit s = none)
include hlogical

theorem operandTexts_of_comparisonSplit {p : List Char × List Char} {op : CompareOp}
    (h : comparisonSplit s = some (p, op)) :
    operandTexts s = atomTexts operandTexts (leftOperand p) ++
      atomTexts operandTexts (rightOperand p op.asStr) := by
  rw [operandTexts_eq, operandTextsStep, hs.trim_eq, hlogical, h]

variable (hcomparison : comparisonSplit s = none)
include hcomparison

theorem operandTexts_of_membershipSplit {p : List Char × List Char} {op : MembershipOp}
    (h : membershipSplit s = some (p, op)) :
    operandTexts s = atomTexts operandTexts (leftOperand p) ++
      atomTexts operandTexts (rightOperand p op.asStr) := by
  rw [operandTexts_eq, operandTextsStep, hs.trim_eq, hlogical, hcomparison, h]

theorem operandTexts_of_no_split (h : membershipSplit s = none) :
    operandTexts s = atomTexts operandTexts s := by
  rw [operandTexts_eq, operandTextsStep, hs.trim_eq, hlogical, hcomparison, h]

end Equation

end WaferRun
