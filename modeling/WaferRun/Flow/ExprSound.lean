import WaferRun.Flow.ExprComplete

/-!
# What the expression parser accepts

An accepted text was cut at operators down to the operand texts. If these are faithful the text is a
sentence, with the expression that was read as its derivation tree. The induction is on the length
of the text, since every text read on the way is shorter.

That a cut is one of the grammar follows from which hit the scanner took. The last `||` leaves none
to its right, so what stands there is a conjunction; a text with an `&&` to cut at has no `||`. The
first `==` does not follow another `=`, and an `in` that is cut at is not part of a `not in`.
-/

open List

namespace WaferRun

open Scanner Text

variable {p : List Char × List Char} {token : String} {l r w₁ w₂ : List Char}

/-! ## Cutting a text -/

section Cut

variable {t u m v : List Char}

theorem exists_blank_of_trim_left (ht : Trimmed (u ++ v)) :
    ∃ w, Blank w ∧ u = trim u ++ w := by
  obtain ⟨w₁, w₂, hw₁, hw₂, hu⟩ := exists_eq_append_trim u
  cases w₁ with
  | nil => exact ⟨w₂, hw₂, by rwa [nil_append] at hu⟩
  | cons c w =>
    have hc : isWhiteSpace c = false := ht.1 c (by rw [hu]; rfl)
    exact absurd (hw₁ c mem_cons_self) (by rw [hc]; exact Bool.false_ne_true)

theorem exists_blank_of_trim_right (ht : Trimmed (u ++ v)) :
    ∃ w, Blank w ∧ v = w ++ trim v := by
  obtain ⟨w₁, w₂, hw₁, hw₂, hv⟩ := exists_eq_append_trim v
  rcases eq_nil_or_concat w₂ with rfl | ⟨w, c, rfl⟩
  · exact ⟨w₁, hw₁, by rwa [append_nil] at hv⟩
  · rw [concat_eq_append] at hv hw₂
    have hlast : (u ++ v).getLast? = some c := by
      rw [hv, ← append_assoc, ← append_assoc, List.getLast?_concat]
    have hc : isWhiteSpace c = false := ht.2 c hlast
    exact absurd (hw₂ c (by simp)) (by rw [hc]; exact Bool.false_ne_true)

structure Cut (t : List Char) (p : List Char × List Char) (token : String)
    (l w₁ w₂ r : List Char) : Prop where
  text : t = l ++ (w₁ ++ token.toList ++ w₂) ++ r
  place : p = ((l ++ w₁).reverse, token.toList ++ (w₂ ++ r))
  left : leftOperand p = l
  right : rightOperand p token = r
  balanced : Balanced (l ++ w₁)
  blank_left : Blank w₁
  blank_right : Blank w₂
  trimmed_left : Trimmed l
  trimmed_right : Trimmed r
  left_ne_nil : l ≠ []
  right_ne_nil : r ≠ []

theorem exists_cut (ht : Trimmed t) (hp : p ∈ positions t) (htoken : token.toList <+: p.2)
    (hl : leftOperand p ≠ []) (hr : rightOperand p token ≠ []) :
    ∃ l w₁ w₂ r, Cut t p token l w₁ w₂ r := by
  obtain ⟨u, c, v, rfl, rfl, hu, -⟩ := exists_of_mem_positions hp
  obtain ⟨v', hv⟩ := htoken
  change token.toList ++ v' = c :: v at hv
  rw [leftOperand, reverse_reverse] at hl
  rw [rightOperand, ← hv, drop_left] at hr
  obtain ⟨w₁, hw₁, hu'⟩ := exists_blank_of_trim_left ht
  rw [← hv, ← append_assoc] at ht
  obtain ⟨w₂, hw₂, hv'⟩ := exists_blank_of_trim_right ht
  refine ⟨trim u, w₁, w₂, trim v', ⟨?_, ?_, ?_, ?_, ?_, hw₁, hw₂, trimmed_trim u, trimmed_trim v', hl,
    hr⟩⟩
  · rw [across_eq, ← hu', ← hv', hv]
  · rw [← hu', ← hv', hv]
  · rw [leftOperand, reverse_reverse]
  · rw [rightOperand, ← hv, drop_left]
  · rwa [← hu']

theorem exists_of_readOperands {read : List Char → Except ExprError Expr} {missing : String}
    {mk : Expr → Expr → Expr} {e : Expr} (h : readOperands read p token missing mk = .ok e) :
    leftOperand p ≠ [] ∧ rightOperand p token ≠ [] ∧ ∃ x y, read (leftOperand p) = .ok x ∧
      read (rightOperand p token) = .ok y ∧ e = mk x y := by
  rw [readOperands] at h
  split at h
  · exact absurd h (by simp)
  · rename_i hne
    rw [not_or] at hne
    refine ⟨hne.1, hne.2, ?_⟩
    cases hx : read (leftOperand p) with
    | error err => rw [hx] at h; exact absurd h (by simp [Except.bind])
    | ok x =>
      cases hy : read (rightOperand p token) with
      | error err => rw [hx, hy] at h; exact absurd h (by simp [Except.bind, Except.map])
      | ok y =>
        rw [hx, hy] at h
        exact ⟨x, y, rfl, rfl, (Except.ok.inj h).symm⟩

end Cut

/-! ## Levels -/

theorem not_mute_across {a b : Char} (ha : isPlain a = true) (h : Balanced (l ++ w₁)) :
    ¬Mute [a, b] (l ++ (w₁ ++ [a, b] ++ w₂) ++ r) := by
  intro hmute
  have hmem := mem_positionsFrom (v := b :: (w₂ ++ r)) h ha
  rw [append_nil] at hmem
  rw [across_eq] at hmute
  exact hmute _ hmem ⟨w₂ ++ r, rfl⟩

theorem Derives.conjunction_of_mute {J : JsonReader} {t : List Char} {e : Expr}
    (h : Derives J .disjunction t e) (hmute : Mute ['|', '|'] t) : Derives J .conjunction t e := by
  cases h with
  | ofConjunction h => exact h
  | or hl hr hw₁ hw₂ =>
    have hbefore := ((fits_of_derives hl).closed.append (closed_of_blank hw₁)).balanced
    exact absurd hmute (not_mute_across (by decide) hbefore)

theorem Derives.comparison_of_mute {J : JsonReader} {t : List Char} {e : Expr}
    (h : Derives J .conjunction t e) (hmute : Mute ['&', '&'] t) : Derives J .comparison t e := by
  cases h with
  | ofComparison h => exact h
  | and hl hr hw₁ hw₂ =>
    have hbefore := ((fits_of_derives hl).closed.append (closed_of_blank hw₁)).balanced
    exact absurd hmute (not_mute_across (by decide) hbefore)

/-! ## Reading an atom -/

section Atom

variable {J : JsonReader} {t : List Char} {e : Expr}

theorem eq_of_stripOuterParens {inner : List Char} (h : stripOuterParens t = some inner) :
    ∃ u, t = '(' :: (u ++ [')']) ∧ inner = trim u := by
  rw [stripOuterParens] at h
  split at h
  · rename_i hs
    obtain ⟨hhead, hlast, -⟩ := hs
    obtain ⟨s, rfl⟩ := List.head?_eq_some_iff.mp hhead
    obtain ⟨u, hu⟩ := List.getLast?_eq_some_iff.mp hlast
    cases u with
    | nil => exact absurd (cons.inj hu).1 (by decide)
    | cons c u =>
      obtain ⟨rfl, rfl⟩ := cons.inj hu
      refine ⟨u, rfl, ?_⟩
      rw [← Option.some.inj h]
      simp
  · exact absurd h (by simp)

theorem eq_of_isQuoted (h : isQuoted t = true) :
    ∃ q body, isQuote q = true ∧ t = q :: (body ++ [q]) := by
  simp only [isQuoted, Bool.and_eq_true, Bool.or_eq_true, decide_eq_true_eq] at h
  obtain ⟨hlen, hends⟩ := h
  have hbody : ∀ q, t.head? = some q → t.getLast? = some q → ∃ body, t = q :: (body ++ [q]) := by
    intro q hhead hlast
    obtain ⟨s, rfl⟩ := List.head?_eq_some_iff.mp hhead
    obtain ⟨u, hu⟩ := List.getLast?_eq_some_iff.mp hlast
    cases u with
    | nil =>
      rw [hu] at hlen
      exact absurd hlen (by simp)
    | cons c u =>
      obtain ⟨rfl, rfl⟩ := cons.inj hu
      exact ⟨u, rfl⟩
  rcases hends with ⟨hhead, hlast⟩ | ⟨hhead, hlast⟩
  · obtain ⟨body, hbody⟩ := hbody '"' hhead hlast
    exact ⟨'"', body, by decide, hbody⟩
  · obtain ⟨body, hbody⟩ := hbody '\'' hhead hlast
    exact ⟨'\'', body, by decide, hbody⟩

theorem derives_of_parseAtom (ht : Trimmed t) (h : parseAtom J (parseExpr J) t = .ok e)
    (hfaithful : ∀ u ∈ atomTexts operandTexts t, IsFaithful u)
    (ih : ∀ inner e, inner.length < t.length → Trimmed inner → parseExpr J inner = .ok e →
      (∀ u ∈ operandTexts inner, IsFaithful u) → Derives J .disjunction inner e) :
    Derives J .operand t e := by
  simp only [parseAtom, ht.trim_eq] at h
  simp only [atomTexts, ht.trim_eq] at hfaithful
  split at h
  · -- a group
    rename_i inner hstrip
    rw [hstrip] at hfaithful
    split at h
    · exact absurd h (by simp)
    obtain ⟨u, rfl, rfl⟩ := eq_of_stripOuterParens hstrip
    obtain ⟨w₁, w₂, hw₁, hw₂, hu⟩ := exists_eq_append_trim u
    have hinner := ih _ e (length_of_stripOuterParens hstrip) (trimmed_trim u) h hfaithful
    rw [hu]
    exact .group hw₁ hw₂ hinner
  · rename_i hstrip
    rw [hstrip] at hfaithful
    have hself := hfaithful t (mem_singleton.mpr rfl)
    split at h
    · -- a path
      rename_i hstarts
      cases hread : parsePath t with
      | error err =>
        rw [hread] at h
        exact absurd h (by simp [Except.map])
      | ok segments =>
        rw [hread] at h
        obtain rfl := Except.ok.inj h
        exact .path hread (hself.path hstarts) ht
    split at h
    · -- a string
      rename_i hquoted
      obtain ⟨q, body, hq, rfl⟩ := eq_of_isQuoted hquoted
      have hbody := hself.string hquoted
      rw [tail_cons, dropLast_concat] at h hbody
      cases hvalue : unescapeStringLiteral body with
      | error err =>
        rw [hvalue] at h
        exact absurd h (by simp [Except.map])
      | ok value =>
        rw [hvalue] at h
        obtain rfl := Except.ok.inj h
        exact .string hq hbody hvalue
    · -- another literal
      split at h
      · rename_i v hread
        obtain rfl := Except.ok.inj h
        exact .scalar hread ht
      · exact absurd h (by simp)

end Atom

/-! ## The borders of a cut -/

theorem getLast?_ne_of_findOperator {v : List Char} (hl : Balanced l)
    (h : findOperator (l ++ (['=', '='] ++ v)) ['=', '='] = some (l.reverse, ['=', '='] ++ v)) :
    l.getLast? ≠ some '=' := by
  intro hlast
  obtain ⟨u, rfl⟩ := List.getLast?_eq_some_iff.mp hlast
  have hu : Balanced u := after_eq_start_of_concat (by decide) hl
  have hbefore := hl.before_of_find? h
  have hmem := mem_positionsFrom (v := []) hu (by decide : isPlain '=' = true)
  rw [append_nil] at hmem
  have hno := hbefore _ hmem
  exact absurd hno (by simp [operatorAt])

theorem isWhiteSpace_of_isAsciiWhitespace {c : Char} (h : isAsciiWhitespace c = true) :
    isWhiteSpace c = true := by
  have hall : ∀ c ∈ [' ', '\t', '\n', '\x0c', '\r'], isWhiteSpace c = true := by decide
  exact hall c (by simpa [isAsciiWhitespace] using h)

theorem Cut.ascii {t : List Char} (hcut : Cut t p token l w₁ w₂ r)
    (h : keywordAt token.toList p = true) :
    (∃ c ∈ w₁.getLast?, isAsciiWhitespace c = true) ∧
      ∃ c ∈ w₂.head?, isAsciiWhitespace c = true := by
  rw [hcut.place] at h
  simp only [keywordAt, Bool.and_eq_true, List.head?_reverse, drop_left] at h
  obtain ⟨⟨-, hbefore⟩, hafter⟩ := h
  -- an operand neither starts nor ends with white space
  constructor
  · rcases eq_nil_or_concat w₁ with rfl | ⟨w, c, rfl⟩
    · obtain ⟨u, c, hl⟩ := (eq_nil_or_concat l).resolve_left hcut.left_ne_nil
      rw [concat_eq_append] at hl
      rw [append_nil, hl, List.getLast?_concat] at hbefore
      have hc := hcut.trimmed_left.2 c (by rw [hl, List.getLast?_concat]; rfl)
      rw [isWhiteSpace_of_isAsciiWhitespace hbefore] at hc
      exact absurd hc (by decide)
    · rw [concat_eq_append] at hbefore ⊢
      rw [← append_assoc, List.getLast?_concat] at hbefore
      exact ⟨c, by rw [List.getLast?_concat]; rfl, hbefore⟩
  · cases w₂ with
    | nil =>
      obtain ⟨c, s, rfl⟩ := exists_cons_of_ne_nil hcut.right_ne_nil
      have hc := hcut.trimmed_right.1 c rfl
      rw [isWhiteSpace_of_isAsciiWhitespace hafter] at hc
      exact absurd hc (by decide)
    | cons c w => exact ⟨c, rfl, hafter⟩

theorem Cut.not_endsInNot {t : List Char} (hcut : Cut t p "in" l w₁ w₂ r)
    (hafter : ∃ c ∈ w₂.head?, isAsciiWhitespace c = true)
    (hnone : findKeyword t "not in".toList = none) (hw₁ : w₁ = [' ']) : ¬EndsInNot l := by
  rintro ⟨u, rfl, hu⟩
  subst hw₁
  have hbalanced : Balanced u := by
    have h := hcut.balanced
    have hsplit : u ++ "not".toList ++ [' '] = (((u ++ ['n']) ++ ['o']) ++ ['t']) ++ [' '] := by
      simp only [append_assoc]
      rfl
    rw [hsplit] at h
    exact after_eq_start_of_concat (by decide) (after_eq_start_of_concat (by decide)
      (after_eq_start_of_concat (by decide) (after_eq_start_of_concat (by decide) h)))
  obtain ⟨c, hc, hspace⟩ := hafter
  obtain ⟨w, rfl⟩ := List.head?_eq_some_iff.mp (Option.mem_def.mp hc)
  have htext : t = u ++ 'n' :: (['o', 't', ' ', 'i', 'n'] ++ c :: (w ++ r)) := by
    rw [hcut.text]
    simp only [append_assoc]
    rfl
  have hmem := mem_positionsFrom (v := ['o', 't', ' ', 'i', 'n'] ++ c :: (w ++ r)) hbalanced
    (by decide : isPlain 'n' = true)
  rw [append_nil] at hmem
  rw [htext] at hnone
  have hno := unkeyed_iff.mpr hnone _ hmem
  rw [← Bool.not_eq_true] at hno
  refine hno ?_
  simp only [keywordAt, Bool.and_eq_true, isPrefixOf_iff_prefix, List.head?_reverse]
  exact ⟨⟨⟨c :: (w ++ r), rfl⟩, hu⟩, hspace⟩

theorem mute_of_findLast_eq_none {t token : List Char} (h : findLast t token = none) :
    Mute token t := by
  intro p hp
  rw [← isPrefixOf_iff_prefix]
  exact List.find?_eq_none.mp h p (mem_reverse.mpr hp)

theorem Cut.mute_right {t : List Char} {a : Char} (hcut : Cut t p token l w₁ w₂ r)
    (htoken : token.toList = [a, a]) (ha : isPlain a = true)
    (h : findLast t token.toList = some p) : Mute [a, a] r := by
  have htext := hcut.text
  have hplace := hcut.place
  rw [across_eq] at htext
  rw [htoken] at h htext hplace
  rw [findLast, htext, hplace] at h
  have hafter := hcut.balanced.after_of_find?_reverse ha h
  have hmute : Mute [a, a] (([a] ++ w₂) ++ r) := by
    intro q hq
    rw [← isPrefixOf_iff_prefix, hafter q hq]
    exact Bool.false_ne_true
  have hbalanced : Balanced ([a] ++ w₂) :=
    ((closed_of_isPlain (by simpa using ha)).append (closed_of_blank hcut.blank_right)).balanced
  exact hmute.of_append_right hbalanced

/-! ## Soundness -/

theorem Cut.length_lt {t : List Char} (hcut : Cut t p token l w₁ w₂ r) :
    l.length < t.length ∧ r.length < t.length := by
  have hl := length_pos_iff.mpr hcut.left_ne_nil
  have hr := length_pos_iff.mpr hcut.right_ne_nil
  rw [hcut.text]
  simp only [length_append]
  omega

section Sound

variable {J : JsonReader} {t : List Char} {e : Expr} (ht : Trimmed t) (h0 : t ≠ [])
  (h : parseExpr J t = .ok e) (hfaithful : ∀ u ∈ operandTexts t, IsFaithful u)
  (ih : ∀ t' e', t'.length < t.length → Trimmed t' → parseExpr J t' = .ok e' →
    (∀ u ∈ operandTexts t', IsFaithful u) → Derives J .disjunction t' e')
include ht h0 h hfaithful ih

theorem derives_of_logicalSplit {op : LogicalOp} (hsplit : logicalSplit t = some (p, op)) :
    Derives J .disjunction t e := by
  rw [parseExpr_of_logicalSplit J ht h0 hsplit] at h
  obtain ⟨hl0, hr0, x, y, hx, hy, rfl⟩ := exists_of_readOperands h
  rw [operandTexts_of_logicalSplit ht hsplit] at hfaithful
  have hlast : findLast t op.asStr.toList = some p ∧ (op = .and → Mute ['|', '|'] t) := by
    rw [logicalSplit] at hsplit
    split at hsplit
    · rename_i hor
      obtain ⟨rfl, rfl⟩ := Prod.mk.inj (Option.some.inj hsplit)
      exact ⟨hor, by simp⟩
    · rename_i hor hand
      obtain ⟨rfl, rfl⟩ := Prod.mk.inj (Option.some.inj hsplit)
      exact ⟨hand, fun _ ↦ mute_of_findLast_eq_none hor⟩
    · exact absurd hsplit (by simp)
  obtain ⟨hlast, hmute⟩ := hlast
  have htoken := List.find?_some hlast
  rw [List.isPrefixOf_iff_prefix] at htoken
  obtain ⟨l, w₁, w₂, r, hcut⟩ :=
    exists_cut ht (mem_positions_of_logicalSplit hsplit) htoken hl0 hr0
  rw [hcut.left] at hx hfaithful
  rw [hcut.right] at hy hfaithful
  have hdl := ih l x hcut.length_lt.1 hcut.trimmed_left hx
    fun u hu ↦ hfaithful u (mem_append_left _ hu)
  have hdr := ih r y hcut.length_lt.2 hcut.trimmed_right hy
    fun u hu ↦ hfaithful u (mem_append_right _ hu)
  have htext := hcut.text
  cases op with
  | or =>
    -- no `||` stands to the right of the last one
    have hmr := hcut.mute_right (a := '|') rfl (by decide) hlast
    rw [htext]
    exact .or hdl (hdr.conjunction_of_mute hmr) hcut.blank_left hcut.blank_right
  | and =>
    have hmt := hmute rfl
    rw [htext] at hmt
    have hbefore : Balanced (l ++ (w₁ ++ LogicalOp.and.asStr.toList ++ w₂)) := by
      have hgap : Closed (LogicalOp.and.asStr.toList ++ w₂) :=
        (closed_of_isPlain (by decide)).append (closed_of_blank hcut.blank_right)
      have hsplit := hcut.balanced.append hgap.balanced
      rwa [append_assoc, ← append_assoc w₁] at hsplit
    have hml : Mute ['|', '|'] l := by
      rw [append_assoc] at hmt
      exact hmt.of_append_left
    have hmr : Mute ['|', '|'] r := hmt.of_append_right hbefore
    have hand := hcut.mute_right (a := '&') rfl (by decide) hlast
    rw [htext]
    exact .ofConjunction (.and (hdl.conjunction_of_mute hml)
      ((hdr.conjunction_of_mute hmr).comparison_of_mute hand) hcut.blank_left hcut.blank_right)

variable (hlogical : logicalSplit t = none)
include hlogical

theorem derives_of_comparisonSplit {op : CompareOp} (hsplit : comparisonSplit t = some (p, op)) :
    Derives J .comparison t e := by
  rw [parseExpr_of_comparisonSplit J ht h0 hlogical hsplit] at h
  obtain ⟨hl0, hr0, x, y, hx, hy, rfl⟩ := exists_of_readOperands h
  rw [operandTexts_of_comparisonSplit ht hlogical hsplit] at hfaithful
  have hfind := findOperator_of_comparisonSplit hsplit
  have htoken : op.asStr.toList <+: p.2 := by
    have hat := List.find?_some hfind
    simp only [operatorAt, Bool.and_eq_true, isPrefixOf_iff_prefix] at hat
    exact hat.1.1
  obtain ⟨l, w₁, w₂, r, hcut⟩ :=
    exists_cut ht (List.mem_of_find?_eq_some hfind) htoken hl0 hr0
  rw [hcut.left] at hx hfaithful
  rw [hcut.right] at hy hfaithful
  have hdl := derives_of_parseAtom hcut.trimmed_left hx
    (fun u hu ↦ hfaithful u (mem_append_left _ hu))
    fun t' e' hlen ↦ ih t' e' (hlen.trans hcut.length_lt.1)
  have hdr := derives_of_parseAtom hcut.trimmed_right hy
    (fun u hu ↦ hfaithful u (mem_append_right _ hu))
    fun t' e' hlen ↦ ih t' e' (hlen.trans hcut.length_lt.2)
  have htext := hcut.text
  have hborder : op = .eq → w₁ = [] → l.getLast? ≠ some '=' := by
    rintro rfl rfl
    have hplace := hcut.place
    have hbalanced := hcut.balanced
    rw [across_eq] at htext
    rw [append_nil] at htext hplace hbalanced
    rw [htext, hplace] at hfind
    exact getLast?_ne_of_findOperator hbalanced hfind
  rw [htext]
  exact .compare op hdl hdr hcut.blank_left hcut.blank_right hborder

variable (hcomparison : comparisonSplit t = none)
include hcomparison

theorem derives_of_membershipSplit {op : MembershipOp} (hsplit : membershipSplit t = some (p, op)) :
    Derives J .comparison t e := by
  rw [parseExpr_of_membershipSplit J ht h0 hlogical hcomparison hsplit] at h
  obtain ⟨hl0, hr0, x, y, hx, hy, rfl⟩ := exists_of_readOperands h
  rw [operandTexts_of_membershipSplit ht hlogical hcomparison hsplit] at hfaithful
  have hfind := findKeyword_of_membershipSplit hsplit
  have hat := List.find?_some hfind
  have htoken : op.asStr.toList <+: p.2 := by
    simp only [keywordAt, Bool.and_eq_true, isPrefixOf_iff_prefix] at hat
    exact hat.1.1
  obtain ⟨l, w₁, w₂, r, hcut⟩ :=
    exists_cut ht (List.mem_of_find?_eq_some hfind) htoken hl0 hr0
  obtain ⟨hbefore, hafter⟩ := hcut.ascii hat
  rw [hcut.left] at hx hfaithful
  rw [hcut.right] at hy hfaithful
  have hdl := derives_of_parseAtom hcut.trimmed_left hx
    (fun u hu ↦ hfaithful u (mem_append_left _ hu))
    fun t' e' hlen ↦ ih t' e' (hlen.trans hcut.length_lt.1)
  have hdr := derives_of_parseAtom hcut.trimmed_right hy
    (fun u hu ↦ hfaithful u (mem_append_right _ hu))
    fun t' e' hlen ↦ ih t' e' (hlen.trans hcut.length_lt.2)
  have hborder : op = .isIn → w₁ = [' '] → ¬EndsInNot l := by
    rintro rfl
    rw [membershipSplit] at hsplit
    split at hsplit
    · exact absurd (Prod.mk.inj (Option.some.inj hsplit)).2 (by simp)
    · rename_i hnone
      exact hcut.not_endsInNot hafter hnone
  have htext := hcut.text
  rw [htext]
  exact .membership op hdl hdr hcut.blank_left hcut.blank_right hbefore hafter hborder

end Sound

theorem derives_of_parseExpr {J : JsonReader} {t : List Char} {e : Expr} (ht : Trimmed t)
    (h : parseExpr J t = .ok e) (hfaithful : ∀ u ∈ operandTexts t, IsFaithful u) :
    Derives J .disjunction t e := by
  obtain ⟨n, hn⟩ : ∃ n, t.length = n := ⟨_, rfl⟩
  induction n using Nat.strong_induction_on generalizing t e with
  | _ n ih =>
    have ih' : ∀ t' e', t'.length < t.length → Trimmed t' → parseExpr J t' = .ok e' →
        (∀ u ∈ operandTexts t', IsFaithful u) → Derives J .disjunction t' e' :=
      fun t' e' hlen ht' h' hfaithful' ↦ ih t'.length (hn ▸ hlen) ht' h' hfaithful' rfl
    have h0 : t ≠ [] := by
      rintro rfl
      rw [parseExpr_eq] at h
      exact absurd h (by simp [parseStep, ht.trim_eq])
    rcases hlogical : logicalSplit t with _ | ⟨p, op⟩
    · rcases hcomparison : comparisonSplit t with _ | ⟨p, op⟩
      · rcases hmembership : membershipSplit t with _ | ⟨p, op⟩
        · rw [parseExpr_of_no_split J ht h0 hlogical hcomparison hmembership] at h
          rw [operandTexts_of_no_split ht hlogical hcomparison hmembership] at hfaithful
          have hatom := derives_of_parseAtom ht h hfaithful ih'
          exact .ofConjunction (.ofComparison (.ofOperand hatom))
        · have hd := derives_of_membershipSplit ht h0 h hfaithful ih' hlogical hcomparison
            hmembership
          exact .ofConjunction (.ofComparison hd)
      · have hd := derives_of_comparisonSplit ht h0 h hfaithful ih' hlogical hcomparison
        exact .ofConjunction (.ofComparison hd)
    · exact derives_of_logicalSplit ht h0 h hfaithful ih' hlogical

theorem operandTexts_trim (s : List Char) : operandTexts (trim s) = operandTexts s := by
  rw [operandTexts_eq, operandTexts_eq s, operandTextsStep, operandTextsStep,
    (trimmed_trim s).trim_eq]

/-- An accepted text is a sentence with closed strings and groups, and the expression read is its
derivation tree, if and only if its operand texts are faithful. -/
theorem derives_iff_forall_operandTexts (J : JsonReader) {s : List Char} {e : Expr}
    (h : parseExpr J s = .ok e) :
    (Derives J .disjunction (trim s) e ∧ Closed (trim s)) ↔
      ∀ t ∈ operandTexts s, IsFaithful t := by
  rw [← parseExpr_trim] at h
  rw [← operandTexts_trim]
  constructor
  · rintro ⟨hderives, -⟩
    exact (reads_of_derives hderives).1.2
  · intro hfaithful
    have hderives := derives_of_parseExpr (trimmed_trim s) h hfaithful
    exact ⟨hderives, (fits_of_derives hderives).closed⟩

theorem derives_iff_forall_operandTexts_conjunction :
    (Derives .empty .disjunction (trim "$.a == 'x' && ($.b || true)".toList)
        (.logical (.compare (.path ["a"]) .eq (.literal (.string "x"))) .and
          (.logical (.path ["b"]) .or (.literal (.bool true)))) ∧
        Closed (trim "$.a == 'x' && ($.b || true)".toList)) ↔
      ∀ t ∈ operandTexts "$.a == 'x' && ($.b || true)".toList, IsFaithful t :=
  derives_iff_forall_operandTexts .empty (by rfl)

/-- A second comparison becomes part of a path. -/
theorem chainedComparison_accepted :
    parseExpr .empty "$.a == $.b == 1".toList =
        .ok (.compare (.path ["a"]) .eq (.path ["b == 1"])) ∧
      ¬Derives .empty .disjunction (trim "$.a == $.b == 1".toList)
        (.compare (.path ["a"]) .eq (.path ["b == 1"])) := by
  refine ⟨by rfl, fun h ↦ ?_⟩
  have hmem : "$.b == 1".toList ∈ operandTexts (trim "$.a == $.b == 1".toList) := by decide
  have hfaithful := (reads_of_derives h).1.2 _ hmem
  have htidy := hfaithful.path (by decide)
  exact htidy.noOperator "==".toList (by decide) (by decide)

end WaferRun
