import WaferRun.Flow.ExprGrammar

/-!
# Completeness of the expression parser

The parser reads every sentence of the grammar as its derivation says. At each level the split that
the parser finds is that of the derivation: the operands are silent, the white space around the
operator is silent, and across the borders nothing is completed, so the scanner can only hit the
operator itself.

The exceptions to the last point are in the grammar. A path may end in `=`, which then belongs to
an `==` right after it, and in the word `not`, which then belongs to an `in` one blank after it.
-/

open List

namespace WaferRun

open Scanner Text

variable {keyword op t : List Char} {a : Char} {e : Expr}

/-! ## The operands of a split -/

section Split

variable {l r w₁ w₂ : List Char}

theorem across_eq (op : List Char) :
    l ++ (w₁ ++ op ++ w₂) ++ r = (l ++ w₁) ++ (op ++ (w₂ ++ r)) := by
  simp only [append_assoc]

theorem leftOperand_across (hl : Trimmed l) (hw₁ : Blank w₁) (v : List Char) :
    leftOperand ((l ++ w₁).reverse, v) = l := by
  rw [leftOperand, reverse_reverse, trim_append_blank hw₁, hl.trim_eq]

theorem rightOperand_across (hr : Trimmed r) (hw₂ : Blank w₂) (u : List Char) (token : String) :
    rightOperand (u, token.toList ++ (w₂ ++ r)) token = r := by
  rw [rightOperand, drop_left, trim_blank_append hw₂, hr.trim_eq]

/-! ## Logical operators -/

theorem findLast_eq_none {token : List Char} (h : Mute token t) : findLast t token = none := by
  rw [findLast, List.find?_eq_none]
  intro p hp
  rw [ isPrefixOf_iff_prefix]
  exact h p (mem_reverse.mp hp)

theorem logicalSplit_eq_none (hand : Mute ['&', '&'] t) (hor : Mute ['|', '|'] t) :
    logicalSplit t = none := by
  have hlastAnd : findLast t LogicalOp.and.asStr.toList = none := findLast_eq_none hand
  have hlastOr : findLast t LogicalOp.or.asStr.toList = none := findLast_eq_none hor
  rw [logicalSplit, hlastOr, hlastAnd]

theorem findLast_across (ha : isPlain a = true) (haw : isWhiteSpace a = false) (hl : Closed l)
    (hw₁ : Blank w₁) (hw₂ : Blank w₂) (hmr : Mute [a, a] r) (hr : r.head? ≠ some a) :
    findLast (l ++ (w₁ ++ [a, a] ++ w₂) ++ r) [a, a] =
      some ((l ++ w₁).reverse, [a, a] ++ (w₂ ++ r)) := by
  have hnot : ∀ {w : List Char}, Blank w → a ∉ w :=
    fun hw hmem ↦ absurd (hw a hmem) (by rw [haw]; exact Bool.false_ne_true)
  have hbefore : Balanced (l ++ w₁) := (hl.append (closed_of_blank hw₁)).balanced
  have hgap : Mute [a, a] (w₂ ++ r) := by
    refine Mute.append_pair (closed_of_blank hw₂).balanced (mute_of_notMem (hnot hw₂)) hmr
      fun _ ↦ hr
  have hrest : Mute [a, a] ([a] ++ (w₂ ++ r)) := by
    have hone : Mute [a, a] [a] := by
      intro p hp hpre
      obtain ⟨u, c, v, hu, rfl, -, -⟩ := eq_of_mem_positionsFrom hp
      have hlen := congrArg List.length hu
      have hle := hpre.length_le
      simp only [length_append, length_cons, length_nil] at hlen hle
      omega
    refine Mute.append_pair (closed_of_isPlain (by simpa using ha)).balanced hone hgap
      fun _ hhead ↦ ?_
    cases w₂ with
    | nil => exact hr hhead
    | cons c w => exact hnot hw₂ (mem_cons.mpr (.inl (Option.some.inj hhead).symm))
  rw [across_eq, findLast]
  refine hbefore.find?_reverse_positions ha (by simp) fun p hp ↦ ?_
  rw [← Bool.not_eq_true, isPrefixOf_iff_prefix]
  exact hrest p hp

theorem logicalSplit_or (hl : Level.disjunction.Fits l) (hr : Level.conjunction.Fits r)
    (hw₁ : Blank w₁) (hw₂ : Blank w₂) :
    logicalSplit (l ++ (w₁ ++ LogicalOp.or.asStr.toList ++ w₂) ++ r) =
      some (((l ++ w₁).reverse, LogicalOp.or.asStr.toList ++ (w₂ ++ r)), .or) := by
  have hlast : findLast (l ++ (w₁ ++ LogicalOp.or.asStr.toList ++ w₂) ++ r)
      LogicalOp.or.asStr.toList = some ((l ++ w₁).reverse, LogicalOp.or.asStr.toList ++ (w₂ ++ r)) :=
    findLast_across (a := '|') (by decide) (by decide) hl.closed hw₁ hw₂ (hr.muteOr (by simp))
      (hr.delimited.head_ne (by decide))
  rw [logicalSplit, hlast]

theorem logicalSplit_and (hl : Level.conjunction.Fits l) (hr : Level.comparison.Fits r)
    (hw₁ : Blank w₁) (hw₂ : Blank w₂) :
    logicalSplit (l ++ (w₁ ++ LogicalOp.and.asStr.toList ++ w₂) ++ r) =
      some (((l ++ w₁).reverse, LogicalOp.and.asStr.toList ++ (w₂ ++ r)), .and) := by
  have hlast : findLast (l ++ (w₁ ++ LogicalOp.and.asStr.toList ++ w₂) ++ r)
      LogicalOp.and.asStr.toList =
        some ((l ++ w₁).reverse, LogicalOp.and.asStr.toList ++ (w₂ ++ r)) :=
    findLast_across (a := '&') (by decide) (by decide) hl.closed hw₁ hw₂ (hr.muteAnd (by simp))
      (hr.delimited.head_ne (by decide))
  have hnone : findLast (l ++ (w₁ ++ LogicalOp.and.asStr.toList ++ w₂) ++ r)
      LogicalOp.or.asStr.toList = none :=
    findLast_eq_none ((fits_conjunction hw₁ hw₂ hl hr).muteOr (by simp))
  rw [logicalSplit, hnone, hlast]

/-! ## Comparison operators -/

/-- A comparison operator is not found in a text with another operator. -/
def CompareOp.Passes (sought : CompareOp) (op : List Char) : Prop :=
  match sought with
  | .eq => Apart '=' '=' op
  | .ne => Apart '!' '=' op
  | .ge => Apart '>' '=' op
  | .le => Apart '<' '=' op
  | .gt => '>' ∉ op ∧ ∀ c ∈ op, isPlain c = true
  | .lt => '<' ∉ op ∧ ∀ c ∈ op, isPlain c = true

instance (sought : CompareOp) (op : List Char) : Decidable (sought.Passes op) := by
  cases sought <;> unfold CompareOp.Passes <;> infer_instance

theorem mem_operatorTokens (op : CompareOp) : op.asStr.toList ∈ operatorTokens := by
  cases op <;> decide

theorem mute_singleton_across (haw : isWhiteSpace a = false)
    (h : a ∉ op ∧ ∀ c ∈ op, isPlain c = true) (hl : Closed l) (hml : Mute [a] l) (hmr : Mute [a] r)
    (hw₁ : Blank w₁) (hw₂ : Blank w₂) : Mute [a] (l ++ (w₁ ++ op ++ w₂) ++ r) := by
  have hgap : Closed (w₁ ++ op ++ w₂) := closed_gap hw₁ hw₂ h.2
  have hnot : a ∉ w₁ ++ op ++ w₂ := by
    intro hmem
    rcases mem_append.mp hmem with hmem | hmem
    · rcases mem_append.mp hmem with hmem | hmem
      · exact absurd (hw₁ a hmem) (by rw [haw]; exact Bool.false_ne_true)
      · exact h.1 hmem
    · exact absurd (hw₂ a hmem) (by rw [haw]; exact Bool.false_ne_true)
  exact Mute.append_singleton (hl.append hgap).balanced
    (Mute.append_singleton hl.balanced hml (mute_of_notMem hnot)) hmr

theorem mute_of_passes {sought : CompareOp} (h : sought.Passes op) (hl : Silent l) (hr : Silent r)
    (hrd : Delimited r) (hw₁ : Blank w₁) (hw₂ : Blank w₂) :
    Mute sought.asStr.toList (l ++ (w₁ ++ op ++ w₂) ++ r) := by
  have hml := hl.mute _ (mem_operatorTokens sought)
  have hmr := hr.mute _ (mem_operatorTokens sought)
  have heq : r.head? ≠ some '=' := hrd.head_ne (by decide)
  cases sought with
  | eq => exact mute_across hw₁ hw₂ h hl.closed hml hmr heq
  | ne => exact mute_across hw₁ hw₂ h hl.closed hml hmr heq
  | ge => exact mute_across hw₁ hw₂ h hl.closed hml hmr heq
  | le => exact mute_across hw₁ hw₂ h hl.closed hml hmr heq
  | gt => exact mute_singleton_across (by decide) h hl.closed hml hmr hw₁ hw₂
  | lt => exact mute_singleton_across (by decide) h hl.closed hml hmr hw₁ hw₂

theorem operatorAt_eq_false {p : List Char × List Char} (h : ¬op <+: p.2) :
    operatorAt op p = false := by
  rw [← isPrefixOf_iff_prefix, Bool.not_eq_true] at h
  rw [operatorAt, h, Bool.false_and, Bool.false_and]

theorem findOperator_eq_none (h : Mute op t) : findOperator t op = none := by
  rw [findOperator, List.find?_eq_none]
  exact fun p hp ↦ by rw [operatorAt_eq_false (h p hp)]; exact Bool.false_ne_true

theorem comparisonSplit_eq_none (h : ∀ op : CompareOp, Mute op.asStr.toList t) :
    comparisonSplit t = none := by
  rw [comparisonSplit, List.findSome?_eq_none_iff]
  exact fun op _ ↦ by rw [findOperator_eq_none (h op), Option.map_none]

/-- The comparison operators that are looked for before an operator. -/
def CompareOp.earlier (op : CompareOp) : List CompareOp := comparisonOps.takeWhile (· ≠ op)

theorem CompareOp.comparisonOps_eq (op : CompareOp) :
    ∃ later, comparisonOps = op.earlier ++ op :: later := by
  cases op
  all_goals exact ⟨_, rfl⟩

theorem CompareOp.earlier_passes (op : CompareOp) :
    ∀ sought ∈ op.earlier, sought.Passes op.asStr.toList := by
  cases op <;> decide

theorem operatorAt_append (op : CompareOp) (u : List Char) {v : List Char}
    (hv : v.head? ≠ some '=') : operatorAt op.asStr.toList (u, op.asStr.toList ++ v) = true := by
  cases op <;> simp [operatorAt, CompareOp.asStr, hv]

theorem mute_append_blank {token w : List Char} (htoken : ∀ c ∈ token, isWhiteSpace c = false)
    (h0 : token ≠ []) (hl : Closed l) (hml : Mute token l) (hw : Blank w) :
    Mute token (l ++ w) := by
  have hnot : ∀ c ∈ token, c ∉ w :=
    fun c hc hmem ↦ absurd (hw c hmem) (by rw [htoken c hc]; exact Bool.false_ne_true)
  refine hl.balanced.forall_positions_append.mpr ⟨hml.not_isPrefix_append ?_, ?_⟩
  · rintro x y - rfl - ⟨z, rfl⟩
    by_contra hy
    obtain ⟨c, y, rfl⟩ := exists_cons_of_ne_nil hy
    exact hnot c (by simp) (by simp)
  · obtain ⟨c, token, rfl⟩ := exists_cons_of_ne_nil h0
    exact mute_of_notMem (hnot c mem_cons_self)

theorem getLast?_append_blank_ne (haw : isWhiteSpace a = false) (hw₁ : Blank w₁)
    (h : w₁ = [] → l.getLast? ≠ some a) : (l ++ w₁).getLast? ≠ some a := by
  intro hlast
  rcases eq_nil_or_concat w₁ with rfl | ⟨w, c, rfl⟩
  · exact h rfl (by rwa [append_nil] at hlast)
  · rw [concat_eq_append] at hlast hw₁
    rw [← append_assoc, List.getLast?_concat] at hlast
    obtain rfl := Option.some.inj hlast
    exact absurd (hw₁ c (by simp)) (by rw [haw]; exact Bool.false_ne_true)

theorem head?_blank_append_ne (haw : isWhiteSpace a = false) (hw₂ : Blank w₂)
    (h : r.head? ≠ some a) : (w₂ ++ r).head? ≠ some a := by
  cases w₂ with
  | nil => exact h
  | cons c w =>
    intro hhead
    obtain rfl := Option.some.inj hhead
    exact absurd (hw₂ c mem_cons_self) (by rw [haw]; exact Bool.false_ne_true)

theorem operatorAt_before (op : CompareOp) (hl : Silent l) (hw₁ : Blank w₁)
    (hborder : op = .eq → w₁ = [] → l.getLast? ≠ some '=') (v : List Char) :
    ∀ p ∈ positions (l ++ w₁),
      operatorAt op.asStr.toList (p.1, p.2 ++ (op.asStr.toList ++ v)) = false := by
  have htoken : ∀ c ∈ op.asStr.toList, isWhiteSpace c = false := by cases op <;> decide
  have hmute := mute_append_blank htoken op.asStr_ne_nil hl.closed
    (hl.mute _ (mem_operatorTokens op)) hw₁
  refine fun p hp ↦ operatorAt_eq_false ?_
  revert p hp
  cases op with
  | eq =>
    -- the one operator of which a character before it may be the first
    have hlast := getLast?_append_blank_ne (a := '=') (by decide) hw₁ (hborder rfl)
    exact hmute.not_pair_isPrefix fun h ↦ absurd h hlast
  | ne =>
    exact Mute.not_pair_isPrefix (a := '!') (b := '=') hmute
      fun _ ↦ (by decide : some '!' ≠ some '=')
  | ge =>
    exact Mute.not_pair_isPrefix (a := '>') (b := '=') hmute
      fun _ ↦ (by decide : some '>' ≠ some '=')
  | le =>
    exact Mute.not_pair_isPrefix (a := '<') (b := '=') hmute
      fun _ ↦ (by decide : some '<' ≠ some '=')
  | gt => exact hmute.not_singleton_isPrefix _
  | lt => exact hmute.not_singleton_isPrefix _

theorem findOperator_across (op : CompareOp) (hl : Silent l) (hrd : Delimited r)
    (hw₁ : Blank w₁) (hw₂ : Blank w₂) (hborder : op = .eq → w₁ = [] → l.getLast? ≠ some '=') :
    findOperator (l ++ (w₁ ++ op.asStr.toList ++ w₂) ++ r) op.asStr.toList =
      some ((l ++ w₁).reverse, op.asStr.toList ++ (w₂ ++ r)) := by
  have hbalanced : Balanced (l ++ w₁) := (hl.closed.append (closed_of_blank hw₁)).balanced
  have hhit := operatorAt_append op (l ++ w₁).reverse
    (head?_blank_append_ne (by decide) hw₂ (hrd.head_ne (by decide)))
  have hbefore := operatorAt_before op hl hw₁ hborder (w₂ ++ r)
  obtain ⟨c, token, htoken⟩ := exists_cons_of_ne_nil op.asStr_ne_nil
  have hc : isPlain c = true := by
    have hplain := op.apart.1.2.2.1
    rw [htoken] at hplain
    exact hplain c mem_cons_self
  rw [across_eq, findOperator]
  rw [htoken] at hhit hbefore ⊢
  exact hbalanced.find?_positions hc hhit hbefore

theorem comparisonSplit_across (op : CompareOp) (hl : Silent l) (hr : Silent r)
    (hrd : Delimited r) (hw₁ : Blank w₁) (hw₂ : Blank w₂)
    (hborder : op = .eq → w₁ = [] → l.getLast? ≠ some '=') :
    comparisonSplit (l ++ (w₁ ++ op.asStr.toList ++ w₂) ++ r) =
      some (((l ++ w₁).reverse, op.asStr.toList ++ (w₂ ++ r)), op) := by
  obtain ⟨later, hops⟩ := op.comparisonOps_eq
  rw [comparisonSplit, List.findSome?_eq_some_iff]
  refine ⟨op.earlier, op, later, hops, ?_, fun sought hsought ↦ ?_⟩
  · rw [findOperator_across op hl hrd hw₁ hw₂ hborder, Option.map_some]
  · rw [findOperator_eq_none
      (mute_of_passes (op.earlier_passes sought hsought) hl hr hrd hw₁ hw₂), Option.map_none]

/-! ## Keywords -/

theorem keywordAt_eq_false {p : List Char × List Char} (h : ¬keyword <+: p.2) :
    keywordAt keyword p = false := by
  rw [← isPrefixOf_iff_prefix, Bool.not_eq_true] at h
  rw [keywordAt, h, Bool.false_and, Bool.false_and]

theorem keywordAt_append_before {u v : List Char} (h : keywordAt keyword (u, v) = false)
    (before : List Char) : keywordAt keyword (u ++ before, v) = false := by
  cases u with
  | nil =>
    rw [← Bool.not_eq_true] at h ⊢
    refine fun htrue ↦ h ?_
    simp only [keywordAt, Bool.and_eq_true] at htrue ⊢
    exact ⟨⟨htrue.1.1, rfl⟩, htrue.2⟩
  | cons c u => exact h

/-- White space after a text completes a keyword in it only where the keyword itself has white
space. -/
theorem tail_of_keywordAt {z : List Char} {b : Char} (hl : Unkeyed keyword l)
    (hb : isWhiteSpace b = true) {p : List Char × List Char} (hp : p ∈ positions l)
    (h : keywordAt keyword (p.1, p.2 ++ b :: z) = true) :
    ∃ y ∈ keyword.tails, y.head?.any isWhiteSpace = true ∧ keyword = p.2 ++ y ∧ y <+: b :: z ∧
      p.1.head?.all isAsciiWhitespace = true := by
  simp only [keywordAt, Bool.and_eq_true, isPrefixOf_iff_prefix] at h
  obtain ⟨⟨hpre, hbefore⟩, hafter⟩ := h
  have hout : ¬keyword <+: p.2 := by
    rintro ⟨y, hy⟩
    have hno := hl p hp
    rw [← Bool.not_eq_true] at hno
    refine hno ?_
    rw [← hy, append_assoc, drop_left] at hafter
    simp only [keywordAt, Bool.and_eq_true, isPrefixOf_iff_prefix]
    refine ⟨⟨⟨y, hy⟩, hbefore⟩, ?_⟩
    rw [← hy, drop_left]
    cases y with
    | nil => rfl
    | cons c y => exact hafter
  rcases prefix_or_prefix_of_prefix hpre (prefix_append p.2 (b :: z)) with hin | ⟨y, hy⟩
  · exact absurd hin hout
  · rw [← hy, prefix_append_right_inj] at hpre
    refine ⟨y, (mem_tails y keyword).mpr ⟨p.2, hy⟩, ?_, hy.symm, hpre, hbefore⟩
    cases y with
    | nil => exact absurd ⟨[], by rw [append_nil, ← hy, append_nil]⟩ hout
    | cons c y =>
      obtain ⟨rfl, -⟩ := cons_prefix_cons.mp hpre
      simpa using hb

theorem keywordAt_in_append {b : Char} (hl : Unkeyed ['i', 'n'] l) (hb : isWhiteSpace b = true)
    (z : List Char) :
    ∀ p ∈ positions l, keywordAt ['i', 'n'] (p.1, p.2 ++ b :: z) = false := by
  intro p hp
  rw [← Bool.not_eq_true]
  intro h
  obtain ⟨y, hy, hspace, -⟩ := tail_of_keywordAt hl hb hp h
  have hnone : ∀ y ∈ ['i', 'n'].tails, ¬y.head?.any isWhiteSpace = true := by decide
  exact hnone y hy hspace

/-- `not in` is completed after a text only if the text ends in `not` and one blank and `in`
follow. -/
theorem keywordAt_notIn_append {b : Char} {z : List Char}
    (hl : Unkeyed ['n', 'o', 't', ' ', 'i', 'n'] l) (hb : isWhiteSpace b = true)
    (h : EndsInNot l → b = ' ' → ¬['i', 'n'] <+: z) :
    ∀ p ∈ positions l, keywordAt ['n', 'o', 't', ' ', 'i', 'n'] (p.1, p.2 ++ b :: z) = false := by
  intro p hp
  rw [← Bool.not_eq_true]
  intro htrue
  obtain ⟨y, hy, hspace, hsplit, hpre, hbefore⟩ := tail_of_keywordAt hl hb hp htrue
  have hone : ∀ y ∈ ['n', 'o', 't', ' ', 'i', 'n'].tails, y.head?.any isWhiteSpace = true →
      y = [' ', 'i', 'n'] := by decide
  obtain rfl := hone y hy hspace
  have hsplit' : ['n', 'o', 't'] ++ [' ', 'i', 'n'] = p.2 ++ [' ', 'i', 'n'] := hsplit
  have hnot : ['n', 'o', 't'] = p.2 := append_cancel_right hsplit'
  obtain ⟨rfl, hz⟩ := cons_prefix_cons.mp hpre
  obtain ⟨u, c, v, hu, rfl, -, -⟩ := eq_of_mem_positionsFrom hp
  refine h ⟨u, ?_, ?_⟩ rfl hz
  · exact hu.trans (congrArg (u ++ ·) hnot.symm)
  · rwa [append_nil, List.head?_reverse] at hbefore

theorem keywordAt_blank {w : List Char} (hw : Blank w)
    (hhead : keyword.head?.any isWhiteSpace = false) (h0 : keyword ≠ []) (v : List Char) :
    ∀ p ∈ positions w, keywordAt keyword (p.1, p.2 ++ v) = false := by
  intro p hp
  obtain ⟨c, keyword, rfl⟩ := exists_cons_of_ne_nil h0
  obtain ⟨x, d, y, rfl, rfl, -, -⟩ := eq_of_mem_positionsFrom hp
  refine keywordAt_eq_false fun hpre ↦ ?_
  obtain ⟨rfl, -⟩ := cons_prefix_cons.mp hpre
  have hc : isWhiteSpace c = true := hw c (by simp)
  exact absurd hhead (by simp [hc])

theorem Unkeyed.blank_append {w : List Char} (hw : Blank w)
    (hhead : keyword.head?.any isWhiteSpace = false) (h0 : keyword ≠ []) (h : Unkeyed keyword r) :
    Unkeyed keyword (w ++ r) :=
  (closed_of_blank hw).balanced.forall_positions_append.mpr
    ⟨keywordAt_blank hw hhead h0 r, fun p hp ↦ keywordAt_append_before (h p hp) _⟩

theorem Unkeyed.notIn (h : Unkeyed ['i', 'n'] t) : Unkeyed ['n', 'o', 't', ' ', 'i', 'n'] t := by
  intro p hp
  obtain ⟨u, c, v, rfl, rfl, hu, -⟩ := eq_of_mem_positionsFrom hp
  rw [← Bool.not_eq_true]
  intro htrue
  simp only [keywordAt, Bool.and_eq_true, isPrefixOf_iff_prefix] at htrue
  obtain ⟨⟨⟨y, hy⟩, -⟩, hafter⟩ := htrue
  rw [← hy] at hafter h
  -- the scanner reads over `not` and the blank to the keyword
  have hplain : ∀ c ∈ ['n', 'o', 't', ' '], isPlain c = true := by decide
  have hbefore : Balanced (u ++ ['n', 'o', 't', ' ']) :=
    Balanced.append hu (closed_of_isPlain hplain).balanced
  have hmem := mem_positionsFrom (v := 'n' :: y) hbefore (by decide : isPlain 'i' = true)
  rw [append_nil, append_assoc] at hmem
  have hno := h _ hmem
  rw [← Bool.not_eq_true] at hno
  refine hno ?_
  simp only [keywordAt, Bool.and_eq_true, isPrefixOf_iff_prefix]
  refine ⟨⟨⟨y, rfl⟩, ?_⟩, ?_⟩
  · rw [reverse_append]
    rfl
  · exact hafter

/-- A keyword that is not found where a text goes on with white space is not found in the white
space either. -/
theorem keywordAt_before {y : List Char} (hl : Closed l) (hw₁ : Blank w₁)
    (hhead : keyword.head?.any isWhiteSpace = false) (h0 : keyword ≠ [])
    (h : ∀ p ∈ positions l, keywordAt keyword (p.1, p.2 ++ (w₁ ++ y)) = false) :
    ∀ p ∈ positions (l ++ w₁), keywordAt keyword (p.1, p.2 ++ y) = false := by
  refine hl.balanced.forall_positions_append.mpr ⟨fun p hp ↦ ?_, fun p hp ↦ ?_⟩
  · rw [append_assoc]
    exact h p hp
  · exact keywordAt_append_before (keywordAt_blank hw₁ hhead h0 y p hp) _

theorem keywordAt_place (op : MembershipOp) (hbefore : ∃ c ∈ w₁.getLast?, isAsciiWhitespace c = true)
    (hafter : ∃ c ∈ w₂.head?, isAsciiWhitespace c = true) :
    keywordAt op.asStr.toList ((l ++ w₁).reverse, op.asStr.toList ++ (w₂ ++ r)) = true := by
  obtain ⟨c, hc, hspace⟩ := hbefore
  obtain ⟨d, hd, hspace'⟩ := hafter
  have hlast : (l ++ w₁).getLast? = some c := by
    rw [List.getLast?_append, Option.mem_def.mp hc, Option.some_or]
  have hhead : (w₂ ++ r).head? = some d := by
    rw [List.head?_append, Option.mem_def.mp hd, Option.some_or]
  simp only [keywordAt, Bool.and_eq_true, isPrefixOf_iff_prefix, List.head?_reverse,
    drop_left, hlast, hhead]
  exact ⟨⟨prefix_append _ _, hspace⟩, hspace'⟩

theorem exists_cons_of_blank (hw₁ : Blank w₁)
    (hbefore : ∃ c ∈ w₁.getLast?, isAsciiWhitespace c = true) :
    ∃ b w, w₁ = b :: w ∧ isWhiteSpace b = true ∧ Blank w := by
  obtain ⟨c, hc, -⟩ := hbefore
  obtain ⟨b, w, rfl⟩ := exists_cons_of_ne_nil (l := w₁) (by rintro rfl; simp at hc)
  exact ⟨b, w, rfl, hw₁ b mem_cons_self, fun d hd ↦ hw₁ d (mem_cons_of_mem b hd)⟩

section Membership

variable (hl : Silent l) (hr : Silent r) (hw₁ : Blank w₁) (hw₂ : Blank w₂)
  (hbefore : ∃ c ∈ w₁.getLast?, isAsciiWhitespace c = true)
  (hafter : ∃ c ∈ w₂.head?, isAsciiWhitespace c = true)
include hl hw₁ hbefore

theorem keywordAt_in_before (y : List Char) :
    ∀ p ∈ positions (l ++ w₁), keywordAt ['i', 'n'] (p.1, p.2 ++ y) = false := by
  refine keywordAt_before hl.closed hw₁ (by decide) (by decide) ?_
  obtain ⟨b, w, rfl, hb, -⟩ := exists_cons_of_blank hw₁ hbefore
  exact keywordAt_in_append hl.unkeyed hb _

theorem keywordAt_notIn_before {y : List Char} (h : EndsInNot l → w₁ = [' '] → ¬['i', 'n'] <+: y) :
    ∀ p ∈ positions (l ++ w₁),
      keywordAt ['n', 'o', 't', ' ', 'i', 'n'] (p.1, p.2 ++ y) = false := by
  refine keywordAt_before hl.closed hw₁ (by decide) (by decide) ?_
  obtain ⟨b, w, rfl, hb, hw⟩ := exists_cons_of_blank hw₁ hbefore
  refine keywordAt_notIn_append (Unkeyed.notIn hl.unkeyed) hb fun hends hspace hpre ↦ ?_
  -- `in` cannot start in further white space
  cases w with
  | nil => exact h hends (by rw [hspace]) hpre
  | cons d w =>
    obtain ⟨rfl, -⟩ := cons_prefix_cons.mp hpre
    exact absurd (hw 'i' mem_cons_self) (by decide)

theorem findKeyword_notIn_across (hafter : ∃ c ∈ w₂.head?, isAsciiWhitespace c = true) :
    findKeyword (l ++ (w₁ ++ MembershipOp.notIn.asStr.toList ++ w₂) ++ r)
      MembershipOp.notIn.asStr.toList =
        some ((l ++ w₁).reverse, MembershipOp.notIn.asStr.toList ++ (w₂ ++ r)) := by
  have hbalanced : Balanced (l ++ w₁) := (hl.closed.append (closed_of_blank hw₁)).balanced
  rw [across_eq, findKeyword]
  refine hbalanced.find?_positions (c := 'n') (by decide) (keywordAt_place .notIn hbefore hafter) ?_
  refine keywordAt_notIn_before hl hw₁ hbefore fun _ _ hpre ↦ ?_
  exact absurd (cons_prefix_cons.mp hpre).1 (by decide)

theorem findKeyword_in_across (hafter : ∃ c ∈ w₂.head?, isAsciiWhitespace c = true) :
    findKeyword (l ++ (w₁ ++ MembershipOp.isIn.asStr.toList ++ w₂) ++ r)
      MembershipOp.isIn.asStr.toList =
        some ((l ++ w₁).reverse, MembershipOp.isIn.asStr.toList ++ (w₂ ++ r)) := by
  have hbalanced : Balanced (l ++ w₁) := (hl.closed.append (closed_of_blank hw₁)).balanced
  rw [across_eq, findKeyword]
  exact hbalanced.find?_positions (c := 'i') (by decide) (keywordAt_place .isIn hbefore hafter)
    (keywordAt_in_before hl hw₁ hbefore _)

include hr hw₂

theorem unkeyed_notIn_across (hborder : w₁ = [' '] → ¬EndsInNot l) :
    Unkeyed ['n', 'o', 't', ' ', 'i', 'n'] (l ++ (w₁ ++ ['i', 'n'] ++ w₂) ++ r) := by
  have hbalanced : Balanced (l ++ w₁) := (hl.closed.append (closed_of_blank hw₁)).balanced
  have hrest : Unkeyed ['n', 'o', 't', ' ', 'i', 'n'] (w₂ ++ r) :=
    Unkeyed.blank_append hw₂ (by decide) (by decide) (Unkeyed.notIn hr.unkeyed)
  have hin : Unkeyed ['n', 'o', 't', ' ', 'i', 'n'] (['i', 'n'] ++ (w₂ ++ r)) := by
    have hclosed : Closed ['i', 'n'] := closed_of_isPlain (by decide)
    refine hclosed.balanced.forall_positions_append.mpr
      ⟨?_, fun p hp ↦ keywordAt_append_before (hrest p hp) _⟩
    -- the two places in the keyword: it starts with another letter, and no white space precedes it
    have hplaces : positions ['i', 'n'] = [([], ['i', 'n']), (['i'], ['n'])] := by decide
    intro p hp
    rw [hplaces] at hp
    rcases mem_cons.mp hp with rfl | hp
    · exact keywordAt_eq_false (by simp)
    · obtain rfl := mem_singleton.mp hp
      rw [keywordAt, (by decide : (['i'] : List Char).head?.all isAsciiWhitespace = false),
        Bool.and_false, Bool.false_and]
  rw [across_eq]
  refine hbalanced.forall_positions_append.mpr
    ⟨keywordAt_notIn_before hl hw₁ hbefore fun hends hspace _ ↦ hborder hspace hends,
      fun p hp ↦ keywordAt_append_before (hin p hp) _⟩

theorem membershipSplit_across (op : MembershipOp)
    (hafter : ∃ c ∈ w₂.head?, isAsciiWhitespace c = true)
    (hborder : op = .isIn → w₁ = [' '] → ¬EndsInNot l) :
    membershipSplit (l ++ (w₁ ++ op.asStr.toList ++ w₂) ++ r) =
      some (((l ++ w₁).reverse, op.asStr.toList ++ (w₂ ++ r)), op) := by
  cases op with
  | isIn =>
    have hnone : findKeyword (l ++ (w₁ ++ MembershipOp.isIn.asStr.toList ++ w₂) ++ r)
        MembershipOp.notIn.asStr.toList = none :=
      unkeyed_iff.mp (unkeyed_notIn_across hl hr hw₁ hw₂ hbefore (hborder rfl))
    rw [membershipSplit, hnone, findKeyword_in_across hl hw₁ hbefore hafter]
    rfl
  | notIn => rw [membershipSplit, findKeyword_notIn_across hl hw₁ hbefore hafter]

end Membership

theorem MembershipOp.passes (op : MembershipOp) (sought : CompareOp) :
    sought.Passes op.asStr.toList := by
  cases op <;> cases sought <;> decide

end Split

/-! ## Atoms -/

section Atom

variable {J : JsonReader}

theorem stripOuterParens_eq_none {c : Char} (hc : c ≠ '(') (t : List Char) :
    stripOuterParens (c :: t) = none := by
  rw [stripOuterParens, if_neg]
  rintro ⟨h, -⟩
  exact hc (Option.some.inj h)

theorem outerDepth_of_escapeAfter {q : Char} {body before : List Char} {e : Bool} {d : ℤ}
    (h : escapeAfter q (isEscaped before) body = some e) (v : List Char) :
    outerDepth before (some q) d (body ++ v) =
      outerDepth (body.reverse ++ before) (some q) d v := by
  induction body generalizing before with
  | nil => rfl
  | cons c body ih =>
    rw [escapeAfter] at h
    split_ifs at h with hc
    rw [← isEscaped_cons] at h
    rw [cons_append, outerDepth, if_neg hc, ih h, reverse_cons, append_assoc,
      singleton_append]

theorem outerDepth_of_closed {u : List Char} (h : Closed u) (before : List Char) {d : ℤ}
    (hd : 1 ≤ d) {v : List Char} (hv : v ≠ []) :
    outerDepth before none d (u ++ v) = outerDepth (u.reverse ++ before) none d v := by
  induction h generalizing before d v with
  | nil => rfl
  | @plain c s hc _ ih =>
    simp only [isPlain, Bool.and_eq_true, Bool.not_eq_true', decide_eq_true_eq] at hc
    obtain ⟨⟨hquote, hopen⟩, hclose⟩ := hc
    rw [cons_append, outerDepth, if_neg (by simp [hquote]), if_neg hopen, if_neg hclose,
      ih _ hd hv, reverse_cons, append_assoc, singleton_append]
  | @string q body s hq hbody _ ih =>
    have hread : escapeAfter q (isEscaped (q :: before)) body = some false := by
      rwa [isEscaped_quote hq]
    have hescaped := (after_of_escapeAfter 0 hread).2.1
    rw [cons_append, outerDepth, if_pos hq, append_assoc, outerDepth_of_escapeAfter hread,
      cons_append, outerDepth, if_pos (by simp [hescaped]), ih _ hd hv]
    simp
  | @group u s _ _ ihu ih =>
    have hne : ¬(d + 1 - 1 = 0 ∧ s ++ v ≠ []) := by omega
    rw [cons_append, outerDepth, if_neg (by decide), if_pos rfl, append_assoc,
      ihu _ (by omega) (by simp), cons_append, outerDepth, if_neg (by decide),
      if_neg (by decide), if_pos rfl, if_neg hne, Int.add_sub_cancel, ih _ hd hv]
    simp

theorem stripOuterParens_group {u : List Char} (h : Closed u) :
    stripOuterParens ('(' :: (u ++ [')'])) = some (trim u) := by
  have hdepth : outerDepth [] none 0 ('(' :: (u ++ [')'])) = some 0 := by
    rw [outerDepth, if_neg (by decide), if_pos rfl, outerDepth_of_closed h _ (by omega) (by simp)]
    rfl
  have hlast : ('(' :: (u ++ [')'])).getLast? = some ')' := by
    rw [← cons_append, List.getLast?_concat]
  rw [stripOuterParens, if_pos ⟨rfl, hlast, hdepth⟩, tail_cons, dropLast_concat]

def ReadsAtom (J : JsonReader) (t : List Char) (e : Expr) : Prop :=
  parseAtom J (parseExpr J) t = .ok e ∧ ∀ u ∈ atomTexts operandTexts t, IsFaithful u

def ReadsExpr (J : JsonReader) (t : List Char) (e : Expr) : Prop :=
  parseExpr J t = .ok e ∧ ∀ u ∈ operandTexts t, IsFaithful u

theorem readsAtom_path {segments : List String} (hread : parsePath t = .ok segments)
    (htidy : IsTidy t) (htrim : Trimmed t) : ReadsAtom J t (.path segments) := by
  obtain ⟨s, rfl⟩ := prefix_of_parsePath hread
  have hstrip := stripOuterParens_eq_none (c := '$') (by decide) ('.' :: s)
  have hstarts : "$.".toList.isPrefixOf ('$' :: '.' :: s) = true := rfl
  constructor
  · simp only [parseAtom, htrim.trim_eq, hstrip, if_pos hstarts, hread]
    rfl
  · simp only [atomTexts, htrim.trim_eq, hstrip, mem_singleton, forall_eq]
    refine ⟨fun _ ↦ htidy, fun hquoted ↦ ?_⟩
    exact absurd hquoted (by simp [isQuoted])

theorem readsAtom_string {q : Char} {body : List Char} {value : String} (hq : isQuote q = true)
    (hbody : Sealed q body) (hvalue : unescapeStringLiteral body = .ok value) :
    ReadsAtom J (q :: (body ++ [q])) (.literal (.string value)) := by
  have hspace : isWhiteSpace q = false := by
    rcases eq_of_isQuote hq with rfl | rfl <;> decide
  have htrim := (trimmed_enclosed hspace hspace body).trim_eq
  have hstrip : stripOuterParens (q :: (body ++ [q])) = none :=
    stripOuterParens_eq_none (by rcases eq_of_isQuote hq with rfl | rfl <;> decide) _
  have hstarts : ¬"$.".toList.isPrefixOf (q :: (body ++ [q])) = true := by
    rw [ isPrefixOf_iff_prefix]
    intro hpre
    obtain ⟨rfl, -⟩ := cons_prefix_cons.mp hpre
    exact absurd hq (by decide)
  have hlast : (q :: (body ++ [q])).getLast? = some q := by
    rw [← cons_append, List.getLast?_concat]
  have hquoted : isQuoted (q :: (body ++ [q])) = true := by
    rcases eq_of_isQuote hq with rfl | rfl <;> simp [isQuoted, hlast]
  constructor
  · simp only [parseAtom, htrim, hstrip, if_neg hstarts, if_pos hquoted, tail_cons,
      dropLast_concat, hvalue]
    rfl
  · simp only [atomTexts, htrim, hstrip, mem_singleton, forall_eq]
    refine ⟨fun h ↦ absurd h hstarts, fun _ ↦ ?_⟩
    rw [tail_cons, dropLast_concat]
    exact hbody

theorem readsAtom_scalar {v : Json} (hread : parseScalar J t = some v) (htrim : Trimmed t) :
    ReadsAtom J t (.literal v) := by
  obtain ⟨-, c, s, rfl, hc⟩ := shaped_of_parseScalar hread
  have hnot : c ∉ ['(', '$', '"', '\''] := notMem_of_class (by decide) hc
  simp only [mem_cons, not_mem_nil, or_false, not_or] at hnot
  obtain ⟨hopen, hdollar, hdouble, hsingle⟩ := hnot
  have hstrip := stripOuterParens_eq_none hopen s
  have hstarts : ¬"$.".toList.isPrefixOf (c :: s) = true := by
    rw [ isPrefixOf_iff_prefix]
    exact fun hpre ↦ hdollar (cons_prefix_cons.mp hpre).1.symm
  have hquoted : ¬isQuoted (c :: s) = true := by simp [isQuoted, hdouble, hsingle]
  constructor
  · simp only [parseAtom, htrim.trim_eq, hstrip, if_neg hstarts, if_neg hquoted, hread]
  · simp only [atomTexts, htrim.trim_eq, hstrip, mem_singleton, forall_eq]
    exact ⟨fun h ↦ absurd h hstarts, fun h ↦ absurd h hquoted⟩

theorem readsAtom_group {w₁ w₂ : List Char} (hw₁ : Blank w₁) (hw₂ : Blank w₂)
    (ht : Level.disjunction.Fits t) (h : ReadsExpr J t e) :
    ReadsAtom J ('(' :: (w₁ ++ t ++ w₂ ++ [')'])) e := by
  have hclosed : Closed (w₁ ++ t ++ w₂) :=
    ((closed_of_blank hw₁).append ht.closed).append (closed_of_blank hw₂)
  have htrim := (trimmed_enclosed (by decide : isWhiteSpace '(' = false)
    (by decide : isWhiteSpace ')' = false) (w₁ ++ t ++ w₂)).trim_eq
  have hinner : trim (w₁ ++ t ++ w₂) = t := by
    rw [trim_append_blank hw₂, trim_blank_append hw₁, ht.delimited.trimmed.trim_eq]
  have hstrip := stripOuterParens_group hclosed
  rw [hinner] at hstrip
  constructor
  · simp only [parseAtom, htrim, hstrip, if_neg ht.delimited.ne_nil, h.1]
  · simp only [atomTexts, htrim, hstrip]
    exact h.2

theorem ReadsAtom.readsExpr (h : ReadsAtom J t e) (ht : Silent t) (hdelimited : Delimited t) :
    ReadsExpr J t e := by
  have hlogical : logicalSplit t = none :=
    logicalSplit_eq_none (ht.mute _ (by decide)) (ht.mute _ (by decide))
  have hcomparison : comparisonSplit t = none :=
    comparisonSplit_eq_none fun op ↦ ht.mute _ (mem_operatorTokens op)
  have hin : findKeyword t MembershipOp.isIn.asStr.toList = none := unkeyed_iff.mp ht.unkeyed
  have hnotIn : findKeyword t MembershipOp.notIn.asStr.toList = none :=
    unkeyed_iff.mp (Unkeyed.notIn ht.unkeyed)
  have hmembership : membershipSplit t = none := by
    rw [membershipSplit, hnotIn, hin]
    rfl
  constructor
  · rw [parseExpr_of_no_split J hdelimited.trimmed hdelimited.ne_nil hlogical hcomparison
      hmembership]
    exact h.1
  · rw [operandTexts_of_no_split hdelimited.trimmed hlogical hcomparison hmembership]
    exact h.2

end Atom

/-! ## Completeness -/

section Complete

variable {J : JsonReader} {l r w₁ w₂ : List Char} {x y : Expr} (hw₁ : Blank w₁) (hw₂ : Blank w₂)

include hw₁ hw₂ in
theorem readOperands_across {read : List Char → Except ExprError Expr} {token : String}
    (hl : Delimited l) (hr : Delimited r) (hx : read l = .ok x) (hy : read r = .ok y)
    (missing : String) (mk : Expr → Expr → Expr) :
    readOperands read ((l ++ w₁).reverse, token.toList ++ (w₂ ++ r)) token missing mk =
      .ok (mk x y) := by
  rw [readOperands, leftOperand_across hl.trimmed hw₁, rightOperand_across hr.trimmed hw₂, hx, hy,
    if_neg (by simp [hl.ne_nil, hr.ne_nil])]
  rfl

include hw₁ hw₂

theorem readsExpr_logical {op : LogicalOp} (hld : Delimited l) (hrd : Delimited r)
    (hsplit : logicalSplit (l ++ (w₁ ++ op.asStr.toList ++ w₂) ++ r) =
      some (((l ++ w₁).reverse, op.asStr.toList ++ (w₂ ++ r)), op))
    (hl : ReadsExpr J l x) (hr : ReadsExpr J r y) :
    ReadsExpr J (l ++ (w₁ ++ op.asStr.toList ++ w₂) ++ r) (.logical x op y) := by
  have hd := hld.append hrd (w₁ ++ op.asStr.toList ++ w₂)
  constructor
  · rw [parseExpr_of_logicalSplit J hd.trimmed hd.ne_nil hsplit,
      readOperands_across hw₁ hw₂ hld hrd hl.1 hr.1]
  · rw [operandTexts_of_logicalSplit hd.trimmed hsplit, leftOperand_across hld.trimmed hw₁,
      rightOperand_across hrd.trimmed hw₂]
    exact forall_mem_append.mpr ⟨hl.2, hr.2⟩

variable (hlf : Level.operand.Fits l) (hrf : Level.operand.Fits r) (hl : ReadsAtom J l x)
  (hr : ReadsAtom J r y)
include hlf hrf hl hr

theorem readsExpr_compare (op : CompareOp)
    (hborder : op = .eq → w₁ = [] → l.getLast? ≠ some '=') :
    ReadsExpr J (l ++ (w₁ ++ op.asStr.toList ++ w₂) ++ r) (.compare x op y) := by
  have hd := hlf.delimited.append hrf.delimited (w₁ ++ op.asStr.toList ++ w₂)
  have hfits := fits_comparison hw₁ hw₂ hlf hrf op.apart
  have hlogical := logicalSplit_eq_none (hfits.muteAnd (by simp)) (hfits.muteOr (by simp))
  have hsplit := comparisonSplit_across op (hlf.silent rfl) (hrf.silent rfl) hrf.delimited hw₁ hw₂
    hborder
  constructor
  · rw [parseExpr_of_comparisonSplit J hd.trimmed hd.ne_nil hlogical hsplit,
      readOperands_across hw₁ hw₂ hlf.delimited hrf.delimited hl.1 hr.1]
  · rw [operandTexts_of_comparisonSplit hd.trimmed hlogical hsplit,
      leftOperand_across hlf.delimited.trimmed hw₁, rightOperand_across hrf.delimited.trimmed hw₂]
    exact forall_mem_append.mpr ⟨hl.2, hr.2⟩

theorem readsExpr_membership (op : MembershipOp)
    (hbefore : ∃ c ∈ w₁.getLast?, isAsciiWhitespace c = true)
    (hafter : ∃ c ∈ w₂.head?, isAsciiWhitespace c = true)
    (hborder : op = .isIn → w₁ = [' '] → ¬EndsInNot l) :
    ReadsExpr J (l ++ (w₁ ++ op.asStr.toList ++ w₂) ++ r) (.membership x op y) := by
  have hd := hlf.delimited.append hrf.delimited (w₁ ++ op.asStr.toList ++ w₂)
  have hfits := fits_comparison hw₁ hw₂ hlf hrf op.apart
  have hlogical := logicalSplit_eq_none (hfits.muteAnd (by simp)) (hfits.muteOr (by simp))
  have hcomparison : comparisonSplit (l ++ (w₁ ++ op.asStr.toList ++ w₂) ++ r) = none :=
    comparisonSplit_eq_none fun sought ↦ mute_of_passes (op.passes sought) (hlf.silent rfl)
      (hrf.silent rfl) hrf.delimited hw₁ hw₂
  have hsplit := membershipSplit_across (hlf.silent rfl) (hrf.silent rfl) hw₁ hw₂ hbefore op
    hafter hborder
  constructor
  · rw [parseExpr_of_membershipSplit J hd.trimmed hd.ne_nil hlogical hcomparison hsplit,
      readOperands_across hw₁ hw₂ hlf.delimited hrf.delimited hl.1 hr.1]
  · rw [operandTexts_of_membershipSplit hd.trimmed hlogical hcomparison hsplit,
      leftOperand_across hlf.delimited.trimmed hw₁, rightOperand_across hrf.delimited.trimmed hw₂]
    exact forall_mem_append.mpr ⟨hl.2, hr.2⟩

end Complete

/-- The parser reads a sentence as its derivation says, and all operand texts are faithful. -/
theorem reads_of_derives {J : JsonReader} {level : Level} (h : Derives J level t e) :
    ReadsExpr J t e ∧ (level = .operand → ReadsAtom J t e) := by
  -- an operand is read as an atom, and as an expression because there is nothing to split in it
  have hoperand : ∀ {t e}, Derives J .operand t e → ReadsAtom J t e →
      ReadsExpr J t e ∧ (Level.operand = .operand → ReadsAtom J t e) := by
    intro t e ht hread
    have hfits := fits_of_derives ht
    exact ⟨hread.readsExpr (hfits.silent rfl) hfits.delimited, fun _ ↦ hread⟩
  induction h with
  | path hread htidy htrim =>
    exact hoperand (.path hread htidy htrim) (readsAtom_path hread htidy htrim)
  | string hq hbody hvalue =>
    exact hoperand (.string hq hbody hvalue) (readsAtom_string hq hbody hvalue)
  | scalar hread htrim => exact hoperand (.scalar hread htrim) (readsAtom_scalar hread htrim)
  | group hw₁ hw₂ ht ih =>
    exact hoperand (.group hw₁ hw₂ ht) (readsAtom_group hw₁ hw₂ (fits_of_derives ht) ih.1)
  | ofOperand _ ih => exact ⟨ih.1, by simp⟩
  | compare op hl hr hw₁ hw₂ hborder ihl ihr =>
    exact ⟨readsExpr_compare hw₁ hw₂ (fits_of_derives hl) (fits_of_derives hr) (ihl.2 rfl)
      (ihr.2 rfl) op hborder, by simp⟩
  | membership op hl hr hw₁ hw₂ hbefore hafter hborder ihl ihr =>
    exact ⟨readsExpr_membership hw₁ hw₂ (fits_of_derives hl) (fits_of_derives hr) (ihl.2 rfl)
      (ihr.2 rfl) op hbefore hafter hborder, by simp⟩
  | ofComparison _ ih => exact ⟨ih.1, by simp⟩
  | and hl hr hw₁ hw₂ ihl ihr =>
    have hlf := fits_of_derives hl
    have hrf := fits_of_derives hr
    exact ⟨readsExpr_logical hw₁ hw₂ hlf.delimited hrf.delimited
      (logicalSplit_and hlf hrf hw₁ hw₂) ihl.1 ihr.1, by simp⟩
  | ofConjunction _ ih => exact ⟨ih.1, by simp⟩
  | or hl hr hw₁ hw₂ ihl ihr =>
    have hlf := fits_of_derives hl
    have hrf := fits_of_derives hr
    exact ⟨readsExpr_logical hw₁ hw₂ hlf.delimited hrf.delimited
      (logicalSplit_or hlf hrf hw₁ hw₂) ihl.1 ihr.1, by simp⟩

theorem parseExpr_of_derives {J : JsonReader} {level : Level} (h : Derives J level t e) :
    parseExpr J t = .ok e :=
  (reads_of_derives h).1.1

end WaferRun
