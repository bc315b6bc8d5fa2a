import WaferRun.Flow.ExprLiteral

/-!
# The expression parser

An expression is read by splitting its text: at the last `||` outside of all strings and groups,
else at the last `&&`, else at the first comparison operator, else at a membership keyword. A text
without any of these is an atom: a group in parentheses, a path or a literal.

The operands of `||` and `&&` are expressions again; those of comparisons and memberships are
atoms. Every text that is read on the way is shorter than the one it is cut from, so the recursion
ends, and the parser satisfies its own equation (`parseExpr_eq`).
-/

open List Option

namespace WaferRun

open Scanner Text

inductive CompareOp
  | eq
  | ne
  | gt
  | lt
  | ge
  | le
deriving DecidableEq, Repr

inductive LogicalOp
  | and
  | or
deriving DecidableEq, Repr

inductive MembershipOp
  | isIn
  | notIn
deriving DecidableEq, Repr

inductive Expr
  | path (segments : List String)
  | literal (value : Json)
  | compare (left : Expr) (op : CompareOp) (right : Expr)
  | logical (left : Expr) (op : LogicalOp) (right : Expr)
  | membership (value : Expr) (op : MembershipOp) (list : Expr)

def CompareOp.asStr : CompareOp → String
  | .eq => "=="
  | .ne => "!="
  | .gt => ">"
  | .lt => "<"
  | .ge => ">="
  | .le => "<="

def LogicalOp.asStr : LogicalOp → String
  | .and => "&&"
  | .or => "||"

def MembershipOp.asStr : MembershipOp → String
  | .isIn => "in"
  | .notIn => "not in"

/-! ## Finding operators

A position is the reversed text before it and the text from it on. -/

def findLast (s token : List Char) : Option (List Char × List Char) :=
  (positions s).reverse.find? fun p ↦ token.isPrefixOf p.2

/-- The last position of a logical operator: of `||` if there is one, of `&&` otherwise. -/
def logicalSplit (s : List Char) : Option ((List Char × List Char) × LogicalOp) :=
  match findLast s LogicalOp.or.asStr.toList, findLast s LogicalOp.and.asStr.toList with
  | some p, _ => some (p, .or)
  | none, some p => some (p, .and)
  | none, none => none

/-- Whether an operator token stands at a position; `>` and `<` do not where they are part of `>=`
and `<=`. -/
def operatorAt (op : List Char) (p : List Char × List Char) : Bool :=
  op.isPrefixOf p.2 &&
    !((op = ['>'] || op = ['<']) && (p.2.drop 1).head? = some '=') &&
    !(op = ['='] && p.1.head?.any (· ∈ ['!', '=', '>', '<']))

def findOperator (s op : List Char) : Option (List Char × List Char) :=
  (positions s).find? (operatorAt op)

/-- The comparison operators in the order in which they are looked for. -/
def comparisonOps : List CompareOp := [.eq, .ne, .ge, .le, .gt, .lt]

def comparisonSplit (s : List Char) : Option ((List Char × List Char) × CompareOp) :=
  comparisonOps.findSome? fun op ↦ (findOperator s op.asStr.toList).map fun p ↦ (p, op)

def isAsciiWhitespace (c : Char) : Bool := c ∈ [' ', '\t', '\n', '\x0c', '\r']

/-- Whether a keyword stands at a position, between white space or the ends of the text. -/
def keywordAt (keyword : List Char) (p : List Char × List Char) : Bool :=
  keyword.isPrefixOf p.2 && p.1.head?.all isAsciiWhitespace &&
    (p.2.drop keyword.length).head?.all isAsciiWhitespace

def findKeyword (s keyword : List Char) : Option (List Char × List Char) :=
  (positions s).find? (keywordAt keyword)

def membershipSplit (s : List Char) : Option ((List Char × List Char) × MembershipOp) :=
  match findKeyword s MembershipOp.notIn.asStr.toList with
  | some p => some (p, .notIn)
  | none => (findKeyword s MembershipOp.isIn.asStr.toList).map fun p ↦ (p, .isIn)

def leftOperand (p : List Char × List Char) : List Char := trim p.1.reverse

def rightOperand (p : List Char × List Char) (token : String) : List Char :=
  trim (p.2.drop token.toList.length)

/-- The depth of parentheses at the end of a text; `none` if it is zero at one before the end. -/
def outerDepth (before : List Char) (quote : Option Char) (depth : ℤ) : List Char → Option ℤ
  | [] => some depth
  | c :: s =>
    match quote with
    | some q =>
      outerDepth (c :: before) (if c = q && !isEscaped before then none else some q) depth s
    | none =>
      if isQuote c then outerDepth (c :: before) (some c) depth s
      else if c = '(' then outerDepth (c :: before) none (depth + 1) s
      else if c = ')' then
        if depth - 1 = 0 ∧ s ≠ [] then none else outerDepth (c :: before) none (depth - 1) s
      else outerDepth (c :: before) none depth s

/-- The inside of a text that is one group. -/
def stripOuterParens (s : List Char) : Option (List Char) :=
  if s.head? = some '(' ∧ s.getLast? = some ')' ∧ outerDepth [] none 0 s = some 0 then
    some (trim s.tail.dropLast)
  else none

/-! ## The parser -/

def readOperands (read : List Char → Except ExprError Expr) (p : List Char × List Char)
    (token : String) (missing : String) (mk : Expr → Expr → Expr) : Except ExprError Expr :=
  if leftOperand p = [] ∨ rightOperand p token = [] then .error (.parse missing)
  else
    (read (leftOperand p)).bind fun left ↦
      (read (rightOperand p token)).map fun right ↦ mk left right

/-- Whether a text starts and ends with the same quote. -/
def isQuoted (s : List Char) : Bool :=
  2 ≤ s.length &&
    (s.head? = some '"' && s.getLast? = some '"' ||
      s.head? = some '\'' && s.getLast? = some '\'')

section Step

variable (J : JsonReader) (parse : List Char → Except ExprError Expr)

/-- Read an atom; `parse` reads the expression in a group. -/
def parseAtom (s : List Char) : Except ExprError Expr :=
  let s := trim s
  match stripOuterParens s with
  | some inner =>
    if inner = [] then
      .error (.parse ("empty parenthesized group in '" ++ String.ofList s ++ "'"))
    else parse inner
  | none =>
    if "$.".toList.isPrefixOf s then (parsePath s).map .path
    else if isQuoted s then
      (unescapeStringLiteral s.tail.dropLast).map fun t ↦ .literal (.string t)
    else
      match parseScalar J s with
      | some v => .ok (.literal v)
      | none => .error (.parse ("unrecognized token: '" ++ String.ofList s ++ "'"))

/-- Read a text with a logical operator; `none` if it has none. -/
def tryParseLogical (s : List Char) : Option (Except ExprError Expr) :=
  (logicalSplit s).map fun (p, op) ↦
    readOperands parse p op.asStr
      ("missing operand for logical operator in '" ++ String.ofList s ++ "'")
      fun left right ↦ .logical left op right

/-- Read a text with a comparison operator; `none` if it has none. -/
def tryParseComparison (s : List Char) : Option (Except ExprError Expr) :=
  (comparisonSplit s).map fun (p, op) ↦
    readOperands (parseAtom J parse) p op.asStr
      ("missing operand for '" ++ op.asStr ++ "' in '" ++ String.ofList s ++ "'")
      fun left right ↦ .compare left op right

/-- Read a text with a membership keyword; `none` if it has none. -/
def tryParseMembership (s : List Char) : Option (Except ExprError Expr) :=
  (membershipSplit s).map fun (p, op) ↦
    readOperands (parseAtom J parse) p op.asStr
      ("missing operand for '" ++ op.asStr ++ "' in '" ++ String.ofList s ++ "'")
      fun value list ↦ .membership value op list

/-- Read a text, with `parse` for the texts cut from it. -/
def parseStep (s : List Char) : Except ExprError Expr :=
  let s := trim s
  if s = [] then .error (.parse "empty expression")
  else
    match tryParseLogical parse s with
    | some result => result
    | none =>
      match tryParseComparison J parse s with
      | some result => result
      | none =>
        match tryParseMembership J parse s with
        | some result => result
        | none => parseAtom J parse s

end Step

def parseExpr (J : JsonReader) (s : List Char) : Except ExprError Expr :=
  recurse (parseStep J) (.error (.parse "empty expression")) s

/-! ## Lengths -/

theorem length_leftOperand_lt {s : List Char} {p : List Char × List Char} (h : p ∈ positions s) :
    (leftOperand p).length < s.length := by
  obtain ⟨u, c, v, rfl, rfl, -, -⟩ := eq_of_mem_positionsFrom h
  refine (length_trim_le _).trans_lt ?_
  simp

theorem length_rightOperand_lt {s : List Char} {p : List Char × List Char} (h : p ∈ positions s)
    {token : String} (htoken : token.toList ≠ []) : (rightOperand p token).length < s.length := by
  obtain ⟨u, c, v, rfl, rfl, -, -⟩ := eq_of_mem_positionsFrom h
  have hpos : 0 < token.toList.length := length_pos_iff.mpr htoken
  refine (length_trim_le _).trans_lt ?_
  simp only [length_drop, length_cons, length_append]
  omega

theorem length_of_stripOuterParens {s inner : List Char} (h : stripOuterParens s = some inner) :
    inner.length < s.length := by
  rw [stripOuterParens] at h
  split_ifs at h with hs
  obtain ⟨c, t, rfl⟩ := exists_cons_of_ne_nil (l := s) (by rintro rfl; simp at hs)
  rw [← some.inj h]
  refine (length_trim_le _).trans_lt ?_
  simp only [tail_cons, length_dropLast, length_cons]
  omega

theorem mem_positions_of_logicalSplit {s : List Char} {p : List Char × List Char} {op : LogicalOp}
    (h : logicalSplit s = some (p, op)) : p ∈ positions s := by
  rw [logicalSplit] at h
  split at h
  · rename_i hor
    obtain ⟨rfl, -⟩ := Prod.mk.inj (some.inj h)
    exact mem_reverse.mp (List.mem_of_find?_eq_some hor)
  · rename_i hand
    obtain ⟨rfl, -⟩ := Prod.mk.inj (some.inj h)
    exact mem_reverse.mp (List.mem_of_find?_eq_some hand)
  · exact absurd h (by simp)

theorem findOperator_of_comparisonSplit {s : List Char} {p : List Char × List Char}
    {op : CompareOp} (h : comparisonSplit s = some (p, op)) :
    findOperator s op.asStr.toList = some p := by
  obtain ⟨op', -, hop⟩ := List.exists_of_findSome?_eq_some h
  obtain ⟨p', hp, heq⟩ := map_eq_some_iff.mp hop
  obtain ⟨rfl, rfl⟩ := Prod.mk.inj heq
  exact hp

theorem findKeyword_of_membershipSplit {s : List Char} {p : List Char × List Char}
    {op : MembershipOp} (h : membershipSplit s = some (p, op)) :
    findKeyword s op.asStr.toList = some p := by
  rw [membershipSplit] at h
  split at h
  · rename_i hfind
    obtain ⟨rfl, rfl⟩ := Prod.mk.inj (some.inj h)
    exact hfind
  · obtain ⟨p', hp, heq⟩ := map_eq_some_iff.mp h
    obtain ⟨rfl, rfl⟩ := Prod.mk.inj heq
    exact hp

theorem LogicalOp.asStr_ne_nil (op : LogicalOp) : op.asStr.toList ≠ [] := by
  cases op <;> decide

theorem CompareOp.asStr_ne_nil (op : CompareOp) : op.asStr.toList ≠ [] := by
  cases op <;> decide

theorem MembershipOp.asStr_ne_nil (op : MembershipOp) : op.asStr.toList ≠ [] := by
  cases op <;> decide

/-! ## The equation of the parser -/

section Congr

variable {f g : List Char → Except ExprError Expr} {s : List Char}

theorem readOperands_congr {p : List Char × List Char} {token : String} (hp : p ∈ positions s)
    (htoken : token.toList ≠ []) (h : ∀ t, t.length < s.length → f t = g t) (missing : String)
    (mk : Expr → Expr → Expr) :
    readOperands f p token missing mk = readOperands g p token missing mk := by
  rw [readOperands, readOperands, h _ (length_leftOperand_lt hp),
    h _ (length_rightOperand_lt hp htoken)]

variable (J : JsonReader)

theorem parseAtom_congr (h : ∀ t, t.length < s.length → f t = g t) :
    parseAtom J f s = parseAtom J g s := by
  simp only [parseAtom]
  split
  · rename_i inner hinner
    rw [h inner ((length_of_stripOuterParens hinner).trans_le (length_trim_le s))]
  · rfl

theorem parseStep_asksShorter : AsksShorter (parseStep J) := by
  intro f g s h
  have hlt : ∀ t, t.length < (trim s).length → f t = g t :=
    fun t ht ↦ h t (ht.trans_le (length_trim_le s))
  have hatom : ∀ t, t.length < (trim s).length → parseAtom J f t = parseAtom J g t :=
    fun t ht ↦ parseAtom_congr J fun t' ht' ↦ hlt t' (ht'.trans ht)
  have hlogical : tryParseLogical f (trim s) = tryParseLogical g (trim s) := by
    refine Option.map_congr fun ⟨p, op⟩ hsplit ↦ ?_
    exact readOperands_congr (mem_positions_of_logicalSplit hsplit) op.asStr_ne_nil hlt _ _
  have hcomparison : tryParseComparison J f (trim s) = tryParseComparison J g (trim s) := by
    refine Option.map_congr fun ⟨p, op⟩ hsplit ↦ ?_
    have hp := List.mem_of_find?_eq_some (findOperator_of_comparisonSplit hsplit)
    exact readOperands_congr hp op.asStr_ne_nil hatom _ _
  have hmembership : tryParseMembership J f (trim s) = tryParseMembership J g (trim s) := by
    refine Option.map_congr fun ⟨p, op⟩ hsplit ↦ ?_
    have hp := List.mem_of_find?_eq_some (findKeyword_of_membershipSplit hsplit)
    exact readOperands_congr hp op.asStr_ne_nil hatom _ _
  simp only [parseStep, hlogical, hcomparison, hmembership, parseAtom_congr J hlt]

end Congr

section Equation

variable (J : JsonReader)

/-- The parser reads a text as its source does, with itself for the texts cut from it. -/
theorem parseExpr_eq (s : List Char) : parseExpr J s = parseStep J (parseExpr J) s :=
  (parseStep_asksShorter J).recurse_eq _ s

theorem parseExpr_trim (s : List Char) : parseExpr J (trim s) = parseExpr J s := by
  rw [parseExpr_eq, parseExpr_eq J s]
  simp only [parseStep, (trimmed_trim s).trim_eq]

variable {s : List Char} (hs : Trimmed s) (h0 : s ≠ [])
include hs h0

theorem parseExpr_of_logicalSplit {p : List Char × List Char} {op : LogicalOp}
    (h : logicalSplit s = some (p, op)) :
    parseExpr J s = readOperands (parseExpr J) p op.asStr
      ("missing operand for logical operator in '" ++ String.ofList s ++ "'")
      fun left right ↦ .logical left op right := by
  rw [parseExpr_eq]
  simp only [parseStep, hs.trim_eq, if_neg h0, tryParseLogical, h, map_some]

variable (hlogical : logicalSplit s = none)
include hlogical

theorem parseExpr_of_comparisonSplit {p : List Char × List Char} {op : CompareOp}
    (h : comparisonSplit s = some (p, op)) :
    parseExpr J s = readOperands (parseAtom J (parseExpr J)) p op.asStr
      ("missing operand for '" ++ op.asStr ++ "' in '" ++ String.ofList s ++ "'")
      fun left right ↦ .compare left op right := by
  rw [parseExpr_eq]
  simp only [parseStep, hs.trim_eq, if_neg h0, tryParseLogical, hlogical, tryParseComparison, h,
    map_none, map_some]

variable (hcomparison : comparisonSplit s = none)
include hcomparison

theorem parseExpr_of_membershipSplit {p : List Char × List Char} {op : MembershipOp}
    (h : membershipSplit s = some (p, op)) :
    parseExpr J s = readOperands (parseAtom J (parseExpr J)) p op.asStr
      ("missing operand for '" ++ op.asStr ++ "' in '" ++ String.ofList s ++ "'")
      fun value list ↦ .membership value op list := by
  rw [parseExpr_eq]
  simp only [parseStep, hs.trim_eq, if_neg h0, tryParseLogical, hlogical, tryParseComparison,
    hcomparison, tryParseMembership, h, map_none, map_some]

theorem parseExpr_of_no_split (h : membershipSplit s = none) :
    parseExpr J s = parseAtom J (parseExpr J) s := by
  rw [parseExpr_eq]
  simp only [parseStep, hs.trim_eq, if_neg h0, tryParseLogical, hlogical, tryParseComparison,
    hcomparison, tryParseMembership, h, map_none]

end Equation

end WaferRun
