import WaferRun.Database.WriteHandler
import WaferRun.Lib.ThreeValued

/-!
# Filter forests

A caller sends its filters as a forest: comparisons in groups of which all, or any, must hold, with
all the trees of the forest to hold together. The forest is bounded before it is converted, and what
it is converted to is rendered in two ways, as the condition of a `WHERE` and as an expression that
stands elsewhere in a statement. A forest is admitted exactly when it is within its bounds, no group
in it is empty and every comparison makes sense, and then both renderings say of a row what the
forest says of it, also where a comparison with a missing value says nothing.
-/

namespace WaferRun.Database

/-! ## What a forest asks for -/

/-- The names a comparison with a value may give its operator. -/
def operatorNames : List (FilterOp × List String) :=
  [(.equal, ["eq", "=", "equal"]), (.notEqual, ["neq", "!=", "not_equal"]),
    (.greaterThan, ["gt", ">", "greater_than"]), (.greaterEqual, ["gte", ">=", "greater_equal"]),
    (.lessThan, ["lt", "<", "less_than"]), (.lessEqual, ["lte", "<=", "less_equal"]),
    (.like, ["like"]), (.containsIgnoreCase, ["contains_ignore_case"]),
    (.startsWith, ["starts_with"]), (.isIn, ["in"]), (.isNull, ["is_null"]),
    (.isNotNull, ["is_not_null"])]

def wireOperators : List String := operatorNames.flatMap Prod.snd

/-- The names that a comparison of two columns may give its operator: those of the six
comparisons. -/
def wireColumnOperators : List String := (operatorNames.take 6).flatMap Prod.snd

/-- A comparison that makes sense: its operator is known and its field is a name; if it is with a
column, then not with a value as well, by an operator that compares columns, and with a name. -/
structure FilterDef.Valid (f : FilterDef) : Prop where
  operator : f.operator ∈ wireOperators
  field : isPlainIdent f.field = true
  column : ∀ column, f.column = some column →
    f.value = .null ∧ f.operator ∈ wireColumnOperators ∧ isPlainIdent column = true

def FilterOp.named (op : String) : Option FilterOp :=
  (operatorNames.find? fun e ↦ op ∈ e.2).map Prod.fst

def FilterDef.pred (toDouble : JsonNumber → UInt64) (backend : Backend) (f : FilterDef) : SqlPred :=
  match FilterOp.named f.operator, f.column with
  | none, _ => .never
  | some operator, none => leafExpr toDouble ⟨f.field, operator, f.value⟩ backend
  | some operator, some column =>
    match ColumnCompareOp.fromFilterOp operator with
    | none => .never
    | some operator => .compareColumns operator f.field column

namespace FilterNode

mutual

def depth : FilterNode → ℕ
  | leaf _ => 1
  | all children => depths children + 1
  | any children => depths children + 1

def depths : List FilterNode → ℕ
  | [] => 0
  | node :: nodes => max (depth node) (depths nodes)

end

mutual

/-- How many nodes a tree has: its groups and its comparisons. -/
def size : FilterNode → ℕ
  | leaf _ => 1
  | all children => sizes children + 1
  | any children => sizes children + 1

def sizes : List FilterNode → ℕ
  | [] => 0
  | node :: nodes => size node + sizes nodes

end

mutual

/-- No group of the tree is empty. -/
def Populated : FilterNode → Prop
  | leaf _ => True
  | all children => children ≠ [] ∧ AllPopulated children
  | any children => children ≠ [] ∧ AllPopulated children

def AllPopulated : List FilterNode → Prop
  | [] => True
  | node :: nodes => Populated node ∧ AllPopulated nodes

end

mutual

/-- The comparisons of a tree. -/
def leaves : FilterNode → List FilterDef
  | leaf f => [f]
  | all children => leavesOf children
  | any children => leavesOf children

def leavesOf : List FilterNode → List FilterDef
  | [] => []
  | node :: nodes => leaves node ++ leavesOf nodes

end

mutual

/-- What a tree says of a row, of which its comparisons say what `judge` gives. -/
def truth (judge : FilterDef → Truth) : FilterNode → Truth
  | leaf f => judge f
  | all children => Truth.all (truths judge children)
  | any children => Truth.any (truths judge children)

def truths (judge : FilterDef → Truth) : List FilterNode → List Truth
  | [] => []
  | node :: nodes => truth judge node :: truths judge nodes

end

/-- What a forest says of a row: what all its trees say together. -/
def forestTruth (judge : FilterDef → Truth) (nodes : List FilterNode) : Truth :=
  Truth.all (truths judge nodes)

/-- A forest within its bounds, without an empty group, of comparisons that make sense. -/
structure Admissible (nodes : List FilterNode) : Prop where
  depth : depths nodes ≤ maxFilterDepth
  size : sizes nodes ≤ maxFilterNodes
  populated : AllPopulated nodes
  valid : ∀ f ∈ leavesOf nodes, f.Valid

end FilterNode

/-! ## What is rendered -/

inductive SqlExpr
  | pred (p : SqlPred)
  | constant (b : Bool)
  | and (left right : SqlExpr)
  | or (left right : SqlExpr)

/-- Chain expressions from the left; there is `unit` for none. -/
def SqlExpr.chain (op : SqlExpr → SqlExpr → SqlExpr) (unit : SqlExpr) : List SqlExpr → SqlExpr
  | [] => unit
  | e :: es => es.foldl op e

namespace Cond

mutual

def toExpr : Cond → SqlExpr
  | pred p => .pred p
  | all conds => SqlExpr.chain .and (.constant true) (toExprs conds)
  | any conds => SqlExpr.chain .or (.constant false) (toExprs conds)

def toExprs : List Cond → List SqlExpr
  | [] => []
  | c :: conds => toExpr c :: toExprs conds

end

end Cond

def treeToSimpleExpr (toDouble : JsonNumber → UInt64) (nodes : List FilterTree)
    (backend : Backend) : SqlExpr :=
  ((buildConditionTree toDouble nodes backend).getD (.all [])).toExpr

/-! ## What the renderings say of a row -/

section

variable (judge : SqlPred → Truth)

namespace Cond

mutual

/-- What a condition says of a row, of which `judge` tells what a predicate says. -/
def truth : Cond → Truth
  | pred p => judge p
  | all conds => Truth.all (truths conds)
  | any conds => Truth.any (truths conds)

def truths : List Cond → List Truth
  | [] => []
  | c :: conds => truth c :: truths conds

end

end Cond

/-- What a `WHERE` says of a row; without one every row is taken. -/
def whereTruth (cond : Option Cond) : Truth := cond.elim .holds (Cond.truth judge)

def SqlExpr.truth : SqlExpr → Truth
  | pred p => judge p
  | constant b => Truth.ofBool b
  | and left right => (truth left).and (truth right)
  | or left right => (truth left).or (truth right)

end

section

variable {judge : SqlPred → Truth}

theorem truth_foldl_and (e : SqlExpr) (es : List SqlExpr) :
    (es.foldl .and e).truth judge = (es.map (SqlExpr.truth judge)).foldl .and (e.truth judge) := by
  induction es generalizing e with
  | nil => rfl
  | cons f es ih => exact ih (.and e f)

theorem truth_foldl_or (e : SqlExpr) (es : List SqlExpr) :
    (es.foldl .or e).truth judge = (es.map (SqlExpr.truth judge)).foldl .or (e.truth judge) := by
  induction es generalizing e with
  | nil => rfl
  | cons f es ih => exact ih (.or e f)

theorem truth_chain_and (es : List SqlExpr) :
    (SqlExpr.chain .and (.constant true) es).truth judge =
      Truth.all (es.map (SqlExpr.truth judge)) := by
  cases es with
  | nil => rfl
  | cons e es => exact (truth_foldl_and e es).trans (Truth.foldl_and _ _)

theorem truth_chain_or (es : List SqlExpr) :
    (SqlExpr.chain .or (.constant false) es).truth judge =
      Truth.any (es.map (SqlExpr.truth judge)) := by
  cases es with
  | nil => rfl
  | cons e es => exact (truth_foldl_or e es).trans (Truth.foldl_or _ _)

mutual

theorem truth_toExpr : ∀ c : Cond, c.toExpr.truth judge = c.truth judge
  | .pred _ => rfl
  | .all conds => by
    rw [Cond.toExpr, truth_chain_and, truths_toExprs conds, Cond.truth]
  | .any conds => by
    rw [Cond.toExpr, truth_chain_or, truths_toExprs conds, Cond.truth]

theorem truths_toExprs : ∀ conds : List Cond,
    (Cond.toExprs conds).map (SqlExpr.truth judge) = Cond.truths judge conds
  | [] => rfl
  | c :: conds => by
    rw [Cond.toExprs, List.map_cons, truth_toExpr c, truths_toExprs conds, Cond.truths]

end

theorem truth_treeToSimpleExpr (toDouble : JsonNumber → UInt64) (trees : List FilterTree)
    (backend : Backend) :
    (treeToSimpleExpr toDouble trees backend).truth judge =
      whereTruth judge (buildConditionTree toDouble trees backend) := by
  rw [treeToSimpleExpr, truth_toExpr]
  cases buildConditionTree toDouble trees backend <;> rfl

theorem whereTruth_buildConditionTree (toDouble : JsonNumber → UInt64) (trees : List FilterTree)
    (backend : Backend) :
    whereTruth judge (buildConditionTree toDouble trees backend) =
      Truth.all (Cond.truths judge (nodesToConds toDouble backend trees)) := by
  cases trees with
  | nil => rfl
  | cons tree trees => rfl

end

/-! ## Which forests are admitted -/

section

variable {quote : String → String}

theorem elim_find?_cons {α β : Type} (p : α → Bool) (e : α) (l : List α) (b : β) (f : α → β) :
    ((e :: l).find? p).elim b f = if p e then f e else (l.find? p).elim b f := by
  rw [List.find?_cons]
  cases p e <;> rfl

/-- The code reads the table. -/
theorem parseWire_eq_ok_iff {op : String} {operator : FilterOp} :
    FilterOp.parseWire quote op = .ok operator ↔ FilterOp.named op = some operator := by
  have htable : FilterOp.parseWire quote op = (operatorNames.find? fun e ↦ op ∈ e.2).elim
      (.error (invalid ("unknown filter operator: " ++ quote op))) fun e ↦ .ok e.1 := by
    simp only [operatorNames, elim_find?_cons, List.mem_cons, List.not_mem_nil, or_false,
      decide_eq_true_eq]
    rfl
  rw [htable, FilterOp.named]
  cases operatorNames.find? fun e ↦ op ∈ e.2 <;> simp

theorem isSome_named_iff {op : String} : (FilterOp.named op).isSome = true ↔ op ∈ wireOperators := by
  rw [FilterOp.named, Option.isSome_map, List.find?_isSome, wireOperators, List.mem_flatMap]
  simp only [decide_eq_true_eq]

theorem isSome_fromFilterOp_iff_of_mem : ∀ op ∈ wireOperators,
    ((FilterOp.named op).bind ColumnCompareOp.fromFilterOp).isSome = true ↔
      op ∈ wireColumnOperators := by
  decide

theorem isSome_fromFilterOp_iff {op : String} {operator : FilterOp}
    (h : FilterOp.named op = some operator) :
    (ColumnCompareOp.fromFilterOp operator).isSome = true ↔ op ∈ wireColumnOperators := by
  have hop : op ∈ wireOperators := isSome_named_iff.mp (by rw [h]; rfl)
  have hcolumn := isSome_fromFilterOp_iff_of_mem op hop
  rwa [h] at hcolumn

theorem convertLeaf_eq_ok_iff {f : FilterDef} {tree : FilterTree} :
    convertLeaf quote f = .ok tree ↔
      ∃ operator, FilterOp.named f.operator = some operator ∧ isPlainIdent f.field = true ∧
        ((f.column = none ∧ tree = .leaf ⟨f.field, operator, f.value⟩) ∨
          ∃ column cmp, f.column = some column ∧ f.value = .null ∧
            ColumnCompareOp.fromFilterOp operator = some cmp ∧ isPlainIdent column = true ∧
              tree = .columnCompare ⟨f.field, cmp, column⟩) := by
  unfold convertLeaf
  rw [Fallible.bind_eq_ok]
  refine exists_congr fun operator ↦ ?_
  rw [parseWire_eq_ok_iff, Fallible.check_bind_eq_ok, checkName_eq_ok]
  refine and_congr_right fun _ ↦ and_congr_right fun _ ↦ ?_
  split
  next hcolumn =>
    simp only [hcolumn, pure, Except.pure, Except.ok.injEq, reduceCtorEq, false_and, exists_false,
      or_false, true_and]
    exact eq_comm
  next column hcolumn =>
    split
    next hvalue =>
      split
      next hcmp => simp [hcolumn, hcmp, throw, throwThe, MonadExceptOf.throw]
      next cmp hcmp =>
        rw [Fallible.check_bind_eq_ok, checkName_eq_ok]
        simp only [hcolumn, hvalue, hcmp, pure, Except.pure, Except.ok.injEq, Option.some.injEq,
          reduceCtorEq, false_and, false_or, true_and]
        constructor
        · rintro ⟨hname, rfl⟩
          exact ⟨column, cmp, rfl, rfl, hname, rfl⟩
        · rintro ⟨_, _, rfl, rfl, hname, rfl⟩
          exact ⟨hname, rfl⟩
    next hvalue =>
      refine ⟨fun h ↦ (nomatch h), ?_⟩
      rintro (⟨hnone, _⟩ | ⟨_, _, _, hnull, _⟩)
      · exact absurd (hcolumn.symm.trans hnone) nofun
      · exact (hvalue hnull).elim

theorem exists_convertLeaf_eq_ok_iff {f : FilterDef} :
    (∃ tree, convertLeaf quote f = .ok tree) ↔ f.Valid := by
  simp only [convertLeaf_eq_ok_iff]
  constructor
  · rintro ⟨tree, operator, hoperator, hfield, hform⟩
    refine ⟨isSome_named_iff.mp (by rw [hoperator]; rfl), hfield, fun column hcolumn ↦ ?_⟩
    rcases hform with ⟨hnone, _⟩ | ⟨column', cmp, hsome, hvalue, hcmp, hname, _⟩
    · exact absurd (hcolumn.symm.trans hnone) nofun
    · obtain rfl := Option.some.inj (hcolumn.symm.trans hsome)
      exact ⟨hvalue, (isSome_fromFilterOp_iff hoperator).mp (by rw [hcmp]; rfl), hname⟩
  · intro hvalid
    obtain ⟨operator, hoperator⟩ := Option.isSome_iff_exists.mp (isSome_named_iff.mpr hvalid.operator)
    cases hcolumn : f.column with
    | none => exact ⟨_, operator, hoperator, hvalid.field, .inl ⟨rfl, rfl⟩⟩
    | some column =>
      obtain ⟨hvalue, hcompares, hname⟩ := hvalid.column column hcolumn
      obtain ⟨cmp, hcmp⟩ :=
        Option.isSome_iff_exists.mp ((isSome_fromFilterOp_iff hoperator).mpr hcompares)
      exact ⟨_, operator, hoperator, hvalid.field, .inr ⟨column, cmp, rfl, hvalue, hcmp, hname, rfl⟩⟩

theorem truth_of_convertLeaf {f : FilterDef} {tree : FilterTree}
    (h : convertLeaf quote f = .ok tree) (toDouble : JsonNumber → UInt64) (backend : Backend)
    (judge : SqlPred → Truth) :
    (nodeToCond toDouble backend tree).truth judge = judge (f.pred toDouble backend) := by
  obtain ⟨operator, hoperator, _, hform⟩ := convertLeaf_eq_ok_iff.mp h
  rcases hform with ⟨hcolumn, rfl⟩ | ⟨column, cmp, hcolumn, _, hcmp, _, rfl⟩
  · simp only [nodeToCond, Cond.truth, Cond.truths, Truth.all, Truth.and_holds, FilterDef.pred,
      hoperator, hcolumn]
  · simp only [nodeToCond, Cond.truth, Cond.truths, Truth.all, Truth.and_holds, FilterDef.pred,
      hoperator, hcolumn, hcmp, columnCompareExpr]

namespace FilterNode

structure Fits (depth count : ℕ) (node : FilterNode) : Prop where
  depth : depth + node.depth ≤ maxFilterDepth + 1
  size : count + node.size ≤ maxFilterNodes
  populated : node.Populated
  valid : ∀ f ∈ node.leaves, f.Valid

/-- What it takes for the trees of a group to be converted. -/
structure AllFit (depth count : ℕ) (nodes : List FilterNode) : Prop where
  depth : depth + depths nodes ≤ maxFilterDepth + 1
  size : count + sizes nodes ≤ maxFilterNodes
  populated : AllPopulated nodes
  valid : ∀ f ∈ leavesOf nodes, f.Valid

theorem allFit_cons {depth count : ℕ} {node : FilterNode} {nodes : List FilterNode} :
    AllFit depth count (node :: nodes) ↔
      node.Fits depth count ∧ AllFit depth (count + node.size) nodes := by
  constructor
  · rintro ⟨hdepth, hsize, hpopulated, hvalid⟩
    rw [depths] at hdepth
    rw [sizes] at hsize
    exact ⟨⟨by omega, by omega, hpopulated.1, fun f hf ↦ hvalid f (List.mem_append_left _ hf)⟩,
      ⟨by omega, by omega, hpopulated.2, fun f hf ↦ hvalid f (List.mem_append_right _ hf)⟩⟩
  · rintro ⟨hnode, hnodes⟩
    have hdepth := hnode.depth
    have hdepths := hnodes.depth
    have hsize := hnodes.size
    refine ⟨by rw [depths]; omega, by rw [sizes]; omega, ⟨hnode.populated, hnodes.populated⟩, ?_⟩
    exact fun f hf ↦ (List.mem_append.mp hf).elim (hnode.valid f) (hnodes.valid f)

/-- A group fits when it is no deeper than allowed, is counted, has a child, and its children fit
one level further down. -/
theorem fits_all_iff {depth count : ℕ} {children : List FilterNode} :
    (all children).Fits depth count ↔ depth ≤ maxFilterDepth ∧ count + 1 ≤ maxFilterNodes ∧
      children ≠ [] ∧ AllFit (depth + 1) (count + 1) children := by
  constructor
  · rintro ⟨hdepth, hsize, ⟨hne, hpopulated⟩, hvalid⟩
    rw [FilterNode.depth] at hdepth
    rw [FilterNode.size] at hsize
    exact ⟨by omega, by omega, hne, by omega, by omega, hpopulated, hvalid⟩
  · rintro ⟨_, _, hne, hdepth, hsize, hpopulated, hvalid⟩
    exact ⟨by rw [FilterNode.depth]; omega, by rw [FilterNode.size]; omega, ⟨hne, hpopulated⟩,
      hvalid⟩

theorem fits_any_iff {depth count : ℕ} {children : List FilterNode} :
    (any children).Fits depth count ↔ (all children).Fits depth count :=
  ⟨fun h ↦ ⟨h.depth, h.size, h.populated, h.valid⟩, fun h ↦ ⟨h.depth, h.size, h.populated, h.valid⟩⟩

theorem fits_leaf_iff {depth count : ℕ} {f : FilterDef} :
    (leaf f).Fits depth count ↔ depth ≤ maxFilterDepth ∧ count + 1 ≤ maxFilterNodes ∧ f.Valid := by
  constructor
  · rintro ⟨hdepth, hsize, _, hvalid⟩
    rw [FilterNode.depth] at hdepth
    rw [FilterNode.size] at hsize
    exact ⟨by omega, hsize, hvalid f (List.mem_singleton.mpr rfl)⟩
  · rintro ⟨hdepth, hsize, hvalid⟩
    exact ⟨by rw [FilterNode.depth]; omega, hsize, trivial,
      fun g hg ↦ (List.mem_singleton.mp hg) ▸ hvalid⟩

end FilterNode

theorem group_eq_ok_iff {children : List FilterNode} {message : String}
    {converted : Except WaferError (List FilterTree × ℕ)} {group : List FilterTree → FilterTree}
    {r : FilterTree × ℕ} :
    (if children.isEmpty then .error (invalid message)
      else converted.map fun (trees, n) ↦ (group trees, n)) = Except.ok r ↔
        children ≠ [] ∧ ∃ trees n, converted = .ok (trees, n) ∧ r = (group trees, n) := by
  split
  next hempty => simp only [reduceCtorEq, ne_eq, List.isEmpty_iff.mp hempty, not_true, false_and]
  next hempty =>
    rw [Fallible.map_eq_ok]
    constructor
    · rintro ⟨⟨trees, n⟩, hconverted, rfl⟩
      exact ⟨fun hnil ↦ hempty (List.isEmpty_iff.mpr hnil), trees, n, hconverted, rfl⟩
    · rintro ⟨_, trees, n, hconverted, rfl⟩
      exact ⟨(trees, n), hconverted, rfl⟩

theorem convertNode_eq_ok_iff {depth count : ℕ} {node : FilterNode} {r : FilterTree × ℕ} :
    convertNode quote depth node count = .ok r ↔
      depth ≤ maxFilterDepth ∧ count + 1 ≤ maxFilterNodes ∧
        match node with
        | .leaf f => ∃ tree, convertLeaf quote f = .ok tree ∧ r = (tree, count + 1)
        | .all children => children ≠ [] ∧ ∃ trees n,
            convertNodes quote (depth + 1) children (count + 1) = .ok (trees, n) ∧
              r = (.all trees, n)
        | .any children => children ≠ [] ∧ ∃ trees n,
            convertNodes quote (depth + 1) children (count + 1) = .ok (trees, n) ∧
              r = (.any trees, n) := by
  rw [convertNode.eq_def]
  split
  next hdeep => simp only [reduceCtorEq, Nat.not_le.mpr hdeep, false_and]
  next hdepth =>
    split
    next hmany => simp only [reduceCtorEq, Nat.not_le.mpr hmany, false_and, and_false]
    next hcount =>
      simp only [Nat.not_lt.mp hdepth, Nat.not_lt.mp hcount, true_and]
      cases node with
      | leaf f =>
        rw [Fallible.map_eq_ok]
        exact exists_congr fun tree ↦ and_congr_right fun _ ↦ eq_comm
      | all children => exact group_eq_ok_iff
      | any children => exact group_eq_ok_iff

theorem convertNodes_cons_eq_ok_iff {depth count : ℕ} {node : FilterNode} {nodes : List FilterNode}
    {r : List FilterTree × ℕ} :
    convertNodes quote depth (node :: nodes) count = .ok r ↔
      ∃ tree n trees m, convertNode quote depth node count = .ok (tree, n) ∧
        convertNodes quote depth nodes n = .ok (trees, m) ∧ r = (tree :: trees, m) := by
  rw [convertNodes, Fallible.bind_eq_ok]
  constructor
  · rintro ⟨⟨tree, n⟩, htree, h⟩
    obtain ⟨⟨trees, m⟩, htrees, h⟩ := Fallible.bind_eq_ok.mp h
    exact ⟨tree, n, trees, m, htree, htrees, (Except.ok.inj h).symm⟩
  · rintro ⟨tree, n, trees, m, htree, htrees, rfl⟩
    exact ⟨(tree, n), htree, Fallible.bind_eq_ok.mpr ⟨(trees, m), htrees, rfl⟩⟩

mutual

theorem count_of_convertNode : ∀ {node : FilterNode} {depth count : ℕ} {tree : FilterTree} {n : ℕ},
    convertNode quote depth node count = .ok (tree, n) → n = count + node.size
  | .leaf _, _, _, _, _, h => by
    obtain ⟨_, _, _, _, hr⟩ := convertNode_eq_ok_iff.mp h
    rw [FilterNode.size, (Prod.mk.inj hr).2]
  | .all children, _, _, _, _, h => by
    obtain ⟨_, _, _, trees, m, htrees, hr⟩ := convertNode_eq_ok_iff.mp h
    have hm := count_of_convertNodes htrees
    rw [FilterNode.size, (Prod.mk.inj hr).2]
    omega
  | .any children, _, _, _, _, h => by
    obtain ⟨_, _, _, trees, m, htrees, hr⟩ := convertNode_eq_ok_iff.mp h
    have hm := count_of_convertNodes htrees
    rw [FilterNode.size, (Prod.mk.inj hr).2]
    omega

theorem count_of_convertNodes :
    ∀ {nodes : List FilterNode} {depth count : ℕ} {trees : List FilterTree} {n : ℕ},
      convertNodes quote depth nodes count = .ok (trees, n) → n = count + FilterNode.sizes nodes
  | [], _, _, _, _, h => by
    rw [convertNodes] at h
    exact (Prod.mk.inj (Except.ok.inj h)).2.symm
  | node :: nodes, _, _, _, _, h => by
    obtain ⟨tree, n, trees, m, htree, htrees, hr⟩ := convertNodes_cons_eq_ok_iff.mp h
    have hn := count_of_convertNode htree
    have hm := count_of_convertNodes htrees
    rw [FilterNode.sizes, (Prod.mk.inj hr).2]
    omega

end

theorem exists_convertNode_any_iff {children : List FilterNode} {depth count : ℕ} :
    (∃ r, convertNode quote depth (.any children) count = .ok r) ↔
      ∃ r, convertNode quote depth (.all children) count = .ok r := by
  constructor
  · rintro ⟨r, h⟩
    obtain ⟨hdepth, hcount, hne, trees, n, htrees, _⟩ := convertNode_eq_ok_iff.mp h
    exact ⟨_, convertNode_eq_ok_iff.mpr ⟨hdepth, hcount, hne, trees, n, htrees, rfl⟩⟩
  · rintro ⟨r, h⟩
    obtain ⟨hdepth, hcount, hne, trees, n, htrees, _⟩ := convertNode_eq_ok_iff.mp h
    exact ⟨_, convertNode_eq_ok_iff.mpr ⟨hdepth, hcount, hne, trees, n, htrees, rfl⟩⟩

theorem exists_convertNode_all_iff {children : List FilterNode} {depth count : ℕ}
    (hchildren : depth + 1 ≤ maxFilterDepth + 1 → count + 1 ≤ maxFilterNodes →
      ((∃ r, convertNodes quote (depth + 1) children (count + 1) = .ok r) ↔
        FilterNode.AllFit (depth + 1) (count + 1) children)) :
    (∃ r, convertNode quote depth (.all children) count = .ok r) ↔
      (FilterNode.all children).Fits depth count := by
  rw [FilterNode.fits_all_iff]
  constructor
  · rintro ⟨r, h⟩
    obtain ⟨hdepth, hcount, hne, trees, n, htrees, _⟩ := convertNode_eq_ok_iff.mp h
    exact ⟨hdepth, hcount, hne, (hchildren (by omega) hcount).mp ⟨_, htrees⟩⟩
  · rintro ⟨hdepth, hcount, hne, hfit⟩
    obtain ⟨⟨trees, n⟩, htrees⟩ := (hchildren (by omega) hcount).mpr hfit
    exact ⟨_, convertNode_eq_ok_iff.mpr ⟨hdepth, hcount, hne, trees, n, htrees, rfl⟩⟩

mutual

theorem exists_convertNode_eq_ok_iff : ∀ {node : FilterNode} {depth count : ℕ},
    (∃ r, convertNode quote depth node count = .ok r) ↔ node.Fits depth count
  | .leaf f, depth, count => by
    rw [FilterNode.fits_leaf_iff, ← exists_convertLeaf_eq_ok_iff]
    constructor
    · rintro ⟨r, h⟩
      obtain ⟨hdepth, hcount, tree, htree, _⟩ := convertNode_eq_ok_iff.mp h
      exact ⟨hdepth, hcount, tree, htree⟩
    · rintro ⟨hdepth, hcount, tree, htree⟩
      exact ⟨_, convertNode_eq_ok_iff.mpr ⟨hdepth, hcount, tree, htree, rfl⟩⟩
  | .all children, depth, count => exists_convertNode_all_iff exists_convertNodes_eq_ok_iff
  | .any children, depth, count => by
    rw [FilterNode.fits_any_iff, exists_convertNode_any_iff]
    exact exists_convertNode_all_iff exists_convertNodes_eq_ok_iff

theorem exists_convertNodes_eq_ok_iff : ∀ {nodes : List FilterNode} {depth count : ℕ},
    depth ≤ maxFilterDepth + 1 → count ≤ maxFilterNodes →
      ((∃ r, convertNodes quote depth nodes count = .ok r) ↔ FilterNode.AllFit depth count nodes)
  | [], depth, count, hdepth, hcount =>
    ⟨fun _ ↦ ⟨hdepth, hcount, trivial, fun _ hf ↦ absurd hf List.not_mem_nil⟩,
      fun _ ↦ ⟨_, convertNodes.eq_1 ..⟩⟩
  | node :: nodes, depth, count, hdepth, _ => by
    rw [FilterNode.allFit_cons, ← exists_convertNode_eq_ok_iff]
    constructor
    · rintro ⟨r, h⟩
      obtain ⟨tree, n, trees, m, htree, htrees, _⟩ := convertNodes_cons_eq_ok_iff.mp h
      obtain rfl := count_of_convertNode htree
      have hfits := exists_convertNode_eq_ok_iff.mp ⟨_, htree⟩
      exact ⟨⟨_, htree⟩, (exists_convertNodes_eq_ok_iff hdepth hfits.size).mp ⟨_, htrees⟩⟩
    · rintro ⟨⟨⟨tree, n⟩, htree⟩, hfit⟩
      obtain rfl := count_of_convertNode htree
      have hfits := exists_convertNode_eq_ok_iff.mp ⟨_, htree⟩
      obtain ⟨⟨trees, m⟩, htrees⟩ := (exists_convertNodes_eq_ok_iff hdepth hfits.size).mpr hfit
      exact ⟨_, convertNodes_cons_eq_ok_iff.mpr ⟨tree, _, trees, m, htree, htrees, rfl⟩⟩

end

mutual

theorem truth_of_convertNode (toDouble : JsonNumber → UInt64) (backend : Backend)
    (judge : SqlPred → Truth) :
    ∀ {node : FilterNode} {depth count : ℕ} {tree : FilterTree} {n : ℕ},
      convertNode quote depth node count = .ok (tree, n) →
        (nodeToCond toDouble backend tree).truth judge =
          node.truth fun f ↦ judge (f.pred toDouble backend)
  | .leaf f, _, _, _, _, h => by
    obtain ⟨_, _, tree, htree, hr⟩ := convertNode_eq_ok_iff.mp h
    rw [(Prod.mk.inj hr).1, truth_of_convertLeaf htree, FilterNode.truth]
  | .all children, _, _, _, _, h => by
    obtain ⟨_, _, _, trees, m, htrees, hr⟩ := convertNode_eq_ok_iff.mp h
    rw [(Prod.mk.inj hr).1, nodeToCond, Cond.truth, FilterNode.truth,
      truths_of_convertNodes toDouble backend judge htrees]
  | .any children, _, _, _, _, h => by
    obtain ⟨_, _, _, trees, m, htrees, hr⟩ := convertNode_eq_ok_iff.mp h
    rw [(Prod.mk.inj hr).1, nodeToCond, Cond.truth, FilterNode.truth,
      truths_of_convertNodes toDouble backend judge htrees]

theorem truths_of_convertNodes (toDouble : JsonNumber → UInt64) (backend : Backend)
    (judge : SqlPred → Truth) :
    ∀ {nodes : List FilterNode} {depth count : ℕ} {trees : List FilterTree} {n : ℕ},
      convertNodes quote depth nodes count = .ok (trees, n) →
        Cond.truths judge (nodesToConds toDouble backend trees) =
          FilterNode.truths (fun f ↦ judge (f.pred toDouble backend)) nodes
  | [], _, _, _, _, h => by
    rw [convertNodes] at h
    rw [← (Prod.mk.inj (Except.ok.inj h)).1]
    rfl
  | node :: nodes, _, _, _, _, h => by
    obtain ⟨tree, n, trees, m, htree, htrees, hr⟩ := convertNodes_cons_eq_ok_iff.mp h
    rw [(Prod.mk.inj hr).1, nodesToConds, Cond.truths, FilterNode.truths,
      truth_of_convertNode toDouble backend judge htree,
      truths_of_convertNodes toDouble backend judge htrees]

end

/-- A forest is admitted exactly when it is within its bounds, none of its groups is empty and all
its comparisons make sense. -/
theorem exists_convertFilterTree_eq_ok_iff {nodes : List FilterNode} :
    (∃ trees, convertFilterTree quote nodes = .ok trees) ↔ FilterNode.Admissible nodes := by
  have hadmitted : (∃ trees, convertFilterTree quote nodes = .ok trees) ↔
      ∃ r, convertNodes quote 1 nodes 0 = .ok r := by
    simp only [convertFilterTree, Fallible.map_eq_ok]
    exact ⟨fun ⟨_, r, h, _⟩ ↦ ⟨r, h⟩, fun ⟨r, h⟩ ↦ ⟨_, r, h, rfl⟩⟩
  rw [hadmitted, exists_convertNodes_eq_ok_iff (by decide) (by decide)]
  constructor
  · rintro ⟨hdepth, hsize, hpopulated, hvalid⟩
    exact ⟨by omega, by omega, hpopulated, hvalid⟩
  · rintro ⟨hdepth, hsize, hpopulated, hvalid⟩
    exact ⟨by omega, by omega, hpopulated, hvalid⟩

theorem whereTruth_of_convertFilterTree {nodes : List FilterNode} {trees : List FilterTree}
    (h : convertFilterTree quote nodes = .ok trees) (toDouble : JsonNumber → UInt64)
    (backend : Backend) (judge : SqlPred → Truth) :
    whereTruth judge (buildConditionTree toDouble trees backend) =
      FilterNode.forestTruth (fun f ↦ judge (f.pred toDouble backend)) nodes := by
  obtain ⟨⟨trees, n⟩, htrees, rfl⟩ := Fallible.map_eq_ok.mp h
  rw [whereTruth_buildConditionTree, truths_of_convertNodes toDouble backend judge htrees,
    FilterNode.forestTruth]

/-- **Filter forests keep their meaning.** A forest is admitted exactly when it is within its
bounds, none of its groups is empty and all its comparisons make sense. Of any row, then, its
`WHERE` and its expression both say what the forest says: all its trees together, of an `all` all
its children together, of an `any` any of them. -/
theorem convertFilterTree_keeps_meaning (quote : String → String) (nodes : List FilterNode) :
    ((∃ trees, convertFilterTree quote nodes = .ok trees) ↔ FilterNode.Admissible nodes) ∧
      ∀ trees, convertFilterTree quote nodes = .ok trees →
        ∀ (toDouble : JsonNumber → UInt64) (backend : Backend) {Row : Type}
          (judge : Row → SqlPred → Truth) (row : Row),
          whereTruth (judge row) (buildConditionTree toDouble trees backend) =
              FilterNode.forestTruth (fun f ↦ judge row (f.pred toDouble backend)) nodes ∧
            (treeToSimpleExpr toDouble trees backend).truth (judge row) =
              FilterNode.forestTruth (fun f ↦ judge row (f.pred toDouble backend)) nodes := by
  refine ⟨exists_convertFilterTree_eq_ok_iff, fun trees htrees toDouble backend Row judge row ↦ ?_⟩
  have hwhere := whereTruth_of_convertFilterTree htrees toDouble backend (judge row)
  exact ⟨hwhere, (truth_treeToSimpleExpr toDouble trees backend).trans hwhere⟩

/-- A column compared with another that is missing says nothing, and a group in which it stands
beside a comparison that holds is settled by that one. -/
theorem convertFilterTree_keeps_meaning_any :
    let nodes : List FilterNode := [.any [.leaf ⟨"used", "lt", .null, some "quota"⟩,
      .leaf ⟨"kind", "eq", .string "free", none⟩]]
    let trees : List FilterTree := [.any [.columnCompare ⟨"used", .lessThan, "quota"⟩,
      .leaf ⟨"kind", .equal, .string "free"⟩]]
    let judge : Unit → SqlPred → Truth := fun _ p ↦
      match p with
      | .compareColumns _ _ _ => .unknown
      | _ => .holds
    convertFilterTree id nodes = .ok trees ∧
      whereTruth (judge ()) (buildConditionTree (fun _ ↦ 0) trees .sqlite) = .holds ∧
      (treeToSimpleExpr (fun _ ↦ 0) trees .sqlite).truth (judge ()) = .holds := by
  intro nodes trees judge
  exact ⟨rfl,
    (convertFilterTree_keeps_meaning id nodes).2 trees rfl (fun _ ↦ 0) .sqlite judge ()⟩

end

end WaferRun.Database
