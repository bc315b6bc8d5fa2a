import Mathlib.Data.List.Basic

/-!
# Three-valued logic

The logic of predicates over values that may be absent: a comparison with an absent value is
neither true nor false, and conjunction and disjunction carry that on unless the other side settles
the answer. What is needed of it is when a conjunction or a disjunction comes out true, and
that folding a list from the left is the same as taking it whole.
-/

/-- What becomes of a predicate. -/
inductive Truth
  | fails | unknown | holds
deriving DecidableEq, Repr

namespace Truth

/-- What is false settles a conjunction. -/
def and : Truth → Truth → Truth
  | fails, _ | _, fails => fails
  | holds, holds => holds
  | _, _ => unknown

/-- What is true settles a disjunction. -/
def or : Truth → Truth → Truth
  | holds, _ | _, holds => holds
  | fails, fails => fails
  | _, _ => unknown

def ofBool (b : Bool) : Truth := if b then holds else fails

/-- The conjunction of a list; there is nothing to fail in an empty one. -/
def all : List Truth → Truth
  | [] => holds
  | t :: ts => t.and (all ts)

/-- The disjunction of a list; there is nothing to hold in an empty one. -/
def any : List Truth → Truth
  | [] => fails
  | t :: ts => t.or (any ts)

@[simp] theorem and_holds (t : Truth) : t.and holds = t := by cases t <;> rfl

@[simp] theorem or_fails (t : Truth) : t.or fails = t := by cases t <;> rfl

theorem and_assoc (a b c : Truth) : (a.and b).and c = a.and (b.and c) := by
  cases a <;> cases b <;> cases c <;> rfl

theorem or_assoc (a b c : Truth) : (a.or b).or c = a.or (b.or c) := by
  cases a <;> cases b <;> cases c <;> rfl

theorem foldl_and (t : Truth) (ts : List Truth) : ts.foldl and t = t.and (all ts) := by
  induction ts generalizing t with
  | nil => exact (and_holds t).symm
  | cons u ts ih => rw [List.foldl_cons, ih, and_assoc, all]

theorem foldl_or (t : Truth) (ts : List Truth) : ts.foldl or t = t.or (any ts) := by
  induction ts generalizing t with
  | nil => exact (or_fails t).symm
  | cons u ts ih => rw [List.foldl_cons, ih, or_assoc, any]

end Truth
