/-
  ProgramQuery.Answer.Value

  The values that synonyms are bound to, and rows of them.

  A value is a statement number or a name; a constant counts as the name that
  its digits spell.  Numbers come before names, and rows are ordered from left to
  right.
-/

import ProgramQuery.Program.Numbering

namespace ProgramQuery

/-- A value of a synonym. -/
inductive Value where
  | number (n : StatementNumber)
  | name (text : String)
  deriving DecidableEq, Repr

namespace Value

/-- A value as it is shown. -/
def text : Value → String
  | .number n => toString n
  | .name text => text

/-- Numbers by size, then names in alphabetical order. -/
protected def compare : Value → Value → Ordering
  | .number a, .number b => Ord.compare a b
  | .number _, .name _ => .lt
  | .name _, .number _ => .gt
  | .name a, .name b => Ord.compare a b

instance : Ord Value := ⟨Value.compare⟩

@[simp] theorem compare_number (a b : StatementNumber) :
    compare (Value.number a) (.number b) = compare a b := rfl

@[simp] theorem compare_name (a b : String) :
    compare (Value.name a) (.name b) = compare a b := rfl

@[simp] theorem compare_number_name (a : StatementNumber) (b : String) :
    compare (Value.number a) (.name b) = .lt := rfl

@[simp] theorem compare_name_number (a : String) (b : StatementNumber) :
    compare (Value.name a) (.number b) = .gt := rfl

instance : Std.TransOrd Value where
  eq_swap {a b} := by
    cases a <;> cases b
    · exact Std.OrientedOrd.eq_swap (α := StatementNumber)
    · rfl
    · rfl
    · exact Std.OrientedOrd.eq_swap (α := String)
  isLE_trans {a b c} h_ab h_bc := by
    -- A name is never at most a number, so only equal kinds are left.
    cases a <;> cases b <;> cases c <;> simp at h_ab h_bc ⊢
    · exact Std.TransOrd.isLE_trans h_ab h_bc
    · exact Std.TransOrd.isLE_trans h_ab h_bc

instance : Std.LawfulEqOrd Value where
  compare_self {a} := by
    cases a
    · exact Std.ReflOrd.compare_self (α := StatementNumber)
    · exact Std.ReflOrd.compare_self (α := String)
  eq_of_compare {a b} h := by
    cases a <;> cases b <;> simp at h
    · rw [h]
    · rw [h]

end Value

/-- A row of values. -/
abbrev Row := List Value

end ProgramQuery
