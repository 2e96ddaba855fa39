/-
  ProgramQuery.Proofs.Program.Pattern

  Windows of reverse Polish forms are subtrees.

  A form is read as a stack program: a word that is an operand pushes a value and an
  operator takes two values and pushes one.  A form as a whole leaves one value, and so
  does, at least, every start of it.  A window that began in the left operand of an
  expression and ended in the right one would be made of two such starts and leave two
  values, so the window of a form lies inside an operand or is the whole.
-/

import Mathlib.Data.List.Infix
import ProgramQuery.Proofs.Answer.Regular
import ProgramQuery.Proofs.Program.Lexical

namespace ProgramQuery

namespace Expr

/-! ## Subtrees -/

/-- The first expression is the second one or a part of it. -/
inductive Subtree (e : Expr) : Expr → Prop where
  | whole : Subtree e e
  | left {op : BinOp} {lhs rhs : Expr} (h : Subtree e lhs) : Subtree e (.binary op lhs rhs)
  | right {op : BinOp} {lhs rhs : Expr} (h : Subtree e rhs) : Subtree e (.binary op lhs rhs)

/-! ## Words -/

/-- The word is written for an operator. -/
def IsOperator (word : String) : Prop :=
  ∃ op : BinOp, word = op.text

/-- All operators. -/
def operators : List BinOp :=
  [.add, .sub, .mul, .div, .mod]

theorem mem_operators (op : BinOp) : op ∈ operators := by
  cases op <;> decide

instance (word : String) : Decidable (IsOperator word) :=
  decidable_of_iff (∃ op ∈ operators, word = op.text) (by simp [IsOperator, mem_operators])

theorem not_isOperator_of_name {word : String} (h : Text.isNameString word = true) :
    ¬ IsOperator word := by
  rintro ⟨op, rfl⟩
  revert h
  cases op <;> decide

theorem not_isOperator_of_digits {word : String} (h : Text.isDigitString word = true) :
    ¬ IsOperator word := by
  rintro ⟨op, rfl⟩
  revert h
  cases op <;> decide

theorem text_injective {op op' : BinOp} (h : op.text = op'.text) : op = op' := by
  revert h
  cases op <;> cases op' <;> decide

/-! ## Ends of forms -/

/-- A form that ends in an operand is not the form of an operation. -/
theorem append_operand_ne {word : String} (h : ¬ IsOperator word) {xs ys : List String} {op : BinOp}
    {lhs rhs : Expr} : xs ++ [word] ≠ ys ++ (binary op lhs rhs).rpn := by
  intro h_eq
  rw [rpn, ← List.append_assoc] at h_eq
  have h_last := (List.append_inj' h_eq rfl).2
  exact h ⟨op, List.singleton_inj.1 h_last⟩

/-- Where a form ends, the expression and where it began are known. -/
theorem append_rpn_inj {e f : Expr} (h_e : e.Lexical) (h_f : f.Lexical) {xs ys : List String}
    (h : xs ++ e.rpn = ys ++ f.rpn) : e = f ∧ xs = ys := by
  induction e generalizing f xs ys with
  | var name =>
    cases f with
    | var name' =>
      obtain ⟨h_start, h_last⟩ := List.append_inj' h rfl
      exact ⟨by rw [List.singleton_inj.1 h_last], h_start⟩
    | const digits =>
      have h_last := List.singleton_inj.1 (List.append_inj' h rfl).2
      exact absurd h_last (Text.name_ne_digits h_e h_f)
    | binary op lhs rhs => exact absurd h (append_operand_ne (not_isOperator_of_name h_e))
  | const digits =>
    cases f with
    | var name =>
      have h_last := List.singleton_inj.1 (List.append_inj' h rfl).2
      exact absurd h_last.symm (Text.name_ne_digits h_f h_e)
    | const digits' =>
      obtain ⟨h_start, h_last⟩ := List.append_inj' h rfl
      exact ⟨by rw [List.singleton_inj.1 h_last], h_start⟩
    | binary op lhs rhs => exact absurd h (append_operand_ne (not_isOperator_of_digits h_e))
  | binary op lhs rhs ih_lhs ih_rhs =>
    cases f with
    | var name => exact absurd h.symm (append_operand_ne (not_isOperator_of_name h_f))
    | const digits => exact absurd h.symm (append_operand_ne (not_isOperator_of_digits h_f))
    | binary op' lhs' rhs' =>
      rw [rpn, rpn, ← List.append_assoc, ← List.append_assoc ys] at h
      obtain ⟨h_rest, h_last⟩ := List.append_inj' h rfl
      -- From the end: first the operator, then the right operand, then the left one.
      have h_op : op = op' := text_injective (List.singleton_inj.1 h_last)
      rw [← List.append_assoc, ← List.append_assoc] at h_rest
      obtain ⟨h_rhs, h_rest⟩ := ih_rhs h_e.2 h_f.2 h_rest
      obtain ⟨h_lhs, h_start⟩ := ih_lhs h_e.1 h_f.1 h_rest
      exact ⟨by rw [h_op, h_lhs, h_rhs], h_start⟩

/-- Different expressions have different forms. -/
theorem rpn_inj {e f : Expr} (h_e : e.Lexical) (h_f : f.Lexical) (h : e.rpn = f.rpn) : e = f := by
  have h_forms : [] ++ e.rpn = [] ++ f.rpn := h
  exact (append_rpn_inj h_e h_f h_forms).1

/-! ## Values on the stack -/

/-- How many values a piece of a form leaves more than it takes. -/
def balance : List String → Int
  | [] => 0
  | word :: rest => (if IsOperator word then -1 else 1) + balance rest

theorem balance_append (xs ys : List String) : balance (xs ++ ys) = balance xs + balance ys := by
  induction xs with
  | nil => simp [balance]
  | cons word rest ih =>
    rw [List.cons_append, balance, balance, ih]
    omega

theorem balance_operand {word : String} (h : ¬ IsOperator word) : balance [word] = 1 := by
  simp [balance, h]

theorem balance_operator (op : BinOp) : balance [op.text] = -1 := by
  have h : IsOperator op.text := ⟨op, rfl⟩
  simp [balance, h]

/-- A form leaves one value. -/
theorem balance_rpn {e : Expr} (h : e.Lexical) : balance e.rpn = 1 := by
  induction e with
  | var name => exact balance_operand (not_isOperator_of_name h)
  | const digits => exact balance_operand (not_isOperator_of_digits h)
  | binary op lhs rhs ih_lhs ih_rhs =>
    rw [rpn, balance_append, balance_append, ih_lhs h.1, ih_rhs h.2, balance_operator]
    omega

/-- A start of two joined lists is a start of the first, or the first and a start of the second. -/
theorem start_of_append {start rest xs ys : List String} (h : start ++ rest = xs ++ ys) :
    (∃ more, start ++ more = xs) ∨ ∃ more, start = xs ++ more ∧ more ++ rest = ys := by
  rcases List.append_eq_append_iff.1 h with ⟨more, h_xs, -⟩ | ⟨more, h_start, h_ys⟩
  · exact .inl ⟨more, h_xs.symm⟩
  · exact .inr ⟨more, h_start, h_ys.symm⟩

theorem balance_start_operand {word : String} (h_word : ¬ IsOperator word)
    {start rest : List String} (h_start : start ≠ []) (h : start ++ rest = [word]) :
    1 ≤ balance start := by
  rcases List.append_eq_singleton_iff.1 h with ⟨h_nil, -⟩ | ⟨h_all, -⟩
  · exact absurd h_nil h_start
  · have h_one := balance_operand h_word
    rw [h_all]
    omega

/-- Every start of a form leaves a value at least. -/
theorem balance_start_pos {e : Expr} (h_e : e.Lexical) {start rest : List String}
    (h_start : start ≠ []) (h : start ++ rest = e.rpn) : 1 ≤ balance start := by
  induction e generalizing start rest with
  | var name => exact balance_start_operand (not_isOperator_of_name h_e) h_start h
  | const digits => exact balance_start_operand (not_isOperator_of_digits h_e) h_start h
  | binary op lhs rhs ih_lhs ih_rhs =>
    have h_lhs := balance_rpn h_e.1
    have h_rhs := balance_rpn h_e.2
    rw [rpn, List.append_assoc] at h
    -- The start ends in the left operand, in the right one, or after the operator.
    rcases start_of_append h with ⟨more, h_more⟩ | ⟨more, rfl, h_more⟩
    · exact ih_lhs h_e.1 h_start h_more
    rw [balance_append]
    rcases start_of_append h_more with ⟨last, h_last⟩ | ⟨last, rfl, h_last⟩
    · by_cases h_nil : more = []
      · rw [h_nil, h_lhs]
        simp [balance]
      · have := ih_rhs h_e.2 h_nil h_last
        omega
    · rw [balance_append]
      rcases List.append_eq_singleton_iff.1 h_last with ⟨rfl, -⟩ | ⟨rfl, -⟩
      · rw [balance]
        omega
      · rw [balance_operator]
        omega

/-! ## Windows -/

/-- A form that is a window of two joined forms lies in one of them. -/
theorem window_of_append {e lhs rhs : Expr} (h_e : e.Lexical) (h_rhs : rhs.Lexical)
    {before after : List String} (h : before ++ (e.rpn ++ after) = lhs.rpn ++ rhs.rpn) :
    e.rpn <:+: lhs.rpn ∨ e.rpn <:+: rhs.rpn := by
  rcases List.append_eq_append_iff.1 h with ⟨start, h_lhs, h_rest⟩ | ⟨skipped, -, h_rest⟩
  · rcases List.append_eq_append_iff.1 h_rest with ⟨more, h_start, -⟩ | ⟨more, h_form, h_more⟩
    · exact .inl ⟨before, more, by rw [h_lhs, h_start, List.append_assoc]⟩
    by_cases h_start : start = []
    · right
      rw [h_start, List.nil_append] at h_form
      exact ⟨[], after, by rw [h_form, h_more, List.nil_append]⟩
    by_cases h_end : more = []
    · left
      rw [h_end, List.append_nil] at h_form
      exact ⟨before, [], by rw [h_lhs, h_form, List.append_nil]⟩
    -- The form would be a start of itself followed by a start of the right one: two values.
    have h_one := balance_rpn h_e
    have h_first := balance_start_pos h_e h_start h_form.symm
    have h_second := balance_start_pos h_rhs h_end h_more.symm
    rw [h_form, balance_append] at h_one
    omega
  · exact .inr ⟨skipped, after, by rw [h_rest, List.append_assoc]⟩

theorem subtree_of_rpn_eq {e r : Expr} (h_e : e.Lexical) (h_r : r.Lexical) (h : e.rpn = r.rpn) :
    e.Subtree r := by
  rw [rpn_inj h_e h_r h]
  exact .whole

/-- A form that is a window of another is the form of a subtree. -/
theorem subtree_of_window {e r : Expr} (h_e : e.Lexical) (h_r : r.Lexical)
    (h : e.rpn <:+: r.rpn) : e.Subtree r := by
  induction r with
  | var name =>
    have h_one := (List.infix_singleton_iff e.rpn name).1 h
    exact subtree_of_rpn_eq h_e h_r (h_one.resolve_left e.rpn_ne_nil)
  | const digits =>
    have h_one := (List.infix_singleton_iff e.rpn digits).1 h
    exact subtree_of_rpn_eq h_e h_r (h_one.resolve_left e.rpn_ne_nil)
  | binary op lhs rhs ih_lhs ih_rhs =>
    obtain ⟨before, after, h⟩ := h
    rcases List.eq_nil_or_concat' after with rfl | ⟨after, last, rfl⟩
    · -- The window ends where the form ends, so it is all of it.
      rw [List.append_nil] at h
      have h_whole : before ++ e.rpn = [] ++ (binary op lhs rhs).rpn := h
      rw [(append_rpn_inj h_e h_r h_whole).1]
      exact .whole
    · rw [rpn, ← List.append_assoc] at h
      have h_front := (List.append_inj' h rfl).1
      rw [List.append_assoc] at h_front
      rcases window_of_append h_e h_r.2 h_front with h_in | h_in
      · exact .left (ih_lhs h_r.1 h_in)
      · exact .right (ih_rhs h_r.2 h_in)

theorem Subtree.window {e r : Expr} (h : e.Subtree r) : e.rpn <:+: r.rpn := by
  induction h with
  | whole => exact List.infix_rfl
  | @left op lhs rhs _ ih =>
    rw [rpn, List.append_assoc]
    exact ih.trans (List.prefix_append ..).isInfix
  | @right op lhs rhs _ ih =>
    rw [rpn]
    exact ih.trans (List.infix_append ..)

/-- The forms that are windows of a form are those of the subtrees. -/
theorem isWindow_iff_subtree {e r : Expr} (h_e : e.Lexical) (h_r : r.Lexical) :
    isWindow e.rpn r.rpn = true ↔ e.Subtree r := by
  rw [FactBase.isWindow_iff]
  exact ⟨subtree_of_window h_e h_r, Subtree.window⟩

end Expr

/-! ## Assignments of a program -/

namespace FactBase

variable {p : NumberedProgram} {n : StatementNumber}

theorem assignment_mem_facts (h : p.WellFormed) {var : String} {form : List String} :
    .assignment n var form ∈ p.facts ↔ ∃ e, p.Assigns n var e ∧ form = e.rpn := by
  rw [NumberedProgram.mem_facts_entity h rfl (by simp)]
  simp only [Fact.Describes, NumberedProgram.assigns_iff]
  constructor
  · rintro ⟨s, hs, rfl, tag, e, rfl, rfl⟩
    exact ⟨e, ⟨tag, hs, rfl⟩, rfl⟩
  · rintro ⟨e, ⟨tag, hs, rfl⟩, rfl⟩
    exact ⟨_, hs, rfl, tag, e, rfl, rfl⟩

/-- The base of a program keeps the forms of the right sides. -/
theorem sources_ofProgram (h : p.WellFormed) {form : List String} :
    (ofProgram p).sources[n]? = some form ↔ ∃ var e, p.Assigns n var e ∧ form = e.rpn := by
  rw [ofProgram, sources_finalize]
  rcases sources_addAll {} p.facts n with ⟨given, h_given, var, h_fact⟩ | ⟨h_eq, h_none⟩
  · obtain ⟨e, h_e, rfl⟩ := (assignment_mem_facts h).1 h_fact
    rw [h_given, Option.some.injEq]
    constructor
    · intro h_form
      exact ⟨var, e, h_e, h_form.symm⟩
    · -- A number stands for one assignment, so its form is the one that was given.
      rintro ⟨var', e', h_e', rfl⟩
      rw [(h_e.unique h h_e').2]
  · have h_empty : ({} : FactBase).sources[n]? = none := by simp
    rw [h_eq, h_empty]
    constructor
    · intro h_form
      cases h_form
    · rintro ⟨var, e, h_e, rfl⟩
      exact absurd ((assignment_mem_facts h).2 ⟨e, h_e, rfl⟩) (h_none var e.rpn)

/-- The assignments that match a pattern are those whose right side has a form that does. -/
theorem mem_assignmentsMatching (h : p.WellFormed) {mode : MatchMode} {pattern : List String} :
    n ∈ (ofProgram p).assignmentsMatching mode pattern ↔
      ∃ var r, p.Assigns n var r ∧ mode.accepts pattern r.rpn = true := by
  rw [assignmentsMatching, List.mem_filter, assignmentMatches]
  constructor
  · rintro ⟨-, h_match⟩
    split at h_match
    · cases h_match
    · rename_i form h_form
      obtain ⟨var, r, h_assign, rfl⟩ := (sources_ofProgram h).1 h_form
      exact ⟨var, r, h_assign, h_match⟩
  · rintro ⟨var, r, h_assign, h_match⟩
    have h_target := (contains_targets_iff_assigns h).2 ⟨r, h_assign⟩
    refine ⟨(mem_ofType_assign_iff h).2 ⟨var, h_target⟩, ?_⟩
    rw [(sources_ofProgram h).2 ⟨var, r, h_assign, rfl⟩]
    exact h_match

/-- Patterns are structural.  The assignments that match an expression in part are those with
    the expression as a subtree of their right side, and those that match it as a whole have it
    as their right side.  For lexical expressions in general, the windows of a form that are
    forms themselves are those of the subtrees, and a form has one expression. -/
theorem matching_iff_subtree {source text : String} {p : Program} {e : Expr}
    (h : Program.read source = .ok p) (h_e : Expr.read text = .ok e) :
    (∀ n, n ∈ (ofProgram p.numbered).assignmentsMatching .part e.rpn ↔
      ∃ var r, p.numbered.Assigns n var r ∧ e.Subtree r) ∧
    (∀ n, n ∈ (ofProgram p.numbered).assignmentsMatching .whole e.rpn ↔
      ∃ var, p.numbered.Assigns n var e) ∧
    (∀ e r : Expr, e.Lexical → r.Lexical →
      (isWindow e.rpn r.rpn = true ↔ e.Subtree r) ∧ (e.rpn = r.rpn ↔ e = r)) := by
  have h_wf := Program.wellFormed_of_read h
  have h_lexical := Expr.lexical_of_read h_e
  refine ⟨fun n => ?_, fun n => ?_, fun e r h_e h_r => ?_⟩
  · rw [mem_assignmentsMatching h_wf]
    refine exists_congr fun var => exists_congr fun r => and_congr_right fun h_assign => ?_
    have h_r := (Program.lexical_of_assigns h h_assign).2
    rw [← Expr.isWindow_iff_subtree h_lexical h_r]
    simp [MatchMode.accepts, e.rpn_ne_nil]
  · rw [mem_assignmentsMatching h_wf]
    refine exists_congr fun var => ?_
    simp only [MatchMode.accepts, beq_iff_eq]
    constructor
    · rintro ⟨r, h_assign, h_same⟩
      rwa [Expr.rpn_inj h_lexical (Program.lexical_of_assigns h h_assign).2 h_same.symm]
    · intro h_assign
      exact ⟨e, h_assign, rfl⟩
  · exact ⟨Expr.isWindow_iff_subtree h_e h_r, Expr.rpn_inj h_e h_r, fun h_same => h_same ▸ rfl⟩

/-- The sum `a + b` is a part of `a + b + c`, which groups to the left, but not of `a + b * c`. -/
theorem matching_follows_grouping :
    ∃ p, Program.read
        "procedure main \x7b x = a + b * c; y = a + b + c; z = (a + b); \x7d" = .ok p ∧
      ∃ e, Expr.read "a + b" = .ok e ∧
        1 ∉ (ofProgram p.numbered).assignmentsMatching .part e.rpn ∧
        2 ∈ (ofProgram p.numbered).assignmentsMatching .part e.rpn ∧
        2 ∉ (ofProgram p.numbered).assignmentsMatching .whole e.rpn ∧
        3 ∈ (ofProgram p.numbered).assignmentsMatching .whole e.rpn := by
  refine exists_ok_of_test (fun p =>
    p.numbered.Assigns 1 "x" (.binary .add (.var "a") (.binary .mul (.var "b") (.var "c"))) ∧
    p.numbered.Assigns 2 "y" (.binary .add (.binary .add (.var "a") (.var "b")) (.var "c")) ∧
    p.numbered.Assigns 3 "z" (.binary .add (.var "a") (.var "b"))) (by decide +kernel)
    fun p h_read h_test => ?_
  obtain ⟨h_x, h_y, h_z⟩ := of_decide_eq_true h_test
  have h_wf := Program.wellFormed_of_read h_read
  refine exists_ok_of_test (fun e => e = .binary .add (.var "a") (.var "b")) (by decide +kernel)
    fun e h_e h_test => ?_
  obtain ⟨h_part, h_whole, -⟩ := matching_iff_subtree h_read h_e
  obtain rfl := of_decide_eq_true h_test
  refine ⟨fun h => ?_, (h_part 2).2 ⟨_, _, h_y, .left .whole⟩, fun h => ?_,
    (h_whole 3).2 ⟨_, h_z⟩⟩
  · obtain ⟨var, r, h_r, h_sub⟩ := (h_part 1).1 h
    rw [← (h_x.unique h_wf h_r).2] at h_sub
    -- The parts of `a + b * c` are looked through one by one.
    rcases h_sub with _ | h_sub | h_sub
    · cases h_sub
    · rcases h_sub with _ | h_sub | h_sub <;> cases h_sub
  · obtain ⟨var, h_r⟩ := (h_whole 2).1 h
    cases (h_y.unique h_wf h_r).2

end FactBase

end ProgramQuery
