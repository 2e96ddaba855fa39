/-
  ProgramQuery.Proofs.Facts.Integrity

  The stores of a fact base agree with each other.

  The stores of the base of a program are filled from separate lists of facts, and
  nothing checks one against another.  Still every number, variable, procedure and
  constant in one of them is registered (`Resolved`), because all of them are found
  in the statements of the program and every statement registers what it
  mentions.  `Intact` says in addition what is registered, which statements have names
  and controlling variables, and which ones can be related by Affects.
-/

import ProgramQuery.Proofs.Facts.Affects
import ProgramQuery.Proofs.Facts.Nesting
import ProgramQuery.Proofs.Program.Pattern

namespace ProgramQuery

open Facts

/-! ## Constants -/

/-- The expression mentions the constant. -/
def Expr.MentionsConstant (digits : String) : Expr → Prop
  | .var _ => False
  | .const text => text = digits
  | .binary _ lhs rhs => lhs.MentionsConstant digits ∨ rhs.MentionsConstant digits

/-- The condition mentions the constant. -/
def Cond.MentionsConstant (digits : String) : Cond → Prop
  | .rel _ lhs rhs => lhs.MentionsConstant digits ∨ rhs.MentionsConstant digits
  | .not arg => arg.MentionsConstant digits
  | .and lhs rhs => lhs.MentionsConstant digits ∨ rhs.MentionsConstant digits
  | .or lhs rhs => lhs.MentionsConstant digits ∨ rhs.MentionsConstant digits

/-- The statement itself mentions the constant in its expression or condition. -/
def Stmt.MentionsConstant {α : Type} (digits : String) : Stmt α → Prop
  | .simple _ (.assign _ e) => e.MentionsConstant digits
  | .whileLoop _ cond _ => cond.MentionsConstant digits
  | .ifElse _ cond _ _ => cond.MentionsConstant digits
  | _ => False

theorem Expr.mem_constants {digits : String} {e : Expr} :
    digits ∈ e.constants ↔ e.MentionsConstant digits := by
  induction e with
  | var name => simp [constants, MentionsConstant]
  | const text => simp [constants, MentionsConstant]
  | binary op lhs rhs ih_lhs ih_rhs => simp [constants, MentionsConstant, ih_lhs, ih_rhs]

theorem Cond.mem_constants {digits : String} {c : Cond} :
    digits ∈ c.constants ↔ c.MentionsConstant digits := by
  induction c with
  | rel op lhs rhs => simp [constants, MentionsConstant, Expr.mem_constants]
  | not arg ih => simp [constants, MentionsConstant, ih]
  | and lhs rhs ih_lhs ih_rhs => simp [constants, MentionsConstant, ih_lhs, ih_rhs]
  | or lhs rhs ih_lhs ih_rhs => simp [constants, MentionsConstant, ih_lhs, ih_rhs]

theorem Stmt.hasConstant_iff {digits : String} {s : Stmt StatementId} :
    s.HasConstant digits ↔ s.MentionsConstant digits := by
  cases s with
  | simple tag action =>
    cases action <;> simp [HasConstant, MentionsConstant, Expr.mem_constants]
  | whileLoop tag cond body => exact Cond.mem_constants
  | ifElse tag cond thenBranch elseBranch => exact Cond.mem_constants

/-- The words of the reverse Polish form are operators and what the expression mentions. -/
theorem Expr.mem_rpn {word : String} {e : Expr} (h : word ∈ e.rpn) :
    IsOperator word ∨ e.Mentions word ∨ e.MentionsConstant word := by
  induction e with
  | var name =>
    rw [rpn, List.mem_singleton] at h
    exact .inr (.inl h.symm)
  | const text =>
    rw [rpn, List.mem_singleton] at h
    exact .inr (.inr h.symm)
  | binary op lhs rhs ih_lhs ih_rhs =>
    rw [rpn, List.mem_append, List.mem_append, List.mem_singleton] at h
    rcases h with (h | h) | h
    · exact (ih_lhs h).imp_right (Or.imp .inl .inl)
    · exact (ih_rhs h).imp_right (Or.imp .inr .inr)
    · exact .inl ⟨op, h⟩

/-! ## Registered members -/

/-- The first members of all pairs are of one sort, and the second ones of another. -/
def Facts.PairStore.Within {α β : Type} [Ord α] [Std.TransOrd α] [Ord β] [Std.TransOrd β]
    (store : PairStore α β) (P : α → Prop) (Q : β → Prop) : Prop :=
  ∀ a b, store.contains a b → P a ∧ Q b

/-- The sort of the members of a relation is that of the ends of its paths. -/
theorem Facts.PairStore.Within.joined {α : Type} [Ord α] [Std.TransOrd α] {store : PairStore α α}
    {P : α → Prop} (h : store.Within P P) {a c : α} (h_path : store.Joined a c) : P a ∧ P c := by
  induction h_path with
  | single h_step => exact h _ _ h_step
  | tail _ h_step ih => exact ⟨ih.1, (h _ _ h_step).2⟩

namespace FactBase

/-- Whatever occurs in a relation or in the form of a right side is registered. -/
structure Resolved (b : FactBase) : Prop where
  readVars : b.readVars.Within (· ∈ b.statements.all) (· ∈ b.vars)
  printVars : b.printVars.Within (· ∈ b.statements.all) (· ∈ b.vars)
  callees : b.callees.Within (· ∈ b.statements.all) (· ∈ b.procedures)
  targets : b.targets.Within (· ∈ b.statements.all) (· ∈ b.vars)
  sources : ∀ n form, b.sources[n]? = some form → n ∈ b.statements.all ∧
    ∀ word ∈ form, Expr.IsOperator word ∨ word ∈ b.vars ∨ word ∈ b.constants
  ifControl : b.ifControl.Within (· ∈ b.statements.all) (· ∈ b.vars)
  whileControl : b.whileControl.Within (· ∈ b.statements.all) (· ∈ b.vars)
  follows : b.follows.direct.Within (· ∈ b.statements.all) (· ∈ b.statements.all)
  followsStar : b.follows.star.Within (· ∈ b.statements.all) (· ∈ b.statements.all)
  parent : b.parent.direct.Within (· ∈ b.statements.all) (· ∈ b.statements.all)
  parentStar : b.parent.star.Within (· ∈ b.statements.all) (· ∈ b.statements.all)
  calls : b.calls.direct.Within (· ∈ b.procedures) (· ∈ b.procedures)
  callsStar : b.calls.star.Within (· ∈ b.procedures) (· ∈ b.procedures)
  next : b.next.direct.Within (· ∈ b.statements.all) (· ∈ b.statements.all)
  nextStar : b.next.star.Within (· ∈ b.statements.all) (· ∈ b.statements.all)
  modifies : b.modifies.Within (· ∈ b.statements.all) (· ∈ b.vars)
  modifiesProc : b.modifiesProc.Within (· ∈ b.procedures) (· ∈ b.vars)
  uses : b.uses.Within (· ∈ b.statements.all) (· ∈ b.vars)
  usesProc : b.usesProc.Within (· ∈ b.procedures) (· ∈ b.vars)
  affects : b.affects.Within (· ∈ b.statements.all) (· ∈ b.statements.all)

/-- The stores of the names in statements are coherent. -/
structure CoherentNames (b : FactBase) : Prop where
  readVars : b.readVars.Coherent
  printVars : b.printVars.Coherent
  callees : b.callees.Coherent

theorem coherentNames_empty : ({} : FactBase).CoherentNames :=
  ⟨.empty, .empty, .empty⟩

theorem CoherentNames.addAll {b : FactBase} (h : b.CoherentNames) (facts : List Fact) :
    (b.addAll facts).CoherentNames := by
  unfold FactBase.addAll
  induction facts generalizing b with
  | nil => exact h
  | cons f rest ih =>
    apply ih
    cases f with
    | readVar n var => exact { h with readVars := h.readVars.add n var }
    | printVar n var => exact { h with printVars := h.printVars.add n var }
    | callStatement n procedure => exact { h with callees := h.callees.add n procedure }
    | _ => exact { h with }

theorem CoherentNames.finalize {b : FactBase} (h : b.CoherentNames) : b.finalize.CoherentNames :=
  { h with }

/-- The store has one name for every statement of a type, and none for other statements. -/
structure NamesEach (b : FactBase) (store : PairStore StatementNumber String)
    (type : StatementType) : Prop where
  named : ∀ n ∈ b.ofType type, ∃! name, store.contains n name
  typed : ∀ n name, store.contains n name → n ∈ b.ofType type

/-- The fact base registers what the program has, its stores can be looked up both ways and they
    agree with each other. -/
structure Intact (b : FactBase) (p : NumberedProgram) : Prop where
  coherent : b.Coherent ∧ b.CoherentNames
  numbers : ∀ n, n ∈ b.statements.all ↔ 1 ≤ n ∧ n ≤ p.statements.length
  types : ∀ s ∈ p.statements, b.typeOf? (p.number s.tag) = some s.type
  listed : ∀ n t, n ∈ b.ofType t ↔ b.typeOf? n = some t
  partition : ∀ n, n ∈ b.statements.all ↔ ∃! t, n ∈ b.ofType t
  procedures : ∀ name, name ∈ b.procedures ↔ ∃ q ∈ p.procedures, q.name = name
  vars : ∀ var, var ∈ b.vars ↔ ∃ s ∈ p.statements, s.Writes var ∨ s.Mentions var
  constants : ∀ digits, digits ∈ b.constants ↔ ∃ s ∈ p.statements, s.MentionsConstant digits
  resolved : b.Resolved
  readVars : b.NamesEach b.readVars .read
  printVars : b.NamesEach b.printVars .print
  callees : b.NamesEach b.callees .call
  targets : b.NamesEach b.targets .assign
  ifControl : ∀ n var, b.ifControl.contains n var → n ∈ b.ofType .ifElse ∧ b.uses.contains n var
  whileControl : ∀ n var, b.whileControl.contains n var →
    n ∈ b.ofType .whileLoop ∧ b.uses.contains n var
  affects : ∀ a c, b.affects.contains a c →
    a ∈ b.ofType .assign ∧ c ∈ b.ofType .assign ∧ b.next.star.contains a c

variable {p : NumberedProgram} {n : StatementNumber} {var : String}

/-! ## Entities -/

theorem mem_all_addAll (b : FactBase) (facts : List Fact) (n : StatementNumber) :
    n ∈ (b.addAll facts).statements.all ↔
      n ∈ b.statements.all ∨ ∃ t, .statement n t ∈ facts := by
  unfold addAll
  induction facts generalizing b with
  | nil => simp
  | cons f rest ih =>
    have h_add : n ∈ (b.add f).statements.all ↔ n ∈ b.statements.all ∨ ∃ t, f = .statement n t := by
      cases f <;> simp [FactBase.add, StatementIndex.add, or_comm]
    rw [List.foldl_cons, ih, h_add]
    simp only [List.mem_cons, exists_or, or_assoc, eq_comm]

/-- The registered statements are those of the program. -/
theorem mem_all_iff (h : p.WellFormed) :
    n ∈ (ofProgram p).statements.all ↔ ∃ s ∈ p.statements, p.number s.tag = n := by
  refine (mem_all_addAll {} p.facts n).trans ?_
  simp only [NumberedProgram.mem_facts_entity h (f := .statement n _) rfl (by simp), Fact.Describes]
  constructor
  · rintro (h_empty | ⟨t, s, hs, rfl, -⟩)
    · simp at h_empty
    · exact ⟨s, hs, rfl⟩
  · rintro ⟨s, hs, rfl⟩
    exact .inr ⟨s.type, s, hs, rfl, rfl⟩

theorem mem_all_of_mem (h : p.WellFormed) {s : Stmt StatementId} (hs : s ∈ p.statements) :
    p.number s.tag ∈ (ofProgram p).statements.all :=
  (mem_all_iff h).2 ⟨s, hs, rfl⟩

/-- The numbers are those from one to the number of statements. -/
theorem mem_all_iff_range (h : p.WellFormed) :
    n ∈ (ofProgram p).statements.all ↔ 1 ≤ n ∧ n ≤ p.statements.length := by
  have h_mem : (∃ s ∈ p.statements, p.number s.tag = n) ↔
      n ∈ p.statements.map fun s => p.number s.tag := by rw [List.mem_map]
  rw [mem_all_iff h, h_mem, h.numbers, List.mem_range'_1, Nat.add_comm, Nat.lt_succ_iff]

/-- A statement is listed under one type. -/
theorem mem_all_iff_existsUnique (h : p.WellFormed) :
    n ∈ (ofProgram p).statements.all ↔ ∃! t, n ∈ (ofProgram p).ofType t := by
  rw [mem_all_iff h]
  constructor
  · rintro ⟨s, hs, rfl⟩
    refine ⟨s.type, (mem_ofType_iff h).2 ⟨s, hs, rfl, rfl⟩, fun t h_t => ?_⟩
    obtain ⟨s', hs', h_number, rfl⟩ := (mem_ofType_iff h).1 h_t
    rw [h.eq_of_number hs' hs h_number.symm]
  · rintro ⟨t, h_t, -⟩
    obtain ⟨s, hs, rfl, -⟩ := (mem_ofType_iff h).1 h_t
    exact ⟨s, hs, rfl⟩

theorem mem_constants_iff (h : p.WellFormed) {digits : String} :
    digits ∈ (ofProgram p).constants ↔ ∃ s ∈ p.statements, s.MentionsConstant digits := by
  simp only [← Stmt.hasConstant_iff]
  exact knows_iff_describes h (f := .constant digits) rfl (by simp) (by simp)

/-! ## Names -/

theorem NamesActions.namesEach {store : PairStore StatementNumber String} {action : String → Action}
    {type : StatementType} (h_store : NamesActions p store action type) (h : p.WellFormed)
    (h_type : ∀ name, (action name).type = type) : (ofProgram p).NamesEach store type where
  named n h_n := by
    obtain ⟨name, h_name⟩ := h_store.exists_contains h h_n
    exact ⟨name, h_name, fun other h_other => h_store.unique h h_other h_name⟩
  typed n name h_name := by
    obtain ⟨s, hs, h_number, tag, rfl⟩ := (h_store.contains n name).1 h_name
    exact (mem_ofType_iff h).2 ⟨_, hs, h_number, (h_type name).symm⟩

theorem namesEach_targets (h : p.WellFormed) :
    (ofProgram p).NamesEach (ofProgram p).targets .assign where
  named n h_n := by
    obtain ⟨name, h_name⟩ := (mem_ofType_assign_iff h).1 h_n
    refine ⟨name, h_name, fun other h_other => ?_⟩
    obtain ⟨e, h_e⟩ := (contains_targets_iff_assigns h).1 h_name
    obtain ⟨e', h_e'⟩ := (contains_targets_iff_assigns h).1 h_other
    exact (h_e'.unique h h_e).1
  typed n name h_name := (mem_ofType_assign_iff h).2 ⟨name, h_name⟩

/-! ## Effects -/

/-- What a statement affects directly is registered. -/
theorem mem_vars_of_direct (h : p.WellFormed) {effect : NumberedProgram.Effect}
    {s : Stmt StatementId} (hs : s ∈ p.statements) (h_direct : effect.Direct s var) :
    var ∈ (ofProgram p).vars := by
  rw [mem_vars_iff h]
  cases effect with
  | modifies => exact ⟨s, hs, .inl h_direct⟩
  | uses => exact ⟨s, hs, .inr h_direct⟩

theorem within_procedureEffects (h : p.WellFormed) (effect : NumberedProgram.Effect) :
    ((ofProgram p).procedureEffects effect).Within (· ∈ (ofProgram p).procedures)
      (· ∈ (ofProgram p).vars) := by
  intro name var h_effect
  have h_affects := (contains_procedureEffects h effect).1 h_effect
  refine ⟨(mem_procedures_iff h).2 h_affects.exists_procedure, ?_⟩
  obtain ⟨q, hq, -, s, hs, h_direct⟩ := h_affects
  exact mem_vars_of_direct h (NumberedProgram.mem_statements.2 ⟨q, hq, hs⟩) h_direct

theorem within_statementEffects (h : p.WellFormed) (effect : NumberedProgram.Effect) :
    ((ofProgram p).statementEffects effect).Within (· ∈ (ofProgram p).statements.all)
      (· ∈ (ofProgram p).vars) := by
  intro n var h_effect
  obtain ⟨s, hs, rfl, t, ht, h_t⟩ := (contains_statementEffects h effect).1 h_effect
  refine ⟨mem_all_of_mem h hs, ?_⟩
  rcases h_t with h_direct | ⟨tag, r, -, h_callee⟩
  · have h_mem : t ∈ p.statements := (NumberedProgram.preorder_infix_statements hs).subset ht
    exact mem_vars_of_direct h h_mem h_direct
  · exact (within_procedureEffects h effect r var h_callee).2

/-- A controlling variable is used by its container. -/
theorem contains_uses_of_mentions (h : p.WellFormed) {s : Stmt StatementId} (hs : s ∈ p.statements)
    (h_mentions : s.Mentions var) : (ofProgram p).uses.contains (p.number s.tag) var :=
  (contains_statementEffects h .uses).2 ⟨s, hs, rfl, s, Stmt.mem_preorder_self s, .inl h_mentions⟩

/-! ## Relations -/

theorem within_follows (h : p.WellFormed) : (ofProgram p).follows.direct.Within
    (· ∈ (ofProgram p).statements.all) (· ∈ (ofProgram p).statements.all) := by
  intro a c h_follows
  obtain ⟨list, h_list, i, h_a, h_c⟩ := contains_follows_iff.1 h_follows
  have h_member : ∀ m, m ∈ p.numbersOf list → m ∈ (ofProgram p).statements.all := by
    intro m h_m
    obtain ⟨s, hs, rfl⟩ := List.mem_map.1 h_m
    exact mem_all_of_mem h (NumberedProgram.mem_statements_of_isList h_list hs)
  exact ⟨h_member a (List.mem_of_getElem? h_a), h_member c (List.mem_of_getElem? h_c)⟩

theorem within_parent (h : p.WellFormed) : (ofProgram p).parent.direct.Within
    (· ∈ (ofProgram p).statements.all) (· ∈ (ofProgram p).statements.all) := by
  intro a c h_parent
  obtain ⟨s, hs, rfl, child, h_child, rfl⟩ := (contains_parent h).1 h_parent
  have h_nested := Stmt.mem_nested_of_child h_child (Stmt.mem_preorder_self child)
  exact ⟨mem_all_of_mem h hs,
    mem_all_of_mem h (NumberedProgram.mem_statements_of_nested hs h_nested)⟩

theorem within_next (h : p.WellFormed) : (ofProgram p).next.direct.Within
    (· ∈ (ofProgram p).statements.all) (· ∈ (ofProgram p).statements.all) := by
  intro a c h_next
  obtain ⟨q, hq, h_edge⟩ := contains_next.1 h_next
  have h_member : ∀ m, Stmt.HasNumber p.number q.body m → m ∈ (ofProgram p).statements.all := by
    rintro m ⟨s, hs, rfl⟩
    exact mem_all_of_mem h (NumberedProgram.mem_statements.2 ⟨q, hq, hs⟩)
  have h_leads := (leads_of_next h hq h_edge).1
  exact ⟨h_member a h_leads.source, h_member c h_leads.target⟩

theorem within_calls (h : p.WellFormed) : (ofProgram p).calls.direct.Within
    (· ∈ (ofProgram p).procedures) (· ∈ (ofProgram p).procedures) := by
  intro a c h_calls
  obtain ⟨q, hq, rfl, hc⟩ := contains_calls.1 h_calls
  exact ⟨(mem_procedures_iff h).2 ⟨q, hq, rfl⟩, (mem_procedures_iff h).2 (h.declared q hq c hc)⟩

/-- A path of Next over given statements is a path of Next. -/
theorem joined_of_nextPath {b : FactBase} {a c : StatementNumber} {between : List StatementNumber}
    (h_path : b.NextPath a between c) : b.next.direct.Joined a c := by
  induction between generalizing a with
  | nil => exact .single (nextPath_nil.1 h_path)
  | cons m rest ih =>
    obtain ⟨h_step, h_path⟩ := nextPath_cons.1 h_path
    exact .head h_step (ih h_path)

/-- Affects joins assignments, along a path of Next. -/
theorem assign_of_affects (h : p.WellFormed) {a c : StatementNumber}
    (h_affects : (ofProgram p).affects.contains a c) :
    a ∈ (ofProgram p).ofType .assign ∧ c ∈ (ofProgram p).ofType .assign ∧
      (ofProgram p).next.star.contains a c := by
  obtain ⟨v, e, w, e', h_a, h_c, -, between, h_path, -⟩ :=
    (influences_ofProgram h).1 (contains_affects_ofFacts.1 h_affects)
  have h_assign : ∀ m var e, p.Assigns m var e → m ∈ (ofProgram p).ofType .assign := by
    intro m var e h_m
    exact (mem_ofType_assign_iff h).2 ⟨var, (contains_targets_iff_assigns h).2 ⟨e, h_m⟩⟩
  exact ⟨h_assign a v e h_a, h_assign c w e' h_c, contains_nextStar.2 (joined_of_nextPath h_path)⟩

/-! ## All stores -/

theorem resolved_ofProgram (h : p.WellFormed) : (ofProgram p).Resolved where
  readVars n var h_read := by
    obtain ⟨s, hs, rfl, tag, rfl⟩ := ((namesActions_readVars h).contains n var).1 h_read
    exact ⟨mem_all_of_mem h hs, (mem_vars_iff h).2 ⟨_, hs, .inl rfl⟩⟩
  printVars n var h_print := by
    obtain ⟨s, hs, rfl, tag, rfl⟩ := ((namesActions_printVars h).contains n var).1 h_print
    exact ⟨mem_all_of_mem h hs, (mem_vars_iff h).2 ⟨_, hs, .inr rfl⟩⟩
  callees n callee h_call := by
    obtain ⟨s, hs, rfl, tag, rfl⟩ := ((namesActions_callees h).contains n callee).1 h_call
    obtain ⟨q, hq, h_body⟩ := NumberedProgram.mem_statements.1 hs
    have h_callee := h.declared q hq callee (ProcedureTree.mem_callees.2 ⟨tag, h_body⟩)
    exact ⟨mem_all_of_mem h hs, (mem_procedures_iff h).2 h_callee⟩
  targets n var h_target := by
    obtain ⟨tag, e, hs, rfl⟩ := (contains_targets_iff h).1 h_target
    exact ⟨mem_all_of_mem h hs, (mem_vars_iff h).2 ⟨_, hs, .inl rfl⟩⟩
  sources n form h_form := by
    obtain ⟨target, e, h_e, rfl⟩ := (sources_ofProgram h).1 h_form
    obtain ⟨tag, hs, rfl⟩ := NumberedProgram.assigns_iff.1 h_e
    refine ⟨mem_all_of_mem h hs, fun word h_word => (Expr.mem_rpn h_word).imp_right (Or.imp ?_ ?_)⟩
    · exact fun h_mentions => (mem_vars_iff h).2 ⟨_, hs, .inr h_mentions⟩
    · exact fun h_mentions => (mem_constants_iff h).2 ⟨_, hs, h_mentions⟩
  ifControl n var h_control := by
    obtain ⟨s, hs, rfl, tag, cond, thenBranch, elseBranch, rfl, h_mentions⟩ :=
      (contains_ifControl_iff h).1 h_control
    exact ⟨mem_all_of_mem h hs, (mem_vars_iff h).2 ⟨_, hs, .inr h_mentions⟩⟩
  whileControl n var h_control := by
    obtain ⟨s, hs, rfl, tag, cond, body, rfl, h_mentions⟩ :=
      (contains_whileControl_iff h).1 h_control
    exact ⟨mem_all_of_mem h hs, (mem_vars_iff h).2 ⟨_, hs, .inr h_mentions⟩⟩
  follows := within_follows h
  followsStar _ _ h_star := (within_follows h).joined (contains_followsStar.1 h_star).joined
  parent := within_parent h
  parentStar _ _ h_star := (within_parent h).joined (contains_parentStar.1 h_star).joined
  calls := within_calls h
  callsStar _ _ h_star := (within_calls h).joined (contains_callsStar.1 h_star)
  next := within_next h
  nextStar _ _ h_star := (within_next h).joined (contains_nextStar.1 h_star)
  modifies := within_statementEffects h .modifies
  modifiesProc := within_procedureEffects h .modifies
  uses := within_statementEffects h .uses
  usesProc := within_procedureEffects h .uses
  affects a c h_affects :=
    (within_next h).joined (contains_nextStar.1 (assign_of_affects h h_affects).2.2)

/-- The fact base of a program that was read is intact: it registers the statements from one on
    with their types and all that the program mentions, its stores refer to nothing else, each
    statement with a name has just one, and controlling variables and Affects are where they can
    be. -/
theorem intact_of_read {source : String} {p : Program} (h_read : Program.read source = .ok p) :
    (ofProgram p.numbered).Intact p.numbered := by
  have h := Program.wellFormed_of_read h_read
  exact
    { coherent := ⟨coherent_ofFacts _, (coherentNames_empty.addAll p.numbered.facts).finalize⟩
      numbers := fun n => mem_all_iff_range h
      types := fun s hs => (typeOf?_ofProgram h).2 ⟨s, hs, rfl, rfl⟩
      listed := fun n t => (typeOf?_eq_some_iff h).symm
      partition := fun n => mem_all_iff_existsUnique h
      procedures := fun name => mem_procedures_iff h
      vars := fun var => mem_vars_iff h
      constants := fun digits => mem_constants_iff h
      resolved := resolved_ofProgram h
      readVars := (namesActions_readVars h).namesEach h fun _ => rfl
      printVars := (namesActions_printVars h).namesEach h fun _ => rfl
      callees := (namesActions_callees h).namesEach h fun _ => rfl
      targets := namesEach_targets h
      ifControl := fun n var h_control => by
        obtain ⟨s, hs, rfl, tag, cond, thenBranch, elseBranch, rfl, h_mentions⟩ :=
          (contains_ifControl_iff h).1 h_control
        exact ⟨(mem_ofType_iff h).2 ⟨_, hs, rfl, rfl⟩, contains_uses_of_mentions h hs h_mentions⟩
      whileControl := fun n var h_control => by
        obtain ⟨s, hs, rfl, tag, cond, body, rfl, h_mentions⟩ :=
          (contains_whileControl_iff h).1 h_control
        exact ⟨(mem_ofType_iff h).2 ⟨_, hs, rfl, rfl⟩, contains_uses_of_mentions h hs h_mentions⟩
      affects := fun a c h_affects => assign_of_affects h h_affects }

/-- Among statements of all types, the one call has one registered callee. -/
theorem callee_registered_once :
    ∃ p, Program.read ("procedure main \x7b read x; while (x > 7) \x7b call show; " ++
        "x = x + 1; \x7d \x7d procedure show \x7b print x; if (x == 9) " ++
        "then \x7b y = x; \x7d else \x7b y = 2; \x7d \x7d") = .ok p ∧
      8 ∈ (ofProgram p.numbered).statements.all ∧ 9 ∉ (ofProgram p.numbered).statements.all ∧
      (∃ name ∈ (ofProgram p.numbered).procedures, (ofProgram p.numbered).callees.contains 3 name ∧
        ∀ other, (ofProgram p.numbered).callees.contains 3 other → other = name) ∧
      ∀ name, ¬ (ofProgram p.numbered).callees.contains 4 name := by
  refine exists_ok_of_test (fun p => decide (
    p.numbered.statements.map (fun s => (p.numbered.number s.tag, s.type)) =
      [(1, .read), (2, .whileLoop), (3, .call), (4, .assign), (5, .print), (6, .ifElse),
        (7, .assign), (8, .assign)])) (by decide +kernel) fun p h_read h_test => ?_
  have h_types := of_decide_eq_true h_test
  have h := intact_of_read h_read
  have h_typed : ∀ n t, (n, t) ∈ p.numbered.statements.map
      (fun s => (p.numbered.number s.tag, s.type)) → (ofProgram p.numbered).typeOf? n = some t := by
    intro n t h_mem
    obtain ⟨s, hs, h_s⟩ := List.mem_map.1 h_mem
    obtain ⟨rfl, rfl⟩ := Prod.mk.inj h_s
    exact h.types s hs
  rw [h_types] at h_typed
  have h_length : p.numbered.statements.length = 8 := by
    rw [← List.length_map fun s => (p.numbered.number s.tag, s.type), h_types]
    rfl
  refine ⟨(h.numbers 8).2 (by rw [h_length]; decide), fun h_nine => ?_, ?_, fun name h_name => ?_⟩
  · have h_range := (h.numbers 9).1 h_nine
    rw [h_length] at h_range
    exact absurd h_range (by decide)
  · obtain ⟨name, h_name, h_unique⟩ :=
      h.callees.named 3 ((h.listed 3 .call).2 (h_typed 3 .call (by decide)))
    exact ⟨name, (h.resolved.callees 3 name h_name).2, h_name, h_unique⟩
  · have h_call := (h.listed 4 .call).1 (h.callees.typed 4 name h_name)
    cases (h_typed 4 .assign (by decide)).symm.trans h_call

end FactBase

end ProgramQuery
