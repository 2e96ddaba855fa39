/-
  ProgramQuery.Proofs.Answer.Regular

  The fact bases of programs are regular.

  Every number of a program belongs to one statement, so types and attributes are
  unique and the two ways to ask for a type agree.  Follows and Parent go to larger
  numbers, Calls has no cycle and Next leads elsewhere, so none of them relates
  anything to itself.
-/

import ProgramQuery.Proofs.Answer.Domain
import ProgramQuery.Proofs.Answer.Meaning
import ProgramQuery.Proofs.Facts.Effects
import ProgramQuery.Proofs.Flow.NextStar

namespace ProgramQuery

open Facts
open Relation (TransGen)

variable {p : NumberedProgram}

/-! ## Entities -/

/-- A constant in the expression or condition of a statement. -/
def Stmt.HasConstant (digits : String) : Stmt StatementId → Prop
  | .simple _ (.assign _ e) => digits ∈ e.constants
  | .whileLoop _ cond _ => digits ∈ cond.constants
  | .ifElse _ cond _ _ => digits ∈ cond.constants
  | _ => False

/-- The fact says something about the entities in a single statement and its number. -/
def Fact.Describes (n : StatementNumber) (s : Stmt StatementId) : Fact → Prop
  | .variable name => s.Writes name ∨ s.Mentions name
  | .constant digits => s.HasConstant digits
  | .statement m type => m = n ∧ type = s.type
  | .readVar m var => m = n ∧ ∃ tag, s = .simple tag (.read var)
  | .printVar m var => m = n ∧ ∃ tag, s = .simple tag (.print var)
  | .callStatement m callee => m = n ∧ ∃ tag, s = .simple tag (.call callee)
  | .assignment m var rpn => m = n ∧ ∃ tag e, s = .simple tag (.assign var e) ∧ rpn = e.rpn
  | .whileControl m var => m = n ∧ ∃ tag cond body, s = .whileLoop tag cond body ∧ cond.Mentions var
  | .ifControl m var => m = n ∧ ∃ tag cond thenBranch elseBranch,
      s = .ifElse tag cond thenBranch elseBranch ∧ cond.Mentions var
  | _ => False

namespace NumberedProgram

theorem mem_statementFacts {n : StatementNumber} {s : Stmt StatementId} {f : Fact} :
    f ∈ statementFacts n s ↔ f.Describes n s := by
  rw [statementFacts.eq_def]
  split <;> cases f <;> simp [Fact.Describes, Stmt.Writes, Stmt.Mentions, Stmt.HasConstant,
    Expr.mem_vars, Cond.mem_vars, @eq_comm String, and_comm]

/-- Facts about entities other than procedures come from the single statements. -/
theorem mem_facts_entity (h : p.WellFormed) {f : Fact} (h_family : f.family = .entity)
    (h_f : ∀ name, f ≠ .procedure name) :
    f ∈ p.facts ↔ ∃ s ∈ p.statements, f.Describes (p.number s.tag) s := by
  rw [mem_facts, h_family, familyFacts, mem_entityFacts h]
  simp [h_f, mem_statementFacts]

end NumberedProgram

namespace FactBase

/-- The base of a program knows what describes its statements. -/
theorem knows_iff_describes (h : p.WellFormed) {f : Fact} (h_family : f.family = .entity)
    (h_f : ∀ name, f ≠ .procedure name) (h_assignment : ∀ n var rpn, f ≠ .assignment n var rpn) :
    (ofProgram p).Knows f ↔ ∃ s ∈ p.statements, f.Describes (p.number s.tag) s :=
  (knows_ofFacts_iff_mem h_assignment).trans (NumberedProgram.mem_facts_entity h h_family h_f)

theorem mem_procedures_iff (h : p.WellFormed) {name : String} :
    name ∈ (ofProgram p).procedures ↔ ∃ q ∈ p.procedures, q.name = name := by
  refine (knows_ofFacts_iff_mem (g := .procedure name) (by simp)).trans ?_
  rw [NumberedProgram.mem_facts]
  simp [Fact.family, NumberedProgram.familyFacts, NumberedProgram.mem_entityFacts h,
    NumberedProgram.mem_statementFacts, Fact.Describes, @eq_comm _ name]

theorem contains_targets_iff (h : p.WellFormed) {n : StatementNumber} {var : String} :
    (ofProgram p).targets.contains n var = true ↔
      ∃ tag e, .simple tag (.assign var e) ∈ p.statements ∧ p.number tag = n := by
  rw [ofProgram, contains_targets]
  simp only [NumberedProgram.mem_facts_entity h (f := .assignment n var _) rfl (by simp),
    Fact.Describes]
  constructor
  · rintro ⟨_, _, hs, rfl, tag, e, rfl, -⟩
    exact ⟨tag, e, hs, rfl⟩
  · rintro ⟨tag, e, hs, rfl⟩
    exact ⟨_, _, hs, rfl, tag, e, rfl, rfl⟩

/-- The targets of a program are the variables that its statements assign. -/
theorem contains_targets_iff_assigns (h : p.WellFormed) {n : StatementNumber} {var : String} :
    (ofProgram p).targets.contains n var ↔ ∃ e, p.Assigns n var e := by
  rw [contains_targets_iff h, exists_comm]
  simp only [NumberedProgram.assigns_iff]

theorem mem_ofType_iff (h : p.WellFormed) {n : StatementNumber} {t : StatementType} :
    n ∈ (ofProgram p).ofType t ↔ ∃ s ∈ p.statements, n = p.number s.tag ∧ t = s.type := by
  rw [ofType, Std.ExtTreeSet.mem_toList]
  exact knows_iff_describes h (f := .statement n t) rfl (by simp) (by simp)

/-- A number has the type under which it is listed. -/
theorem typeOf?_eq_some_iff (h : p.WellFormed) {n : StatementNumber} {t : StatementType} :
    (ofProgram p).typeOf? n = some t ↔ n ∈ (ofProgram p).ofType t := by
  have h_fact : ∀ u, .statement n u ∈ p.facts ↔ n ∈ (ofProgram p).ofType u := fun u =>
    (NumberedProgram.mem_facts_entity h (f := .statement n u) rfl (by simp)).trans
      (mem_ofType_iff h).symm
  rw [← h_fact, ofProgram, typeOf?_finalize]
  rcases typeOf?_addAll {} p.facts n with ⟨u, h_u, h_mem⟩ | ⟨h_none, h_all⟩
  · rw [h_u, Option.some.injEq]
    constructor
    · rintro rfl
      exact h_mem
    · intro h_t
      -- Both types are those of the one statement with this number.
      obtain ⟨s, hs, h_s, rfl⟩ := (mem_ofType_iff h).1 ((h_fact u).1 h_mem)
      obtain ⟨s', hs', h_s', rfl⟩ := (mem_ofType_iff h).1 ((h_fact t).1 h_t)
      rw [h.eq_of_number hs hs' (h_s.symm.trans h_s')]
  · have h_empty : ({} : FactBase).typeOf? n = none := by simp [typeOf?]
    simp [h_none, h_empty, h_all]

theorem inDomain_iff (h : p.WellFormed) {s : Synonym} {v : Value} :
    (ofProgram p).inDomain s v = true ↔ v ∈ (ofProgram p).domain s :=
  inDomain_iff_of_types fun _ _ => typeOf?_eq_some_iff h

/-! ## Attributes -/

/-- The store has the names in the actions of one kind, by the numbers of their statements. -/
structure NamesActions (p : NumberedProgram) (store : PairStore StatementNumber String)
    (action : String → Action) (type : StatementType) : Prop where
  injective : Function.Injective action
  typed : ∀ s : Stmt StatementId, type = s.type → ∃ tag name, s = .simple tag (action name)
  contains : ∀ n name, store.contains n name = true ↔
    ∃ s ∈ p.statements, n = p.number s.tag ∧ ∃ tag, s = .simple tag (action name)

theorem namesActions_callees (h : p.WellFormed) :
    NamesActions p (ofProgram p).callees .call .call where
  injective _ _ := Action.call.inj
  typed s := by rcases s with ⟨_, _ | _ | _ | _⟩ | _ | _ <;> simp [Stmt.type, Action.type]
  contains n name := knows_iff_describes h (f := .callStatement n name) rfl (by simp) (by simp)

theorem namesActions_readVars (h : p.WellFormed) :
    NamesActions p (ofProgram p).readVars .read .read where
  injective _ _ := Action.read.inj
  typed s := by rcases s with ⟨_, _ | _ | _ | _⟩ | _ | _ <;> simp [Stmt.type, Action.type]
  contains n name := knows_iff_describes h (f := .readVar n name) rfl (by simp) (by simp)

theorem namesActions_printVars (h : p.WellFormed) :
    NamesActions p (ofProgram p).printVars .print .print where
  injective _ _ := Action.print.inj
  typed s := by rcases s with ⟨_, _ | _ | _ | _⟩ | _ | _ <;> simp [Stmt.type, Action.type]
  contains n name := knows_iff_describes h (f := .printVar n name) rfl (by simp) (by simp)

section

variable {store : PairStore StatementNumber String} {action : String → Action}
  {type : StatementType} {n : StatementNumber}

/-- A number has at most one name. -/
theorem NamesActions.unique (h_store : NamesActions p store action type) (h : p.WellFormed)
    {name other : String} (h_name : store.contains n name = true)
    (h_other : store.contains n other = true) : name = other := by
  obtain ⟨s, hs, h_s, tag, rfl⟩ := (h_store.contains n name).1 h_name
  obtain ⟨t, ht, h_t, tag', rfl⟩ := (h_store.contains n other).1 h_other
  have h_eq := h.eq_of_number hs ht (h_s.symm.trans h_t)
  rw [Stmt.simple.injEq] at h_eq
  exact h_store.injective h_eq.2

/-- Whichever name of a number is taken, it is the only one. -/
theorem NamesActions.pick_image_eq_some_iff (h_store : NamesActions p store action type)
    (h : p.WellFormed) {choice : NameChoice} {name : String} :
    choice.pick n (store.image n) = some name ↔ store.contains n name = true := by
  constructor
  · intro h_pick
    exact PairStore.mem_image.1 (choice.mem_of_pick h_pick)
  · intro h_name
    obtain ⟨other, h_pick⟩ :=
      Option.isSome_iff_exists.1 (choice.isSome_pick (n := n) (PairStore.mem_image.2 h_name))
    have h_other := PairStore.mem_image.1 (choice.mem_of_pick h_pick)
    rw [h_pick, h_store.unique h h_name h_other]

/-- A statement of the type of the actions has a name. -/
theorem NamesActions.exists_contains (h_store : NamesActions p store action type)
    (h : p.WellFormed) (h_n : n ∈ (ofProgram p).ofType type) :
    ∃ name, store.contains n name = true := by
  obtain ⟨s, hs, h_s, h_type⟩ := (mem_ofType_iff h).1 h_n
  obtain ⟨tag, name, rfl⟩ := h_store.typed s h_type
  exact ⟨name, (h_store.contains n name).2 ⟨_, hs, h_s, tag, rfl⟩⟩

end

/-- A value has one of each attribute, and it is found. -/
theorem attributes_of_mem_domain (h : p.WellFormed) {a : AttributeRef} {v : Value}
    (h_v : v ∈ (ofProgram p).domain a.synonym) :
    (∀ text, (ofProgram p).attrValue a v = some text ↔ (ofProgram p).AttributeIs a v text) ∧
      ∃ text, (ofProgram p).AttributeIs a v text := by
  unfold AttributeIs
  split
  · rename_i h_entity h_attr
    obtain ⟨n, h_n, rfl⟩ : ∃ n ∈ (ofProgram p).ofType .call, .number n = v := by
      simpa [domain, h_entity] using h_v
    have h_names := namesActions_callees h
    exact ⟨by simp [attrValue, h_entity, h_attr, callee?, h_names.pick_image_eq_some_iff h],
      by simpa using h_names.exists_contains h h_n⟩
  · rename_i h_entity h_attr
    obtain ⟨n, h_n, rfl⟩ : ∃ n ∈ (ofProgram p).ofType .read, .number n = v := by
      simpa [domain, h_entity] using h_v
    have h_names := namesActions_readVars h
    exact ⟨by simp [attrValue, h_entity, h_attr, readVar?, h_names.pick_image_eq_some_iff h],
      by simpa using h_names.exists_contains h h_n⟩
  · rename_i h_entity h_attr
    obtain ⟨n, h_n, rfl⟩ : ∃ n ∈ (ofProgram p).ofType .print, .number n = v := by
      simpa [domain, h_entity] using h_v
    have h_names := namesActions_printVars h
    exact ⟨by simp [attrValue, h_entity, h_attr, printVar?, h_names.pick_image_eq_some_iff h],
      by simpa using h_names.exists_contains h h_n⟩
  · rename_i h_call h_read h_print
    have h_text : (ofProgram p).attrValue a v = some v.text := by
      unfold attrValue
      split
      · exact (h_call ‹_› ‹_›).elim
      · exact (h_read ‹_› ‹_›).elim
      · exact (h_print ‹_› ‹_›).elim
      · rfl
    exact ⟨by simp [h_text], v.text, rfl⟩

/-! ## Order -/

/-- Neighbours in a list of statements have ascending numbers. -/
theorem lt_of_mem_zip_tail {number : StatementId → Nat} {list : List (Stmt StatementId)}
    (h : Stmt.Ascending number list) {s t : Stmt StatementId} (h_st : (s, t) ∈ list.zip list.tail) :
    number s.tag < number t.tag := by
  induction list with
  | nil => cases h_st
  | cons x rest ih =>
    cases rest with
    | nil => cases h_st
    | cons y more =>
      simp only [List.tail_cons, List.zip_cons_cons, List.mem_cons, Prod.mk.injEq] at h_st
      rcases h_st with ⟨rfl, rfl⟩ | h_st
      · exact h.head_lt ⟨s, by simp [Stmt.mem_preorder_self], rfl⟩
          ⟨t, by simp [Stmt.mem_preorder_self], rfl⟩
      · exact ih h.tail h_st

theorem contains_parent (h : p.WellFormed) {a c : StatementNumber} :
    (ofProgram p).parent.direct.contains a c = true ↔
      ∃ s ∈ p.statements, p.number s.tag = a ∧ ∃ child ∈ s.children, p.number child.tag = c :=
  (knows_ofFacts_iff_mem (g := .parent a c) (by simp)).trans (NumberedProgram.mem_facts_parent h)

theorem contains_follows {a c : StatementNumber} :
    (ofProgram p).follows.direct.contains a c = true ↔
      ∃ list ∈ p.lists, ∃ s t, (s, t) ∈ list.zip list.tail ∧ p.number s.tag = a ∧
        p.number t.tag = c :=
  (knows_ofFacts_iff_mem (g := .follows a c) (by simp)).trans NumberedProgram.mem_facts_follows

theorem lt_of_parent (h : p.WellFormed) {a c : StatementNumber}
    (h_parent : (ofProgram p).parent.direct.contains a c = true) : a < c := by
  obtain ⟨s, hs, rfl, child, h_child, rfl⟩ := (contains_parent h).1 h_parent
  obtain ⟨q, hq, hs⟩ := NumberedProgram.mem_statements.1 hs
  exact ((h.ascending hq).mem hs).lt_of_child ⟨child, Stmt.mem_preorderList_iff.2
    ⟨child, h_child, Stmt.mem_preorder_self child⟩, rfl⟩

theorem lt_of_follows (h : p.WellFormed) {a c : StatementNumber}
    (h_follows : (ofProgram p).follows.direct.contains a c = true) : a < c := by
  obtain ⟨list, h_list, s, t, h_st, rfl, rfl⟩ := contains_follows.1 h_follows
  have h_ascending : Stmt.Ascending p.number list := by
    obtain ⟨q, hq, rfl | ⟨u, hu, h_block⟩⟩ := NumberedProgram.mem_lists.1 h_list
    · exact h.ascending hq
    · exact ((h.ascending hq).mem hu).part (by simpa using Stmt.preorderList_infix_of_block h_block)
  exact lt_of_mem_zip_tail h_ascending h_st

theorem not_transGen_calls (h : p.WellFormed) {name : String} : ¬ TransGen p.Calls name name :=
  fun h_cycle => h.acyclic name
    (TransGen.mono (fun _ _ h_call => Program.edge_callGraph.2 h_call) _ _ h_cycle)

theorem not_relates_of_irreflexive {α : Type} [Member α] [Ord α] [Std.TransOrd α]
    {store : PairStore α α} (h_value : ∀ k l : α, Member.value k = Member.value l → k = l)
    (h : ∀ k, ¬ store.contains k k = true) (v : Value) : ¬ store.Relates v v := by
  rintro ⟨k, l, h_kl, rfl, h_l⟩
  obtain rfl := h_value k l h_l
  exact h k h_kl

/-- No statement and no procedure is related to itself, except by Next* and Affects. -/
structure Irreflexive (b : FactBase) : Prop where
  follows : ∀ n, ¬ b.follows.direct.contains n n
  followsStar : ∀ n, ¬ b.follows.star.contains n n
  parent : ∀ n, ¬ b.parent.direct.contains n n
  parentStar : ∀ n, ¬ b.parent.star.contains n n
  calls : ∀ name, ¬ b.calls.direct.contains name name
  callsStar : ∀ name, ¬ b.calls.star.contains name name
  next : ∀ n, ¬ b.next.direct.contains n n

/-- Follows and Parent lead to larger numbers, calls do not lead back and control does not stay. -/
theorem irreflexive_ofProgram (h : p.WellFormed) : (ofProgram p).Irreflexive where
  follows n h_n := Nat.lt_irrefl n (lt_of_follows h h_n)
  followsStar n h_n :=
    Graph.not_transGen_self_of_rank id (fun _ _ => lt_of_follows h) n
      (contains_followsStar.1 h_n).joined
  parent n h_n := Nat.lt_irrefl n (lt_of_parent h h_n)
  parentStar n h_n :=
    Graph.not_transGen_self_of_rank id (fun _ _ => lt_of_parent h) n
      (contains_parentStar.1 h_n).joined
  calls name h_name := not_transGen_calls h (.single (contains_calls.1 h_name))
  callsStar name h_name := not_transGen_calls h (contains_callsStar_iff.1 h_name)
  next n h_n := by
    obtain ⟨q, hq, h_edge⟩ := contains_next.1 h_n
    exact (leads_of_next h hq h_edge).2 rfl

/-- Only Next* and Affects relate anything to itself. -/
theorem not_relates_self (h : p.WellFormed) {r : Relationship}
    (h_reflexive : r.mayBeReflexive = false) (h_variable : r.toVariable = false) :
    ∀ v, ¬ (ofProgram p).Relates r v v := by
  have h_none := irreflexive_ofProgram h
  cases r with
  | follows => exact not_relates_of_irreflexive Member.number_inj h_none.follows
  | followsStar => exact not_relates_of_irreflexive Member.number_inj h_none.followsStar
  | parent => exact not_relates_of_irreflexive Member.number_inj h_none.parent
  | parentStar => exact not_relates_of_irreflexive Member.number_inj h_none.parentStar
  | calls => exact not_relates_of_irreflexive Member.name_inj h_none.calls
  | callsStar => exact not_relates_of_irreflexive Member.name_inj h_none.callsStar
  | next => exact not_relates_of_irreflexive Member.number_inj h_none.next
  | nextStar | affects => cases h_reflexive
  | uses | usesProc | modifies | modifiesProc => cases h_variable

/-! ## Regularity -/

theorem mem_ofType_assign_iff (h : p.WellFormed) {n : StatementNumber} :
    n ∈ (ofProgram p).ofType .assign ↔ ∃ name, (ofProgram p).targets.contains n name = true := by
  simp only [mem_ofType_iff h, contains_targets_iff h]
  constructor
  · rintro ⟨s, hs, rfl, h_type⟩
    rcases s with ⟨tag, _ | _ | _ | ⟨var, e⟩⟩ | _ | _ <;> try cases h_type
    exact ⟨var, tag, e, hs, rfl⟩
  · rintro ⟨name, tag, e, hs, rfl⟩
    exact ⟨_, hs, rfl, rfl⟩

theorem contains_whileControl_iff (h : p.WellFormed) {n : StatementNumber} {name : String} :
    (ofProgram p).whileControl.contains n name = true ↔ ∃ s ∈ p.statements, n = p.number s.tag ∧
      ∃ tag cond body, s = .whileLoop tag cond body ∧ cond.Mentions name :=
  knows_iff_describes h (f := .whileControl n name) rfl (by simp) (by simp)

theorem contains_ifControl_iff (h : p.WellFormed) {n : StatementNumber} {name : String} :
    (ofProgram p).ifControl.contains n name = true ↔ ∃ s ∈ p.statements, n = p.number s.tag ∧
      ∃ tag cond thenBranch elseBranch, s = .ifElse tag cond thenBranch elseBranch ∧
        cond.Mentions name :=
  knows_iff_describes h (f := .ifControl n name) rfl (by simp) (by simp)

theorem mem_vars_iff (h : p.WellFormed) {name : String} :
    name ∈ (ofProgram p).vars ↔ ∃ s ∈ p.statements, s.Writes name ∨ s.Mentions name :=
  knows_iff_describes h (f := .variable name) rfl (by simp) (by simp)

/-- The fact base of a program is regular. -/
theorem regular_ofProgram (h : p.WellFormed) : (ofProgram p).Regular where
  coherent := coherent_ofFacts p.facts
  inDomain _ _ := inDomain_iff h
  irreflexive _ := not_relates_self h
  assigned _ := mem_ofType_assign_iff h
  whileLoop n name h_control := by
    obtain ⟨s, hs, rfl, tag, cond, body, rfl, -⟩ := (contains_whileControl_iff h).1 h_control
    exact (mem_ofType_iff h).2 ⟨_, hs, rfl, rfl⟩
  ifElse n name h_control := by
    obtain ⟨s, hs, rfl, tag, cond, thenBranch, elseBranch, rfl, -⟩ :=
      (contains_ifControl_iff h).1 h_control
    exact (mem_ofType_iff h).2 ⟨_, hs, rfl, rfl⟩
  registered n name h_named := by
    rw [mem_vars_iff h]
    rcases h_named with h_named | h_named | h_named
    · obtain ⟨tag, e, hs, -⟩ := (contains_targets_iff h).1 h_named
      exact ⟨_, hs, .inl rfl⟩
    · obtain ⟨s, hs, -, tag, cond, body, rfl, h_mentions⟩ :=
        (contains_whileControl_iff h).1 h_named
      exact ⟨_, hs, .inr h_mentions⟩
    · obtain ⟨s, hs, -, tag, cond, thenBranch, elseBranch, rfl, h_mentions⟩ :=
        (contains_ifControl_iff h).1 h_named
      exact ⟨_, hs, .inr h_mentions⟩
  attributes _ _ text h_v := (attributes_of_mem_domain h h_v).1 text
  attributed _ _ h_v := (attributes_of_mem_domain h h_v).2

end FactBase

end ProgramQuery
