/-
  ProgramQuery.Proofs.Facts.OfProgram

  Which facts a program has.

  The facts of a program are the sum of seven lists, and no two of the lists have
  facts of one kind (`family`).  So a fact of the program is a fact of the one list
  that its kind belongs to (`mem_facts`), and what each list holds can be said
  by itself.
-/

import ProgramQuery.Facts.OfProgram
import ProgramQuery.Proofs.Facts.Base
import ProgramQuery.Proofs.Program.Read

namespace ProgramQuery

open Facts

/-! ## Families -/

/-- The lists that the facts of a program come from. -/
inductive FactFamily where
  | entity
  | follows
  | parent
  | calls
  | effect (effect : NumberedProgram.Effect)
  | next
  deriving DecidableEq

/-- The list that a fact comes from. -/
def Fact.family : Fact → FactFamily
  | .follows .. => .follows
  | .parent .. => .parent
  | .calls .. => .calls
  | .next .. => .next
  | .modifies .. | .modifiesProc .. => .effect .modifies
  | .uses .. | .usesProc .. => .effect .uses
  | _ => .entity

namespace NumberedProgram

variable {p : NumberedProgram}

/-- The facts of one family. -/
def familyFacts (p : NumberedProgram) : FactFamily → List Fact
  | .entity => p.entityFacts
  | .follows => p.followsFacts
  | .parent => p.parentFacts
  | .calls => p.callFacts
  | .effect effect => p.effectFacts effect
  | .next => p.nextFacts

theorem family_of_mem_statementFacts {n : StatementNumber} {s : Stmt StatementId} {f : Fact}
    (h : f ∈ statementFacts n s) : f.family = .entity := by
  rw [statementFacts.eq_def, List.mem_cons] at h
  rcases h with rfl | h
  · rfl
  split at h <;> simp only [List.mem_append, List.mem_cons, List.mem_map, List.mem_flatMap,
    List.not_mem_nil, or_false] at h
  · rcases h with rfl | rfl <;> rfl
  · rcases h with rfl | rfl <;> rfl
  · rw [h]
    rfl
  · rcases h with rfl | (⟨x, -, rfl⟩ | ⟨x, -, rfl⟩) | rfl <;> rfl
  · rcases h with ⟨x, -, rfl | rfl⟩ | ⟨x, -, rfl⟩ <;> rfl
  · rcases h with ⟨x, -, rfl | rfl⟩ | ⟨x, -, rfl⟩ <;> rfl

@[simp] theorem family_statementFact (effect : Effect) (n : StatementNumber) (var : String) :
    (effect.statementFact n var).family = .effect effect := by
  cases effect <;> rfl

@[simp] theorem family_procedureFact (effect : Effect) (procedure var : String) :
    (effect.procedureFact procedure var).family = .effect effect := by
  cases effect <;> rfl

theorem family_of_mem_effectFacts {effect : Effect} {f : Fact} (h : f ∈ p.effectFacts effect) :
    f.family = .effect effect := by
  have h_fold : ∀ (qs : List ProcedureTree) (found : EffectFacts),
      (∀ f ∈ found.facts, f.family = .effect effect) →
      ∀ f ∈ (qs.foldl (EffectFacts.addProcedure p effect) found).facts,
        f.family = .effect effect := by
    intro qs
    induction qs with
    | nil => exact fun _ h => h
    | cons q rest ih =>
      intro found h_found
      refine ih _ fun f hf => ?_
      simp only [EffectFacts.addProcedure, List.mem_append, List.mem_flatMap, List.mem_map] at hf
      rcases hf with (hf | ⟨s, -, var, -, rfl⟩) | ⟨var, -, rfl⟩
      · exact h_found f hf
      · exact family_statementFact ..
      · exact family_procedureFact ..
  exact h_fold _ {} (by simp) f h

/-- The facts of a family have its kinds. -/
theorem family_of_mem {family : FactFamily} {f : Fact} (h : f ∈ p.familyFacts family) :
    f.family = family := by
  cases family with
  | entity =>
    simp only [familyFacts, entityFacts, List.mem_append, List.mem_map, List.mem_flatMap] at h
    rcases h with ⟨q, -, rfl⟩ | ⟨visit, -, hf⟩
    · rfl
    · exact family_of_mem_statementFacts hf
  | follows =>
    simp only [familyFacts, followsFacts, followsIn, List.mem_flatMap, List.mem_map] at h
    obtain ⟨list, -, pair, -, rfl⟩ := h
    rfl
  | parent =>
    simp only [familyFacts, parentFacts, List.mem_flatMap, List.mem_map] at h
    obtain ⟨visit, -, c, -, rfl⟩ := h
    rfl
  | calls =>
    simp only [familyFacts, callFacts, List.mem_flatMap, List.mem_map] at h
    obtain ⟨q, -, c, -, rfl⟩ := h
    rfl
  | effect effect => exact family_of_mem_effectFacts h
  | next =>
    simp only [familyFacts, nextFacts, List.mem_flatMap, List.mem_map] at h
    obtain ⟨g, -, e, -, rfl⟩ := h
    rfl

/-- A program has the facts of all families. -/
theorem mem_facts {f : Fact} : f ∈ p.facts ↔ f ∈ p.familyFacts f.family := by
  have h_some : f ∈ p.facts ↔ ∃ family, f ∈ p.familyFacts family := by
    simp only [facts, List.mem_append, or_assoc]
    constructor
    · rintro (h | h | h | h | h | h | h)
      · exact ⟨.entity, h⟩
      · exact ⟨.follows, h⟩
      · exact ⟨.parent, h⟩
      · exact ⟨.calls, h⟩
      · exact ⟨.effect .modifies, h⟩
      · exact ⟨.effect .uses, h⟩
      · exact ⟨.next, h⟩
    · rintro ⟨family, h⟩
      rcases family with _ | _ | _ | _ | (_ | _) | _ <;> simp only [familyFacts] at h <;> simp [h]
  rw [h_some]
  constructor
  · rintro ⟨family, h⟩
    rwa [family_of_mem h]
  · exact fun h => ⟨_, h⟩

/-! ## Single families -/

/-- Entities come from the procedures and from the single statements. -/
theorem mem_entityFacts (h : p.WellFormed) {f : Fact} :
    f ∈ p.entityFacts ↔ (∃ q ∈ p.procedures, f = .procedure q.name) ∨
      ∃ s ∈ p.statements, f ∈ statementFacts (p.number s.tag) s := by
  simp only [entityFacts, List.mem_append, List.mem_map, List.mem_flatMap, Prod.exists,
    h.mem_visits, @eq_comm _ f]
  constructor
  · rintro (h | ⟨n, s, ⟨hs, rfl⟩, hf⟩)
    · exact .inl h
    · exact .inr ⟨s, hs, hf⟩
  · rintro (h | ⟨s, hs, hf⟩)
    · exact .inl h
    · exact .inr ⟨_, s, ⟨hs, rfl⟩, hf⟩

/-- With a round for each of them, the lists on the stack and all lists inside are taken. -/
theorem perm_takeLists {rounds : Nat} {stack : List (List (Stmt StatementId))}
    (h_rounds : (stack.flatMap Stmt.lists).length ≤ rounds) :
    (takeLists rounds stack).Perm (stack.flatMap Stmt.lists) := by
  induction rounds generalizing stack with
  | zero =>
    rw [List.length_eq_zero_iff.1 (Nat.le_zero.1 h_rounds)]
    exact .refl _
  | succ rounds ih =>
    cases stack with
    | nil => exact .refl _
    | cons list stack =>
      -- The lists inside the one that is taken go onto the stack in reverse.
      have h_inside : (((list.flatMap Stmt.blocks).reverse ++ stack).flatMap Stmt.lists).Perm
          ((list.flatMap Stmt.blocks).flatMap Stmt.lists ++ stack.flatMap Stmt.lists) := by
        rw [List.flatMap_append]
        exact ((List.reverse_perm _).flatMap_right _).append_right _
      have h_all : (list :: ((list.flatMap Stmt.blocks).reverse ++ stack).flatMap Stmt.lists).Perm
          ((list :: stack).flatMap Stmt.lists) :=
        (h_inside.cons list).trans ((Stmt.perm_lists list).symm.append_right _)
      have h_length := h_all.length_eq
      rw [List.length_cons] at h_length
      exact ((ih (by omega)).cons list).trans h_all

/-- The loop takes the bodies of the procedures and all blocks in them, each of them once. -/
theorem perm_lists (p : NumberedProgram) :
    p.lists.Perm (p.procedures.flatMap fun q => Stmt.lists q.body) := by
  have h_stack : ((p.procedures.map ProcedureTree.body).reverse.flatMap Stmt.lists).Perm
      (p.procedures.flatMap fun q => Stmt.lists q.body) := by
    have h_reverse :=
      (List.reverse_perm (p.procedures.map ProcedureTree.body)).flatMap_right Stmt.lists
    rwa [List.flatMap_map] at h_reverse
  have h_length : ∀ qs : List ProcedureTree, (qs.flatMap fun q => Stmt.lists q.body).length ≤
      qs.length + 2 * (qs.flatMap ProcedureTree.statements).length := by
    intro qs
    induction qs with
    | nil => exact Nat.le_refl _
    | cons q rest ih =>
      have h_q := Stmt.length_lists_le q.body
      rw [← ProcedureTree.statements] at h_q
      simp only [List.flatMap_cons, List.length_append, List.length_cons]
      omega
  have h_visits : p.visits.length = (p.procedures.flatMap ProcedureTree.statements).length := by
    simp [visits]
  refine (perm_takeLists ?_).trans h_stack
  rw [h_stack.length_eq, h_visits]
  exact h_length p.procedures

/-- A statement list is the body of a procedure or a block of a statement. -/
theorem mem_lists {list : List (Stmt StatementId)} :
    list ∈ p.lists ↔ ∃ q ∈ p.procedures, list = q.body ∨ ∃ s ∈ q.statements, list ∈ s.blocks := by
  simp [p.perm_lists.mem_iff, Stmt.lists, ProcedureTree.statements]

theorem mem_facts_follows {a b : StatementNumber} :
    .follows a b ∈ p.facts ↔ ∃ list ∈ p.lists, ∃ s t, (s, t) ∈ list.zip list.tail ∧
      p.number s.tag = a ∧ p.number t.tag = b := by
  simp [mem_facts, familyFacts, Fact.family, followsFacts, followsIn]

theorem mem_facts_parent (h : p.WellFormed) {a b : StatementNumber} :
    .parent a b ∈ p.facts ↔
      ∃ s ∈ p.statements, p.number s.tag = a ∧ ∃ c ∈ s.children, p.number c.tag = b := by
  simp only [mem_facts, familyFacts, Fact.family, parentFacts, List.mem_flatMap, List.mem_map,
    Prod.exists, h.mem_visits, Fact.parent.injEq]
  constructor
  · rintro ⟨n, s, ⟨hs, rfl⟩, c, hc, rfl, rfl⟩
    exact ⟨s, hs, rfl, c, hc, rfl⟩
  · rintro ⟨s, hs, rfl, c, hc, rfl⟩
    exact ⟨_, s, ⟨hs, rfl⟩, c, hc, rfl, rfl⟩

theorem mem_facts_calls {a b : String} :
    .calls a b ∈ p.facts ↔ ∃ q ∈ p.procedures, q.name = a ∧ b ∈ q.callees := by
  simp only [mem_facts, familyFacts, Fact.family, callFacts, List.mem_flatMap, List.mem_map,
    Fact.calls.injEq]
  constructor
  · rintro ⟨q, hq, c, hc, rfl, rfl⟩
    exact ⟨q, hq, rfl, hc⟩
  · rintro ⟨q, hq, rfl, hc⟩
    exact ⟨q, hq, b, hc, rfl, rfl⟩

theorem mem_facts_next {a b : StatementNumber} :
    .next a b ∈ p.facts ↔
      ∃ q ∈ p.procedures, (a, b) ∈ (Flow.linkList p.number [] q.body).edges := by
  simp only [mem_facts, familyFacts, Fact.family, nextFacts, Flow.graphs, List.mem_flatMap,
    List.mem_map, Prod.exists, Fact.next.injEq, exists_exists_and_eq_and,
    Flow.FlowGraph.ofProcedure, List.mem_mergeSort, List.mem_eraseDups]
  constructor
  · rintro ⟨q, hq, x, y, h_edge, rfl, rfl⟩
    exact ⟨q, hq, h_edge⟩
  · rintro ⟨q, hq, h_edge⟩
    exact ⟨q, hq, a, b, h_edge, rfl, rfl⟩

end NumberedProgram

end ProgramQuery
