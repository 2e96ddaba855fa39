/-
  ProgramQuery.Proofs.Program.Forest

  The arena of a program that was read is a forest.

  Its statement lists are the bodies of the procedures and the blocks of the
  containers.  Each statement stands in one of them, once; its parent is the
  container of that list; and a container comes after everything nested in it.

  While a text is read, blocks are open whose container is not in the arena yet: their
  statements are in no list and have no parent.  `Growing` says what holds then.  Pushing a
  statement takes those that it lists off the loose ones and becomes loose itself
  (`Growing.pushStatement`), and a procedure takes its body (`Growing.pushProcedure`).  At the end
  nothing is loose.
-/

import Mathlib.Data.List.Pairwise
import Mathlib.Data.List.Range
import ProgramQuery.Proofs.Program.Read

namespace ProgramQuery

namespace Program

/-! ## Forests -/

/-- All statement lists of a program: the bodies of its procedures and the blocks of its
    containers. -/
def idLists (p : Program) : List (List StatementId) :=
  p.procedures.map Procedure.body ++ p.statements.toList.flatMap (·.kind.blocks)

/-- The statements of a program form a forest, laid out from the leaves up. -/
structure IsForest (p : Program) : Prop where
  /-- Every id of the arena stands in the statement lists once, and no other id does. -/
  once : p.idLists.flatten.Perm (List.range p.statements.size)
  /-- The parent of a statement is the container that lists it. -/
  parent : ∀ id s, p.statement? id = some s → ∀ c,
    (s.parent = some c ↔ ∃ t, p.statement? c = some t ∧ id ∈ t.kind.children)
  /-- The statements without a parent are those that stand directly in a procedure. -/
  root : ∀ id s, p.statement? id = some s →
    (s.parent = none ↔ ∃ q ∈ p.procedures, id ∈ q.body)
  /-- What is directly inside a container has a smaller id. -/
  below : ∀ c t, p.statement? c = some t → ∀ id ∈ t.kind.children, id < c
  /-- No list is empty. -/
  filled : ∀ list ∈ p.idLists, list ≠ []

/-! ## Growing forests -/

/-- A forest that is being built.  The statements in `loose` have been pushed, but not yet what is
    to list them. -/
structure Growing (p : Program) (loose : List StatementId) : Prop where
  once : (p.idLists.flatten ++ loose).Perm (List.range p.statements.size)
  parent : ∀ id s, p.statement? id = some s → ∀ c,
    (s.parent = some c ↔ ∃ t, p.statement? c = some t ∧ id ∈ t.kind.children)
  root : ∀ id s, p.statement? id = some s →
    (s.parent = none ↔ (∃ q ∈ p.procedures, id ∈ q.body) ∨ id ∈ loose)
  below : ∀ c t, p.statement? c = some t → ∀ id ∈ t.kind.children, id < c
  filled : ∀ list ∈ p.idLists, list ≠ []

theorem growing_empty : ({} : Program).Growing [] where
  once := .refl _
  parent id s h_s := by simp [statement?] at h_s
  root id s h_s := by simp [statement?] at h_s
  below c t h_t := by simp [statement?] at h_t
  filled := by simp [idLists]

theorem map_kind_foldl_link (parent : StatementId) (children : List StatementId)
    (statements : Array Statement) :
    (children.foldl (link parent) statements).toList.map Statement.kind =
      statements.toList.map Statement.kind := by
  apply List.ext_getElem?
  intro i
  rw [List.getElem?_map, List.getElem?_map, Array.getElem?_toList, Array.getElem?_toList,
    getElem?_foldl_link, Option.map_map]
  congr 1
  funext s
  simp only [Function.comp_apply]
  split <;> rfl

/-- A push adds the blocks of the new statement and leaves the others. -/
theorem idLists_pushStatement (p : Program) (kind : StatementKind) (pos : Position) :
    (p.pushStatement kind pos).2.idLists = p.idLists ++ kind.blocks := by
  have h_blocks : ∀ l : List Statement,
      l.flatMap (·.kind.blocks) = (l.map Statement.kind).flatMap StatementKind.blocks := fun l => by
    rw [List.flatMap_map]
  simp only [idLists, pushStatement, Array.toList_push, h_blocks, List.map_append,
    map_kind_foldl_link, List.flatMap_append, List.append_assoc]
  simp

theorem statement?_pushStatement_size (p : Program) (kind : StatementKind) (pos : Position) :
    (p.pushStatement kind pos).2.statement? p.statements.size = some ⟨kind, none, pos⟩ := by
  rw [statement?_pushStatement, if_pos rfl]

/-- What a push leaves of a statement that was there: its kind, and its parent unless the new
    statement lists it. -/
theorem exists_statement_of_pushStatement {p : Program} {kind : StatementKind} {pos : Position}
    {id : StatementId} {s' : Statement}
    (h : (p.pushStatement kind pos).2.statement? id = some s') (h_ne : id ≠ p.statements.size) :
    ∃ s, p.statement? id = some s ∧ s'.kind = s.kind ∧
      (id ∈ kind.children → s'.parent = some p.statements.size) ∧
      (id ∉ kind.children → s'.parent = s.parent) := by
  rw [statement?_pushStatement, if_neg h_ne] at h
  obtain ⟨s, h_s, rfl⟩ := Option.map_eq_some_iff.1 h
  refine ⟨s, h_s, ?_⟩
  split <;> simp_all

/-- After a push the old containers list what they listed, and the new one its children. -/
theorem encloses_pushStatement {p : Program} {kind : StatementKind} {pos : Position}
    {outer inner : StatementId} :
    (p.pushStatement kind pos).2.Encloses outer inner ↔
      p.Encloses outer inner ∨ outer = p.statements.size ∧ inner ∈ kind.children := by
  constructor
  · rintro ⟨t, h_t, h_inner⟩
    by_cases h_new : outer = p.statements.size
    · subst h_new
      rw [statement?_pushStatement_size] at h_t
      cases h_t
      exact .inr ⟨rfl, h_inner⟩
    · obtain ⟨s, h_s, h_kind, -⟩ := exists_statement_of_pushStatement h_t h_new
      exact .inl ⟨s, h_s, h_kind ▸ h_inner⟩
  · rintro (⟨s, h_s, h_inner⟩ | ⟨rfl, h_inner⟩)
    · obtain ⟨t, h_t, h_kind⟩ := grows_pushStatement p kind pos outer s h_s
      exact ⟨t, h_t, h_kind ▸ h_inner⟩
    · exact ⟨_, statement?_pushStatement_size p kind pos, h_inner⟩

namespace Growing

variable {p : Program} {loose : List StatementId} {kind : StatementKind}

theorem lt_size (h : p.Growing loose) {id : StatementId} (h_id : id ∈ loose) :
    id < p.statements.size :=
  List.mem_range.1 (h.once.subset (List.mem_append_right _ h_id))

/-- What a procedure lists is not loose. -/
theorem not_mem_body (h : p.Growing loose) {id : StatementId} (h_id : id ∈ loose) :
    ¬ ∃ q ∈ p.procedures, id ∈ q.body := by
  rintro ⟨q, hq, h_body⟩
  have h_list : id ∈ p.idLists.flatten :=
    List.mem_flatten.2 ⟨q.body, List.mem_append_left _ (List.mem_map_of_mem hq), h_body⟩
  have h_nodup := h.once.nodup_iff.2 List.nodup_range
  exact (List.nodup_append.1 h_nodup).2.2 id h_list id h_id rfl

/-- No container lists a loose statement. -/
theorem not_encloses (h : p.Growing loose) {outer id : StatementId} (h_id : id ∈ loose) :
    ¬ p.Encloses outer id := by
  intro h_outer
  obtain ⟨s, h_s⟩ := exists_statement (h.lt_size h_id)
  have h_none := (h.root id s h_s).2 (.inr h_id)
  rw [(h.parent id s h_s outer).2 h_outer] at h_none
  cases h_none

/-- Nothing lists the statement that comes next. -/
theorem not_encloses_size (h : p.Growing loose) {outer : StatementId} :
    ¬ p.Encloses outer p.statements.size := by
  rintro ⟨t, h_t, h_mem⟩
  exact Nat.lt_asymm (h.below outer t h_t _ h_mem) (lt_size_of_statement? h_t)

section

variable (h : p.Growing (loose ++ kind.children))
include h

theorem lt_size_of_mem_children {id : StatementId} (h_id : id ∈ kind.children) :
    id < p.statements.size :=
  h.lt_size (List.mem_append_right _ h_id)

theorem not_mem_loose {id : StatementId} (h_id : id ∈ kind.children) : id ∉ loose := by
  intro h_loose
  have h_nodup := (List.nodup_append.1 (h.once.nodup_iff.2 List.nodup_range)).2.1
  exact (List.nodup_append.1 h_nodup).2.2 id h_loose id h_id rfl

theorem once_pushStatement (pos : Position) :
    ((p.pushStatement kind pos).2.idLists.flatten ++ (loose ++ [p.statements.size])).Perm
      (List.range (p.pushStatement kind pos).2.statements.size) := by
  have h_swap : (kind.children ++ (loose ++ [p.statements.size])).Perm
      (loose ++ kind.children ++ [p.statements.size]) := by
    rw [← List.append_assoc]
    exact List.perm_append_comm.append_right _
  rw [idLists_pushStatement, List.flatten_append, size_pushStatement, List.range_succ,
    List.append_assoc]
  refine (h_swap.append_left _).trans ?_
  rw [← List.append_assoc]
  exact h.once.append_right _

/-- The statements that the new one lists were loose, so no other container lists them. -/
theorem parent_pushStatement {pos : Position} {id : StatementId} {s' : Statement}
    (h_s' : (p.pushStatement kind pos).2.statement? id = some s') (c : StatementId) :
    s'.parent = some c ↔ (p.pushStatement kind pos).2.Encloses c id := by
  rw [encloses_pushStatement]
  by_cases h_size : id = p.statements.size
  · subst h_size
    have h_new : p.statements.size ∉ kind.children := fun h_mem =>
      Nat.lt_irrefl _ (h.lt_size_of_mem_children h_mem)
    rw [statement?_pushStatement_size] at h_s'
    cases h_s'
    simp [h.not_encloses_size, h_new]
  · obtain ⟨s, h_s, -, h_linked, h_kept⟩ := exists_statement_of_pushStatement h_s' h_size
    by_cases h_id : id ∈ kind.children
    · simp [h_linked h_id, h.not_encloses (List.mem_append_right _ h_id), h_id, eq_comm]
    · rw [h_kept h_id, h.parent id s h_s c]
      simp [h_id, Encloses]

theorem root_pushStatement {pos : Position} {id : StatementId} {s' : Statement}
    (h_s' : (p.pushStatement kind pos).2.statement? id = some s') :
    s'.parent = none ↔
      (∃ q ∈ p.procedures, id ∈ q.body) ∨ id ∈ loose ++ [p.statements.size] := by
  by_cases h_size : id = p.statements.size
  · subst h_size
    rw [statement?_pushStatement_size] at h_s'
    cases h_s'
    exact iff_of_true rfl (.inr (List.mem_append_right _ (List.mem_singleton_self _)))
  · obtain ⟨s, h_s, -, h_linked, h_kept⟩ := exists_statement_of_pushStatement h_s' h_size
    rw [List.mem_append, List.mem_singleton, or_iff_left h_size]
    by_cases h_id : id ∈ kind.children
    · rw [h_linked h_id]
      refine iff_of_false (by simp) ?_
      rintro (h_body | h_loose)
      · exact h.not_mem_body (List.mem_append_right _ h_id) h_body
      · exact h.not_mem_loose h_id h_loose
    · rw [h_kept h_id, h.root id s h_s, List.mem_append, or_iff_left h_id]

/-- A pushed statement takes those that it lists off the loose ones and becomes loose itself. -/
theorem pushStatement (pos : Position) (h_filled : ∀ block ∈ kind.blocks, block ≠ []) :
    (p.pushStatement kind pos).2.Growing (loose ++ [(p.pushStatement kind pos).1]) where
  once := h.once_pushStatement pos
  parent _ _ h_s' := h.parent_pushStatement h_s'
  root _ _ h_s' := h.root_pushStatement h_s'
  below c t' h_t' id h_id := by
    rcases encloses_pushStatement.1 ⟨t', h_t', h_id⟩ with ⟨t, h_t, h_id⟩ | ⟨rfl, h_id⟩
    · exact h.below c t h_t id h_id
    · exact h.lt_size_of_mem_children h_id
  filled := by
    rw [idLists_pushStatement, List.forall_mem_append]
    exact ⟨h.filled, h_filled⟩

end

/-- A procedure takes the loose statements for its body. -/
theorem pushProcedure {q : Procedure} (h : p.Growing q.body) (h_filled : q.body ≠ []) :
    (p.pushProcedure q).Growing [] := by
  have h_lists : (p.pushProcedure q).idLists.Perm (p.idLists ++ [q.body]) := by
    simp only [idLists, Program.pushProcedure, List.map_append, List.append_assoc]
    exact List.perm_append_comm.append_left _
  refine ⟨?_, h.parent, fun id s h_s => ?_, h.below, fun list h_list => ?_⟩
  · rw [List.append_nil]
    refine h_lists.flatten.trans ?_
    rw [List.flatten_append, List.flatten_singleton]
    exact h.once
  · rw [h.root id s h_s]
    simp [Program.pushProcedure, or_and_right, exists_or]
  · rcases List.mem_append.1 (h_lists.subset h_list) with h_list | h_list
    · exact h.filled list h_list
    · rw [List.mem_singleton.1 h_list]
      exact h_filled

end Growing

/-! ## Trees and procedures -/

theorem storeList_ne_nil {ss : List (Stmt Position)} (h : ss ≠ []) (p : Program) :
    (Stmt.storeList ss p).1 ≠ [] := by
  rwa [Ne, ← List.isEmpty_iff, isEmpty_storeList, List.isEmpty_iff]

/-- Storing trees leaves a growing forest, with their ids as loose ones. -/
theorem growing_store :
    (∀ (s : Stmt Position), s.Filled → ∀ (p : Program) (loose : List StatementId),
      p.Growing loose → (s.store p).2.Growing (loose ++ [(s.store p).1])) ∧
    (∀ (ss : List (Stmt Position)), Stmt.FilledList ss → ∀ (p : Program) (loose : List StatementId),
      p.Growing loose →
        (Stmt.storeList ss p).2.Growing (loose ++ (Stmt.storeList ss p).1)) := by
  refine Stmt.induction ?_ ?_ ?_ ?_ ?_
  · intro pos action _ p loose h
    rw [Stmt.store]
    refine Growing.pushStatement ?_ pos ?_
    · simpa [StatementKind.children, StatementKind.blocks] using h
    · simp [StatementKind.blocks]
  · intro pos cond body ih h_filled p loose h
    rw [Stmt.Filled] at h_filled
    rw [Stmt.store]
    refine Growing.pushStatement ?_ pos ?_
    · simpa [StatementKind.children, StatementKind.blocks] using ih h_filled.2 p loose h
    · simpa [StatementKind.blocks] using storeList_ne_nil h_filled.1 p
  · intro pos cond thenBranch elseBranch ih_then ih_else h_filled p loose h
    rw [Stmt.Filled] at h_filled
    have h_then := ih_then h_filled.1.2 p loose h
    have h_else := ih_else h_filled.2.2 _ _ h_then
    rw [Stmt.store]
    refine Growing.pushStatement ?_ pos ?_
    · simpa [StatementKind.children, StatementKind.blocks] using h_else
    · simpa [StatementKind.blocks] using
        And.intro (storeList_ne_nil h_filled.1.1 p) (storeList_ne_nil h_filled.2.1 _)
  · intro _ p loose h
    simpa [Stmt.storeList] using h
  · intro s rest ih_s ih_rest h_filled p loose h
    rw [Stmt.FilledList] at h_filled
    have h_rest := ih_rest h_filled.2 _ _ (ih_s h_filled.1 p loose h)
    simpa [Stmt.storeList] using h_rest

/-- Procedures without empty blocks make up a growing forest with nothing loose. -/
theorem growing_foldl_pushText {ps : List ProcedureText}
    (h_filled : ∀ q ∈ ps, q.body ≠ [] ∧ Stmt.FilledList q.body) {p : Program}
    (h : p.Growing []) : (ps.foldl pushText p).Growing [] := by
  induction ps generalizing p with
  | nil => exact h
  | cons q rest ih =>
    obtain ⟨⟨h_some, h_q⟩, h_rest⟩ := List.forall_mem_cons.1 h_filled
    exact ih h_rest (Growing.pushProcedure (growing_store.2 q.body h_q p [] h)
      (storeList_ne_nil h_some p))

theorem isForest_of_read {source : String} {p : Program} (h : read source = .ok p) :
    p.IsForest := by
  obtain ⟨ps, h_ps, rfl, -⟩ := exists_texts_of_read h
  have h_growing : (ofTexts ps).Growing [] :=
    growing_foldl_pushText (readProcedures_filled h_ps) growing_empty
  exact ⟨by simpa using h_growing.once, h_growing.parent, by simpa using h_growing.root,
    h_growing.below, h_growing.filled⟩

end Program

end ProgramQuery
