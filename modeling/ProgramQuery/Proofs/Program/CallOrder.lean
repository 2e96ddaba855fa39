/-
  ProgramQuery.Proofs.Program.CallOrder

  The order of the procedures of any program, callees first.

  An arena need not come from a text: its lists may share statements or lead out of it, calls
  may be recursive, callees may be missing and names may be repeated.  There is an order exactly
  if every way down from the procedures ends and stays in the arena
  (`exists_calleeFirst?_iff`); the trees then hold every call (`mem_callees_iff`).  The order is
  that of the calls between indices: each procedure has one place in it, behind its callees if
  there is no recursion and as declared otherwise.
-/

import ProgramQuery.Proofs.Graph.Stack
import ProgramQuery.Proofs.Program.Calls
import ProgramQuery.Proofs.Program.Descent

namespace ProgramQuery

open Relation (ReflTransGen TransGen)

/-- The procedure that a statement itself calls. -/
def StatementKind.callee? : StatementKind → Option String
  | .simple (.call callee) => some callee
  | _ => none

theorem Stmt.callee?_kind (t : Stmt StatementId) : t.kind.callee? = t.callee? := by
  rcases t with ⟨tag, _ | _ | _ | _⟩ | _ | _ <;> rfl

namespace Program

/-! ## Calls at any depth -/

/-- There is no endless way down from the body of a procedure. -/
def NestingEnds (p : Program) : Prop :=
  ∀ q ∈ p.procedures, ∀ root ∈ q.body, p.Ends root

/-- No way down from the body of a procedure leads out of the arena. -/
def IdsInside (p : Program) : Prop :=
  ∀ q ∈ p.procedures, ∀ root ∈ q.body, p.StaysInside root

/-- Somewhere at or below the statements of a list there is a call of the procedure. -/
def CallsBelow (p : Program) (list : List StatementId) (callee : String) : Prop :=
  ∃ root ∈ list, ∃ id, ReflTransGen p.Encloses root id ∧
    ∃ s, p.statement? id = some s ∧ s.kind.callee? = some callee

variable {p : Program}

/-- The trees of a procedure hold all its calls and no others. -/
theorem mem_callees_iff {q : Procedure} {t : ProcedureTree} (h : p.procedureTree? q = some t)
    {callee : String} : callee ∈ t.callees ↔ p.CallsBelow q.body callee := by
  obtain ⟨h_tags, h_stand⟩ := trees_eq_some_iff.1 (procedureTree?_eq_some_iff.1 h).2
  simp only [ProcedureTree.callees, ProcedureTree.statements, List.mem_filterMap,
    Stmt.mem_preorderList_iff]
  constructor
  · rintro ⟨u, ⟨root, h_root, h_u⟩, h_callee⟩
    obtain ⟨s, h_s, h_kind⟩ := h_stand root h_root u h_u
    refine ⟨root.tag, h_tags ▸ List.mem_map_of_mem h_root, u.tag,
      (h_stand root h_root).reaches_iff.2 ⟨u, h_u, rfl⟩, s, h_s, ?_⟩
    rw [h_kind, Stmt.callee?_kind, h_callee]
  · rintro ⟨id, h_id, inner, h_path, s, h_s, h_callee⟩
    rw [← h_tags] at h_id
    obtain ⟨root, h_root, rfl⟩ := List.mem_map.1 h_id
    obtain ⟨u, h_u, rfl⟩ := (h_stand root h_root).reaches_iff.1 h_path
    obtain ⟨s', h_s', h_kind⟩ := h_stand root h_root u h_u
    obtain rfl := Option.some.inj (h_s.symm.trans h_s')
    refine ⟨u, ⟨root, h_root, h_u⟩, ?_⟩
    rw [← Stmt.callee?_kind, ← h_kind, h_callee]

theorem exists_procedureTree?_iff {q : Procedure} :
    (∃ t, p.procedureTree? q = some t) ↔
      ∀ root ∈ q.body, p.Ends root ∧ p.StaysInside root := by
  rw [← exists_trees_iff]
  simp only [procedureTree?_eq_some_iff]
  constructor
  · rintro ⟨t, -, h_trees⟩
    exact ⟨t.body, h_trees⟩
  · rintro ⟨ts, h_trees⟩
    exact ⟨⟨q.name, ts⟩, rfl, h_trees⟩

/-- The procedures have their trees exactly if every way down ends and stays in the arena. -/
theorem exists_procedureTrees?_iff :
    (∃ ts, p.procedureTrees? = some ts) ↔ p.IdsInside ∧ p.NestingEnds := by
  have h_each : (∃ ts, p.procedureTrees? = some ts) ↔
      ∀ q ∈ p.procedures, ∃ t, p.procedureTree? q = some t := by
    rw [procedureTrees?]
    induction p.procedures with
    | nil => simp
    | cons q rest ih =>
      rw [List.forall_mem_cons, ← ih]
      simp only [List.mapM_cons, Option.bind_eq_bind, Option.bind_eq_some_iff, Option.pure_def,
        Option.some.injEq]
      constructor
      · rintro ⟨_, t, h_t, ts, h_ts, rfl⟩
        exact ⟨⟨t, h_t⟩, ts, h_ts⟩
      · rintro ⟨⟨t, h_t⟩, ts, h_ts⟩
        exact ⟨_, t, h_t, ts, h_ts, rfl⟩
  rw [h_each]
  simp only [exists_procedureTree?_iff]
  constructor
  · intro h
    exact ⟨fun q hq root h_root => (h q hq root h_root).2,
      fun q hq root h_root => (h q hq root h_root).1⟩
  · rintro ⟨h_inside, h_ends⟩ q hq root h_root
    exact ⟨h_ends q hq root h_root, h_inside q hq root h_root⟩

/-! ## Calls between indices -/

/-- The last procedure of a name has this index. -/
def IsLastNamed (p : Program) (name : String) (j : Nat) : Prop :=
  (∃ q, p.procedures[j]? = some q ∧ q.name = name) ∧
    ∀ k q, j < k → p.procedures[k]? = some q → q.name ≠ name

/-- The procedure at the one index has a call, at any depth, of the procedure at the other.  A name
    that is repeated stands for its last procedure, and one that is missing for none. -/
def CallsIndex (p : Program) (i j : Nat) : Prop :=
  ∃ q callee, p.procedures[i]? = some q ∧ p.CallsBelow q.body callee ∧ p.IsLastNamed callee j

/-- Procedures keep their indices when their bodies are unfolded. -/
theorem getElem?_procedureTrees {ts : List ProcedureTree} (h : p.procedureTrees? = some ts)
    {i : Nat} {t : ProcedureTree} :
    ts[i]? = some t ↔ ∃ q, p.procedures[i]? = some q ∧ p.procedureTree? q = some t := by
  rw [getElem?_of_mapM h, Option.bind_eq_some_iff]

theorem exists_getElem?_procedureTrees {ts : List ProcedureTree} (h : p.procedureTrees? = some ts)
    {i : Nat} {q : Procedure} (h_q : p.procedures[i]? = some q) :
    ∃ t, ts[i]? = some t ∧ p.procedureTree? q = some t ∧ q.name = t.name := by
  obtain ⟨h_i, -⟩ := List.getElem?_eq_some_iff.1 h_q
  have h_length : ts.length = p.procedures.length := length_of_mapM h
  have h_t := List.getElem?_eq_getElem (h_length ▸ h_i : i < ts.length)
  obtain ⟨q', h_q', h_tree⟩ := (getElem?_procedureTrees h).1 h_t
  obtain rfl := Option.some.inj (h_q.symm.trans h_q')
  exact ⟨_, h_t, h_tree, (procedureTree?_eq_some_iff.1 h_tree).1⟩

end Program

namespace NumberedProgram

open Program

/-- The last index of a name, found from the end. -/
theorem lastIndexOf?_append_singleton (ps : List ProcedureTree) (q : ProcedureTree)
    (name : String) :
    lastIndexOf? (ps ++ [q]) name =
      if q.name = name then some ps.length else lastIndexOf? ps name := by
  simp only [lastIndexOf?, List.zipIdx_append, List.filterMap_append, Nat.zero_add]
  split
  · rename_i h_name
    simp [h_name]
  · rename_i h_name
    simp [h_name]

theorem le_of_lastIndexOf? {ps : List ProcedureTree} {name : String} {j k : Nat}
    {q : ProcedureTree} (h : lastIndexOf? ps name = some j) (h_k : ps[k]? = some q)
    (h_name : q.name = name) : k ≤ j := by
  induction ps using List.reverseRecOn with
  | nil => simp at h_k
  | append_singleton ps last ih =>
    have h_lt := (List.getElem?_eq_some_iff.1 h_k).1
    rw [List.length_append, List.length_singleton] at h_lt
    rw [lastIndexOf?_append_singleton] at h
    split at h
    · cases h
      omega
    · rename_i h_other
      by_cases h_last : k = ps.length
      · rw [h_last, List.getElem?_concat_length] at h_k
        exact absurd ((congrArg ProcedureTree.name (Option.some.inj h_k)).trans h_name) h_other
      · rw [List.getElem?_append_left (by omega)] at h_k
        exact ih h h_k

variable {p : Program} {ts : List ProcedureTree}

theorem lastIndexOf?_eq_some_iff (h_ts : p.procedureTrees? = some ts) {name : String} {j : Nat} :
    lastIndexOf? ts name = some j ↔ p.IsLastNamed name j := by
  have h_named : ∀ {i}, lastIndexOf? ts name = some i →
      ∃ q, p.procedures[i]? = some q ∧ q.name = name := by
    intro i h_i
    obtain ⟨t, h_t, rfl⟩ := exists_of_lastIndexOf? h_i
    obtain ⟨q, h_q, h_tree⟩ := (getElem?_procedureTrees h_ts).1 h_t
    exact ⟨q, h_q, (procedureTree?_eq_some_iff.1 h_tree).1⟩
  constructor
  · intro h
    refine ⟨h_named h, fun k q h_lt h_q h_name => ?_⟩
    obtain ⟨t, h_t, -, h_tree⟩ := exists_getElem?_procedureTrees h_ts h_q
    exact Nat.not_le_of_lt h_lt (le_of_lastIndexOf? h h_t (h_tree ▸ h_name))
  · rintro ⟨⟨q, h_q, rfl⟩, h_later⟩
    -- The name has some last index, which cannot be another one.
    obtain ⟨t, h_t, -, h_tree⟩ := exists_getElem?_procedureTrees h_ts h_q
    rw [h_tree] at h_named h_later ⊢
    obtain ⟨i, h_i⟩ := exists_lastIndexOf? (List.mem_of_getElem? h_t)
    have h_le := le_of_lastIndexOf? h_i h_t rfl
    obtain ⟨r, h_r, h_name⟩ := h_named h_i
    have h_ge : i ≤ j := Nat.le_of_not_lt fun h_lt => h_later i r h_lt h_r h_name
    rw [Nat.le_antisymm h_le h_ge]
    exact h_i

/-- The edges of the call graph are the calls between indices. -/
theorem edge_callIndices_iff (h : p.procedureTrees? = some ts) {i j : Nat} :
    (callIndices ts).Edge i j ↔ p.CallsIndex i j := by
  rw [edge_callIndices]
  constructor
  · rintro ⟨t, h_t, callee, h_callee, h_last⟩
    obtain ⟨q, h_q, h_tree⟩ := (getElem?_procedureTrees h).1 h_t
    exact ⟨q, callee, h_q, (mem_callees_iff h_tree).1 h_callee,
      (lastIndexOf?_eq_some_iff h).1 h_last⟩
  · rintro ⟨q, callee, h_q, h_calls, h_last⟩
    obtain ⟨t, h_t, h_tree, -⟩ := exists_getElem?_procedureTrees h h_q
    exact ⟨t, h_t, callee, (mem_callees_iff h_tree).2 h_calls,
      (lastIndexOf?_eq_some_iff h).2 h_last⟩

theorem edge_callIndices_eq (h : p.procedureTrees? = some ts) :
    (callIndices ts).Edge = p.CallsIndex :=
  funext₂ fun _ _ => propext (edge_callIndices_iff h)

/-! ## The order -/

/-- Every procedure has one place in the order, whatever the calls. -/
theorem perm_calleeFirst (p : NumberedProgram) :
    p.calleeFirst.Perm (List.range p.procedures.length) := by
  unfold calleeFirst
  split
  · rename_i order h_order
    have h_top := Graph.OrderedGraph.isTopological_of_ok (endsAreNodes_callIndices _) h_order
    refine order.reverse_perm.trans ?_
    rw [List.perm_ext_iff_of_nodup h_top.nodup List.nodup_range]
    intro i
    rw [h_top.mem_iff, mem_nodes_callIndices, List.mem_range, ← Option.isSome_iff_exists,
      isSome_getElem?]
  · exact .refl _

/-- Without a cycle, what is called comes before what calls it. -/
theorem sublist_calleeFirst {p : NumberedProgram} (h : (callIndices p.procedures).Acyclic)
    {i j : Nat} (h_edge : (callIndices p.procedures).Edge i j) : [j, i].Sublist p.calleeFirst := by
  have h_ends := endsAreNodes_callIndices p.procedures
  obtain ⟨order, h_top, h_first⟩ := exists_calleeFirst_eq_reverse h
  obtain ⟨l₁, l₂, h_split⟩ := List.append_of_mem ((h_top.mem_iff i).2 (h_ends i j h_edge).1)
  have h_later : j ∈ l₂ := h_top.mem_of_edge h_ends h_split h_edge
  have h_sub : [i, j].Sublist order := by
    rw [h_split]
    exact ((List.singleton_sublist.2 h_later).cons_cons i).trans (List.sublist_append_right ..)
  rw [h_first]
  exact h_sub.reverse

/-- With a cycle, the order is that of the declarations. -/
theorem calleeFirst_of_cycle {p : NumberedProgram}
    (h : ∃ i, TransGen (callIndices p.procedures).Edge i i) :
    p.calleeFirst = List.range p.procedures.length := by
  obtain ⟨i, h_error⟩ :=
    (Graph.OrderedGraph.exists_error_iff (endsAreNodes_callIndices p.procedures)).2 h
  simp only [calleeFirst, h_error]

end NumberedProgram

namespace Program

open NumberedProgram

variable {p : Program}

/-- What is asked of an order of the procedures of a program. -/
structure OrdersCallees (p : Program) (order : List Nat) : Prop where
  /-- Every procedure has one place. -/
  perm : order.Perm (List.range p.procedures.length)
  /-- Without recursion, a procedure that is called at any depth comes before its caller. -/
  before : (∀ i, ¬ TransGen p.CallsIndex i i) → ∀ i j, p.CallsIndex i j → [j, i].Sublist order
  /-- With recursion, the procedures come as they are declared. -/
  declared : (∃ i, TransGen p.CallsIndex i i) → order = List.range p.procedures.length
  /-- The order is the one that a stack leads to, read backwards. -/
  sorted : (∃ found, (callIndices p.procedureTrees).SortsTo (.ok found) ∧ order = found.reverse) ∨
    ∃ i, (callIndices p.procedureTrees).SortsTo (.error i) ∧
      order = List.range p.procedures.length

theorem calleeFirst?_eq {ts : List ProcedureTree} (h : p.procedureTrees? = some ts) :
    p.calleeFirst? = some (ofTrees p ts).calleeFirst := by
  rw [calleeFirst?, numbered?, h]
  rfl

/-- There is an order exactly if every way down from the procedures ends and stays in the arena. -/
theorem exists_calleeFirst?_iff :
    (∃ order, p.calleeFirst? = some order) ↔ p.IdsInside ∧ p.NestingEnds := by
  rw [← exists_procedureTrees?_iff]
  simp [calleeFirst?, numbered?]

theorem ordersCallees_of_trees {ts : List ProcedureTree} (h : p.procedureTrees? = some ts) :
    p.OrdersCallees (ofTrees p ts).calleeFirst := by
  have h_length : (ofTrees p ts).procedures.length = p.procedures.length :=
    length_of_mapM h
  have h_edge : (callIndices (ofTrees p ts).procedures).Edge = p.CallsIndex :=
    edge_callIndices_eq h
  have h_trees : p.procedureTrees = (ofTrees p ts).procedures := by
    rw [procedureTrees, h]
    rfl
  refine ⟨?_, ?_, ?_, ?_⟩
  · rw [← h_length]
    exact perm_calleeFirst _
  · intro h_acyclic i j h_calls
    rw [← h_edge] at h_acyclic h_calls
    exact sublist_calleeFirst h_acyclic h_calls
  · intro h_cycle
    rw [← h_edge] at h_cycle
    rw [← h_length]
    exact calleeFirst_of_cycle h_cycle
  · have h_sorts := Graph.OrderedGraph.sortsTo_topologicalOrder
      (endsAreNodes_callIndices (ofTrees p ts).procedures)
    rw [h_trees]
    cases h_order : (callIndices (ofTrees p ts).procedures).topologicalOrder with
    | ok found =>
      rw [h_order] at h_sorts
      exact .inl ⟨found, h_sorts, by simp only [calleeFirst, h_order]⟩
    | error i =>
      rw [h_order] at h_sorts
      exact .inr ⟨i, h_sorts, by simp only [calleeFirst, h_order, h_length]⟩

/-- Callees come first in a program that was read: all that is called is declared, once, and
    nothing is recursive. -/
theorem callee_before_caller_of_read {text : String} (h : read text = .ok p) {i : Nat}
    {q : Procedure} {callee : String} (h_q : p.procedures[i]? = some q)
    (h_calls : p.CallsBelow q.body callee) :
    ∃ j r, p.procedures[j]? = some r ∧ r.name = callee ∧
      (∀ k t, p.procedures[k]? = some t → t.name = callee → k = j) ∧
      [j, i].Sublist p.numbered.calleeFirst := by
  have h_formed := wellFormed_of_read h
  have h_trees := procedureTrees?_of_read h
  obtain ⟨t, h_t, h_tree, -⟩ := exists_getElem?_procedureTrees h_trees h_q
  have h_callee := (mem_callees_iff h_tree).2 h_calls
  obtain ⟨u, h_u, rfl⟩ := h_formed.declared t (List.mem_of_getElem? h_t) callee h_callee
  obtain ⟨j, h_j⟩ := exists_lastIndexOf? h_u
  obtain ⟨⟨r, h_r, h_name⟩, -⟩ := (lastIndexOf?_eq_some_iff h_trees).1 h_j
  refine ⟨j, r, h_r, h_name, fun k v h_v h_same => ?_, ?_⟩
  · -- Names are not repeated.
    obtain ⟨v', h_v', -, h_name'⟩ := exists_getElem?_procedureTrees h_trees h_v
    obtain ⟨r', h_r', -, h_name''⟩ := exists_getElem?_procedureTrees h_trees h_r
    have h_lt : k < (p.procedureTrees.map ProcedureTree.name).length := by
      rw [List.length_map]
      exact (List.getElem?_eq_some_iff.1 h_v').1
    apply (List.getElem?_inj h_lt h_formed.names).1
    rw [List.getElem?_map, List.getElem?_map, h_v', h_r', Option.map_some, Option.map_some,
      ← h_name', ← h_name'', h_same, h_name]
  · exact sublist_calleeFirst (acyclic_callIndices h_formed.acyclic)
      (edge_callIndices.2 ⟨t, h_t, _, h_callee, h_j⟩)

/-- The order of the procedures of a program, whether it was read or not.  In a program that was
    read, the one procedure of a name that is called at any depth comes before the caller.  In any
    program whose nesting ends and does not lead out of the arena, each procedure has one place,
    callees come before callers if nothing is recursive, and otherwise the order is that of the
    declarations.  Other programs have no order. -/
theorem callees_come_first (p : Program) :
    (∀ text, read text = .ok p → p.calleeFirst? = some p.numbered.calleeFirst ∧
      p.OrdersCallees p.numbered.calleeFirst ∧
      ∀ i q callee, p.procedures[i]? = some q → p.CallsBelow q.body callee →
        ∃ j r, p.procedures[j]? = some r ∧ r.name = callee ∧
          (∀ k t, p.procedures[k]? = some t → t.name = callee → k = j) ∧
          [j, i].Sublist p.numbered.calleeFirst) ∧
    (p.IdsInside → p.NestingEnds → ∃ order, p.calleeFirst? = some order ∧ p.OrdersCallees order) ∧
    ((∃ order, p.calleeFirst? = some order) → p.IdsInside ∧ p.NestingEnds) := by
  refine ⟨fun text h => ⟨?_, ?_, fun i q callee => callee_before_caller_of_read h⟩,
    fun h_inside h_ends => ?_, exists_calleeFirst?_iff.1⟩
  · exact calleeFirst?_eq (procedureTrees?_of_read h)
  · exact ordersCallees_of_trees (procedureTrees?_of_read h)
  · obtain ⟨ts, h_ts⟩ := exists_procedureTrees?_iff.2 ⟨h_inside, h_ends⟩
    exact ⟨_, calleeFirst?_eq h_ts, ordersCallees_of_trees h_ts⟩

/-- An arena that no text has: a name is repeated, a callee is missing, and a call stands in a
    procedure and in a loop of another one. -/
def sharedArena : Program where
  procedures := [⟨"a", ⟨1, 1⟩, [0]⟩, ⟨"b", ⟨2, 1⟩, [1, 2]⟩, ⟨"a", ⟨3, 1⟩, [3]⟩]
  statements := #[⟨.simple (.call "b"), none, ⟨1, 1⟩⟩, ⟨.simple (.call "a"), none, ⟨2, 1⟩⟩,
    ⟨.simple (.call "c"), none, ⟨2, 1⟩⟩,
    ⟨.whileLoop (.rel .lt (.var "x") (.var "y")) [1], none, ⟨3, 1⟩⟩]

/-- The trees of that arena; one statement stands in two of them. -/
def sharedTrees : List ProcedureTree :=
  [⟨"a", [.simple 0 (.call "b")]⟩, ⟨"b", [.simple 1 (.call "a"), .simple 2 (.call "c")]⟩,
    ⟨"a", [.whileLoop 3 (.rel .lt (.var "x") (.var "y")) [.simple 1 (.call "a")]]⟩]

/-- In the text, a call in a loop comes after what it calls.  In the arena, the second `a` calls
    itself in its loop, so its procedures stay as they are declared. -/
theorem callees_first_in_loops :
    (∃ p, read "procedure a \x7b while (x > 0) \x7b call b; \x7d \x7d procedure b \x7b read x; \x7d"
        = .ok p ∧
      ∃ j r, p.procedures[j]? = some r ∧ r.name = "b" ∧ [j, 0].Sublist p.numbered.calleeFirst) ∧
    sharedArena.IdsInside ∧ sharedArena.NestingEnds ∧ sharedArena.CallsIndex 2 2 ∧
      sharedArena.calleeFirst? = some [0, 1, 2] := by
  have h_trees : sharedArena.procedureTrees? = some sharedTrees := rfl
  obtain ⟨h_inside, h_ends⟩ := exists_procedureTrees?_iff.1 ⟨_, h_trees⟩
  have h_loop : sharedArena.CallsIndex 2 2 :=
    (edge_callIndices_iff h_trees).1 (by unfold Graph.OrderedGraph.Edge; decide)
  obtain ⟨order, h_order, h_orders⟩ := (callees_come_first sharedArena).2.1 h_inside h_ends
  refine ⟨?_, h_inside, h_ends, h_loop, ?_⟩
  · refine exists_ok_of_test (fun p => decide (
      p.procedureTrees.map ProcedureTree.callees = [["b"], []])) (by decide +kernel)
      fun p h_read h_test => ?_
    have h_callees := congrArg (·[0]?) (of_decide_eq_true h_test)
    simp only [List.getElem?_map, List.getElem?_cons_zero, Option.map_eq_some_iff] at h_callees
    obtain ⟨t, h_t, h_callees⟩ := h_callees
    obtain ⟨q, h_q, h_tree⟩ := (getElem?_procedureTrees (procedureTrees?_of_read h_read)).1 h_t
    have h_calls : p.CallsBelow q.body "b" := (mem_callees_iff h_tree).1 (by simp [h_callees])
    obtain ⟨j, r, h_r, h_name, -, h_before⟩ :=
      ((callees_come_first p).1 _ h_read).2.2 0 q "b" h_q h_calls
    exact ⟨j, r, h_r, h_name, h_before⟩
  · rw [h_order, h_orders.declared ⟨2, .single h_loop⟩]
    rfl

/-- An arena with a statement list that leads out of it. -/
def strayArena : Program where
  procedures := [⟨"a", ⟨1, 1⟩, [7]⟩]

/-- An arena with a name that is repeated; the first procedure calls it. -/
def repeatedArena : Program where
  procedures := [⟨"p", ⟨1, 1⟩, [0]⟩, ⟨"p", ⟨2, 1⟩, [1]⟩]
  statements := #[⟨.simple (.call "p"), none, ⟨1, 1⟩⟩, ⟨.simple (.read "x"), none, ⟨2, 1⟩⟩]

/-- Nesting that ends is not enough for an order.  And a name that is repeated stands for its last
    procedure: if an earlier one calls it, the name is on a cycle, but the order is not that of the
    declarations. -/
theorem no_order_outside_arena :
    (strayArena.NestingEnds ∧ strayArena.calleeFirst? = none) ∧
    repeatedArena.IdsInside ∧ repeatedArena.NestingEnds ∧
      (callGraph repeatedArena.procedureTrees).Edge "p" "p" ∧
      repeatedArena.calleeFirst? = some [1, 0] := by
  have h_trees : repeatedArena.procedureTrees? =
      some [⟨"p", [.simple 0 (.call "p")]⟩, ⟨"p", [.simple 1 (.read "x")]⟩] := rfl
  obtain ⟨h_inside, h_ends⟩ := exists_procedureTrees?_iff.1 ⟨_, h_trees⟩
  refine ⟨⟨fun q _ root _ => ?_, rfl⟩, h_inside, h_ends, ?_, by decide +kernel⟩
  · -- There is no statement, so there is no way down at all.
    refine ends_of_below (fun outer s h_s => ?_) root
    simp [strayArena, statement?] at h_s
  · rw [procedureTrees, h_trees]
    unfold Graph.OrderedGraph.Edge
    decide

end Program

end ProgramQuery
