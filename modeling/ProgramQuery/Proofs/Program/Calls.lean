/-
  ProgramQuery.Proofs.Program.Calls

  Calls between procedures, and the order in which callees come first.

  In a well-formed program the call graph has no cycle, so its indices can be
  ordered; read backwards that order has all callees of a procedure before the
  procedure itself (`calleesFirst_procedures`).
-/

import ProgramQuery.Proofs.Program.Read

namespace ProgramQuery

open Relation (TransGen)

/-- Every procedure of the list comes after the procedures that it calls. -/
def CalleesFirst (qs : List ProcedureTree) : Prop :=
  ∀ l₁ q l₂, qs = l₁ ++ q :: l₂ → ∀ c ∈ q.callees, ∃ r ∈ l₁, r.name = c

namespace NumberedProgram

/-- Some procedure of the one name calls a procedure of the other. -/
def Calls (p : NumberedProgram) (caller callee : String) : Prop :=
  ∃ q ∈ p.procedures, q.name = caller ∧ callee ∈ q.callees

/-! ## Indices -/

theorem exists_of_lastIndexOf? {ps : List ProcedureTree} {name : String} {i : Nat}
    (h : lastIndexOf? ps name = some i) : ∃ q, ps[i]? = some q ∧ q.name = name := by
  have h_mem := List.mem_of_getLast? h
  simp only [List.mem_filterMap, Prod.exists, List.mk_mem_zipIdx_iff_getElem?,
    Option.ite_none_right_eq_some, Option.some.injEq] at h_mem
  obtain ⟨q, j, h_get, h_name, rfl⟩ := h_mem
  exact ⟨q, h_get, h_name⟩

theorem exists_lastIndexOf? {ps : List ProcedureTree} {q : ProcedureTree} (hq : q ∈ ps) :
    ∃ i, lastIndexOf? ps q.name = some i := by
  obtain ⟨i, h_i⟩ := List.getElem?_of_mem hq
  rw [← Option.isSome_iff_exists, lastIndexOf?, List.getLast?_isSome]
  apply List.ne_nil_of_mem
  simp only [List.mem_filterMap, Prod.exists, List.mk_mem_zipIdx_iff_getElem?,
    Option.ite_none_right_eq_some, Option.some.injEq]
  exact ⟨q, i, h_i, rfl, rfl⟩

theorem edge_callIndices {ps : List ProcedureTree} {i j : Nat} :
    (callIndices ps).Edge i j ↔
      ∃ q, ps[i]? = some q ∧ ∃ c ∈ q.callees, lastIndexOf? ps c = some j := by
  rw [callIndices, Graph.OrderedGraph.edge_ofAdjacency]
  simp only [List.mem_map, Prod.exists, List.mk_mem_zipIdx_iff_getElem?]
  constructor
  · rintro ⟨k, js, ⟨q, n, h_get, h_eq⟩, rfl, h_j⟩
    cases h_eq
    exact ⟨q, h_get, List.mem_filterMap.1 h_j⟩
  · rintro ⟨q, h_get, h_j⟩
    exact ⟨i, _, ⟨q, i, h_get, rfl⟩, rfl, List.mem_filterMap.2 h_j⟩

/-- The nodes are the indices of all procedures. -/
theorem mem_nodes_callIndices {ps : List ProcedureTree} {i : Nat} :
    i ∈ (callIndices ps).nodes ↔ ∃ q, ps[i]? = some q := by
  rw [callIndices, Graph.OrderedGraph.mem_nodes_ofAdjacency]
  simp only [List.mem_map, Prod.exists, List.mk_mem_zipIdx_iff_getElem?]
  constructor
  · rintro ⟨k, js, ⟨q, n, h_get, h_eq⟩, h_i⟩
    cases h_eq
    rcases h_i with rfl | h_i
    · exact ⟨q, h_get⟩
    · obtain ⟨c, -, h_last⟩ := List.mem_filterMap.1 h_i
      obtain ⟨r, h_r, -⟩ := exists_of_lastIndexOf? h_last
      exact ⟨r, h_r⟩
  · rintro ⟨q, h_get⟩
    exact ⟨i, _, ⟨q, i, h_get, rfl⟩, .inl rfl⟩

theorem endsAreNodes_callIndices (ps : List ProcedureTree) : (callIndices ps).EndsAreNodes :=
  Graph.OrderedGraph.endsAreNodes_ofAdjacency _

/-- An edge of indices is a call between the procedures at these indices. -/
theorem exists_edge_names {ps : List ProcedureTree} {i j : Nat} (h : (callIndices ps).Edge i j) :
    ∃ q r, ps[i]? = some q ∧ ps[j]? = some r ∧ (Program.callGraph ps).Edge q.name r.name := by
  obtain ⟨q, h_q, c, h_c, h_last⟩ := edge_callIndices.1 h
  obtain ⟨r, h_r, rfl⟩ := exists_of_lastIndexOf? h_last
  exact ⟨q, r, h_q, h_r, Program.edge_callGraph.2 ⟨q, List.mem_of_getElem? h_q, rfl, h_c⟩⟩

theorem exists_path_names {ps : List ProcedureTree} {i j : Nat}
    (h : TransGen (callIndices ps).Edge i j) :
    ∃ q r, ps[i]? = some q ∧ ps[j]? = some r ∧
      TransGen (Program.callGraph ps).Edge q.name r.name := by
  induction h with
  | single h_edge =>
    obtain ⟨q, r, h_q, h_r, h_edge⟩ := exists_edge_names h_edge
    exact ⟨q, r, h_q, h_r, .single h_edge⟩
  | tail _ h_edge ih =>
    obtain ⟨q, r, h_q, h_r, h_path⟩ := ih
    obtain ⟨r', t, h_r', h_t, h_edge⟩ := exists_edge_names h_edge
    obtain rfl := Option.some.inj (h_r.symm.trans h_r')
    exact ⟨q, t, h_q, h_t, .tail h_path h_edge⟩

/-- A path of indices is a path of names, so cycles of indices are cycles of names. -/
theorem acyclic_callIndices {ps : List ProcedureTree} (h : (Program.callGraph ps).Acyclic) :
    (callIndices ps).Acyclic := by
  intro i h_cycle
  obtain ⟨q, r, h_q, h_r, h_cycle⟩ := exists_path_names h_cycle
  obtain rfl := Option.some.inj (h_q.symm.trans h_r)
  exact h _ h_cycle

/-! ## Callees first -/

/-- Procedures in the order in which their effects are collected. -/
def orderedProcedures (p : NumberedProgram) : List ProcedureTree :=
  p.calleeFirst.filterMap (p.procedures[·]?)

variable {p : NumberedProgram}

/-- Without a cycle, a topological order is read backwards. -/
theorem exists_calleeFirst_eq_reverse (h : (callIndices p.procedures).Acyclic) :
    ∃ order, (callIndices p.procedures).IsTopological order ∧ p.calleeFirst = order.reverse := by
  have h_ends := endsAreNodes_callIndices p.procedures
  obtain ⟨order, h_order⟩ := Graph.OrderedGraph.exists_order_of_acyclic h_ends h
  refine ⟨order, Graph.OrderedGraph.isTopological_of_ok h_ends h_order, ?_⟩
  simp only [calleeFirst, h_order]

theorem WellFormed.calleeFirst_eq (h : p.WellFormed) :
    ∃ order, (callIndices p.procedures).IsTopological order ∧ p.calleeFirst = order.reverse :=
  exists_calleeFirst_eq_reverse (acyclic_callIndices h.acyclic)

theorem WellFormed.mem_orderedProcedures (h : p.WellFormed) {q : ProcedureTree} :
    q ∈ p.orderedProcedures ↔ q ∈ p.procedures := by
  obtain ⟨order, h_top, h_first⟩ := h.calleeFirst_eq
  simp only [orderedProcedures, h_first, List.mem_filterMap, List.mem_reverse, h_top.mem_iff,
    mem_nodes_callIndices]
  constructor
  · rintro ⟨i, -, h_i⟩
    exact List.mem_of_getElem? h_i
  · intro hq
    obtain ⟨i, h_i⟩ := List.getElem?_of_mem hq
    exact ⟨i, ⟨q, h_i⟩, h_i⟩

/-- The procedures are collected callees first. -/
theorem WellFormed.calleesFirst_procedures (h : p.WellFormed) :
    CalleesFirst p.orderedProcedures := by
  obtain ⟨order, h_top, h_first⟩ := h.calleeFirst_eq
  intro l₁ q l₂ h_split c hc
  rw [orderedProcedures, h_first, List.filterMap_eq_append_iff] at h_split
  obtain ⟨before, after, h_indices, rfl, h_after⟩ := h_split
  obtain ⟨skipped, i, rest, rfl, h_skipped, h_q, -⟩ := List.filterMap_eq_cons_iff.1 h_after
  -- In the order itself, the part after this procedure is what was collected before it.
  have h_order : order = rest.reverse ++ i :: (before ++ skipped).reverse := by
    rw [← List.reverse_reverse order, h_indices]
    simp
  obtain ⟨r, hr, rfl⟩ := h.declared q (List.mem_of_getElem? h_q) c hc
  obtain ⟨j, h_j⟩ := exists_lastIndexOf? hr
  have h_edge : (callIndices p.procedures).Edge i j := edge_callIndices.2 ⟨q, h_q, _, hc, h_j⟩
  have h_mem := h_top.mem_of_edge (endsAreNodes_callIndices _) h_order h_edge
  obtain ⟨r', h_r', h_name⟩ := exists_of_lastIndexOf? h_j
  rw [List.mem_reverse, List.mem_append] at h_mem
  rcases h_mem with h_mem | h_mem
  · exact ⟨r', List.mem_filterMap.2 ⟨j, h_mem, h_r'⟩, h_name⟩
  · cases (h_skipped j h_mem).symm.trans h_r'

/-- A name belongs to one procedure only. -/
theorem WellFormed.eq_of_name (h : p.WellFormed) {q r : ProcedureTree} (hq : q ∈ p.procedures)
    (hr : r ∈ p.procedures) (h_name : q.name = r.name) : q = r :=
  List.inj_on_of_nodup_map h.names hq hr h_name

end NumberedProgram

end ProgramQuery
