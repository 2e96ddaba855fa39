/-
  ProgramQuery.Proofs.Graph.Order

  A topological order is found exactly if there is no cycle.

  In an order that is given out no node has an edge to itself or to a node before
  it, so ranks grow along edges and there is no cycle.  In the other direction the
  finishing order of a search is such an order, because a node that is finished
  before one of its predecessors lies on a cycle with it.  So the node that is
  named when there is no order is one of a cycle.
-/

import ProgramQuery.Graph.Order
import ProgramQuery.Proofs.Graph.Search

namespace ProgramQuery.Graph.OrderedGraph

open Relation (ReflTransGen TransGen)

variable {α : Type} [DecidableEq α]

/-- There is an edge from `a` to `b`. -/
def Edge (g : OrderedGraph α) (a b : α) : Prop :=
  (a, b) ∈ g.edges

/-- The ends of all edges are nodes. -/
def EndsAreNodes (g : OrderedGraph α) : Prop :=
  ∀ a b, g.Edge a b → a ∈ g.nodes ∧ b ∈ g.nodes

/-- There is no cycle. -/
def Acyclic (g : OrderedGraph α) : Prop :=
  ∀ a, ¬ TransGen g.Edge a a

@[simp] theorem mem_successors {g : OrderedGraph α} {a b : α} :
    b ∈ g.successors a ↔ g.Edge a b := by
  simp only [successors, List.mem_filterMap, Edge]
  constructor
  · rintro ⟨⟨x, y⟩, h_edge, h_some⟩
    simp only [Option.ite_none_right_eq_some, Option.some.injEq] at h_some
    obtain ⟨rfl, rfl⟩ := h_some
    exact h_edge
  · intro h_edge
    exact ⟨(a, b), h_edge, by simp⟩

@[simp] theorem mem_predecessors {g : OrderedGraph α} {a b : α} :
    a ∈ g.predecessors b ↔ g.Edge a b ∧ a ≠ b := by
  simp only [predecessors, List.mem_filterMap, Edge]
  constructor
  · rintro ⟨⟨x, y⟩, h_edge, h_some⟩
    simp only [Option.ite_none_right_eq_some, Option.some.injEq] at h_some
    obtain ⟨⟨rfl, h_ne⟩, rfl⟩ := h_some
    exact ⟨h_edge, h_ne⟩
  · rintro ⟨h_edge, h_ne⟩
    exact ⟨(a, b), h_edge, by simp [h_ne]⟩

/-! ## Making graphs -/

@[simp] theorem mem_nodes_addNode {g : OrderedGraph α} {n m : α} :
    m ∈ (g.addNode n).nodes ↔ m = n ∨ m ∈ g.nodes := by
  unfold addNode
  split
  · rename_i h_known
    constructor
    · exact .inr
    · rintro (rfl | h)
      · exact h_known
      · exact h
  · simp [or_comm]

@[simp] theorem edge_addNode {g : OrderedGraph α} {n a b : α} :
    (g.addNode n).Edge a b ↔ g.Edge a b := by
  unfold addNode Edge
  split <;> rfl

@[simp] theorem mem_nodes_addEdge {g : OrderedGraph α} {a b n : α} :
    n ∈ (g.addEdge a b).nodes ↔ n = a ∨ n = b ∨ n ∈ g.nodes := by
  have h_nodes : (g.addEdge a b).nodes = ((g.addNode a).addNode b).nodes := by
    simp only [addEdge]
    split <;> rfl
  rw [h_nodes]
  simp only [mem_nodes_addNode]
  tauto

@[simp] theorem edge_addEdge {g : OrderedGraph α} {a b x y : α} :
    (g.addEdge a b).Edge x y ↔ (x = a ∧ y = b) ∨ g.Edge x y := by
  have h_old : ((g.addNode a).addNode b).Edge x y ↔ g.Edge x y := by simp
  rw [← h_old]
  simp only [addEdge, Edge]
  split
  · rename_i h_known
    constructor
    · exact .inr
    · rintro (⟨rfl, rfl⟩ | h)
      · exact h_known
      · exact h
  · simp only [List.mem_append, List.mem_singleton, Prod.mk.injEq]
    tauto

/-- Edges from one node to each of some successors. -/
theorem foldl_addEdge (g : OrderedGraph α) (n : α) (successors : List α) :
    (∀ m, m ∈ (successors.foldl (fun g s => g.addEdge n s) g).nodes ↔
      (m = n ∧ successors ≠ []) ∨ m ∈ successors ∨ m ∈ g.nodes) ∧
    (∀ a b, (successors.foldl (fun g s => g.addEdge n s) g).Edge a b ↔
      (a = n ∧ b ∈ successors) ∨ g.Edge a b) := by
  induction successors generalizing g with
  | nil => simp
  | cons s rest ih =>
    obtain ⟨h_nodes, h_edges⟩ := ih (g.addEdge n s)
    simp only [List.foldl_cons]
    constructor
    · intro m
      rw [h_nodes]
      simp only [mem_nodes_addEdge, List.mem_cons, ne_eq, reduceCtorEq, not_false_eq_true, and_true]
      tauto
    · intro a b
      rw [h_edges]
      simp only [edge_addEdge, List.mem_cons]
      tauto

@[simp] theorem mem_nodes_addAdjacency {g : OrderedGraph α} {n m : α} {successors : List α} :
    m ∈ (g.addAdjacency n successors).nodes ↔ m = n ∨ m ∈ successors ∨ m ∈ g.nodes := by
  rw [addAdjacency, (foldl_addEdge _ n successors).1]
  simp only [mem_nodes_addNode]
  tauto

@[simp] theorem edge_addAdjacency {g : OrderedGraph α} {n a b : α} {successors : List α} :
    (g.addAdjacency n successors).Edge a b ↔ (a = n ∧ b ∈ successors) ∨ g.Edge a b := by
  rw [addAdjacency, (foldl_addEdge _ n successors).2, edge_addNode]

/-- The nodes and edges of a graph that is given by successor lists. -/
theorem foldl_addAdjacency (g : OrderedGraph α) (lists : List (α × List α)) :
    (∀ n, n ∈ (lists.foldl (fun g (n, successors) => g.addAdjacency n successors) g).nodes ↔
      (∃ l ∈ lists, n = l.1 ∨ n ∈ l.2) ∨ n ∈ g.nodes) ∧
    (∀ a b, (lists.foldl (fun g (n, successors) => g.addAdjacency n successors) g).Edge a b ↔
      (∃ l ∈ lists, a = l.1 ∧ b ∈ l.2) ∨ g.Edge a b) := by
  induction lists generalizing g with
  | nil => simp
  | cons l rest ih =>
    obtain ⟨h_nodes, h_edges⟩ := ih (g.addAdjacency l.1 l.2)
    simp only [List.foldl_cons]
    constructor
    · intro n
      rw [h_nodes]
      simp only [mem_nodes_addAdjacency, List.exists_mem_cons_iff, or_assoc, or_left_comm]
    · intro a b
      rw [h_edges]
      simp only [edge_addAdjacency, List.exists_mem_cons_iff, or_assoc, or_left_comm]

theorem mem_nodes_ofAdjacency {lists : List (α × List α)} {n : α} :
    n ∈ (ofAdjacency lists).nodes ↔ ∃ l ∈ lists, n = l.1 ∨ n ∈ l.2 := by
  rw [ofAdjacency, (foldl_addAdjacency {} lists).1]
  simp

theorem edge_ofAdjacency {lists : List (α × List α)} {a b : α} :
    (ofAdjacency lists).Edge a b ↔ ∃ l ∈ lists, a = l.1 ∧ b ∈ l.2 := by
  rw [ofAdjacency, (foldl_addAdjacency {} lists).2]
  simp [Edge]

theorem endsAreNodes_ofAdjacency (lists : List (α × List α)) :
    (ofAdjacency lists).EndsAreNodes := by
  intro a b h_edge
  obtain ⟨l, h_l, rfl, h_b⟩ := edge_ofAdjacency.1 h_edge
  exact ⟨mem_nodes_ofAdjacency.2 ⟨l, h_l, .inl rfl⟩, mem_nodes_ofAdjacency.2 ⟨l, h_l, .inr h_b⟩⟩

/-! ## Orders -/

/-- The nodes of a graph in an order that no edge runs against. -/
structure IsTopological (g : OrderedGraph α) (order : List α) : Prop where
  nodup : order.Nodup
  mem_iff : ∀ n, n ∈ order ↔ n ∈ g.nodes
  forward : order.Pairwise fun a b => ¬ g.Edge b a
  irrefl : ∀ a, ¬ g.Edge a a

namespace IsTopological

variable {g : OrderedGraph α} {order : List α}

/-- Ranks grow along edges. -/
theorem idxOf_lt (h : IsTopological g order) (h_ends : g.EndsAreNodes) {a b : α}
    (h_edge : g.Edge a b) : order.idxOf a < order.idxOf b := by
  obtain ⟨h_a, h_b⟩ := h_ends a b h_edge
  have h_lt_a := List.idxOf_lt_length_of_mem ((h.mem_iff a).2 h_a)
  have h_lt_b := List.idxOf_lt_length_of_mem ((h.mem_iff b).2 h_b)
  by_contra h_not
  rcases Nat.lt_or_eq_of_le (Nat.le_of_not_lt h_not) with h_lt | h_eq
  · -- An edge from a later node to an earlier one runs against the order.
    have h_pair := List.pairwise_iff_getElem.1 h.forward _ _ h_lt_b h_lt_a h_lt
    rw [List.getElem_idxOf, List.getElem_idxOf] at h_pair
    exact h_pair h_edge
  · -- Equal ranks make the edge a loop.
    have h_same : b = a := by
      have h_get := List.getElem_idxOf h_lt_b
      simp only [h_eq, List.getElem_idxOf] at h_get
      exact h_get.symm
    exact h.irrefl a (h_same ▸ h_edge)

theorem acyclic (h : IsTopological g order) (h_ends : g.EndsAreNodes) : g.Acyclic :=
  not_transGen_self_of_rank order.idxOf fun _ _ => h.idxOf_lt h_ends

omit [DecidableEq α] in
/-- What an edge leads to comes later. -/
theorem mem_of_edge (h : IsTopological g order) (h_ends : g.EndsAreNodes) {l₁ l₂ : List α} {a b : α}
    (h_order : order = l₁ ++ a :: l₂) (h_edge : g.Edge a b) : b ∈ l₂ := by
  have h_b : b ∈ l₁ ++ a :: l₂ := h_order ▸ (h.mem_iff b).2 (h_ends a b h_edge).2
  rcases List.mem_append.1 h_b with h_b | h_b
  · -- The target cannot come earlier, and it is not the node itself.
    have h_forward := h.forward
    rw [h_order] at h_forward
    exact absurd h_edge ((List.pairwise_append.1 h_forward).2.2 b h_b a (List.mem_cons_self ..))
  · rcases List.mem_cons.1 h_b with rfl | h_b
    · exact absurd h_edge (h.irrefl b)
    · exact h_b

end IsTopological

/-! ## Checking an order -/

/-- Nothing is misplaced if every predecessor of a node comes before it. -/
theorem misplaced?_eq_none {g : OrderedGraph α} {seen order : List α} :
    g.misplaced? seen order = none ↔
      ∀ l₁ n l₂, order = l₁ ++ n :: l₂ → ∀ p ∈ g.predecessors n, p ∈ l₁ ∨ p ∈ seen := by
  induction order generalizing seen with
  | nil => simp [misplaced?]
  | cons m rest ih =>
    rw [misplaced?]
    split
    · rename_i p h_last
      -- A last predecessor that has not been seen refutes both sides.
      have h_p : p ∈ (g.predecessors m).filter (· ∉ seen) := List.mem_of_getLast? h_last
      simp only [List.mem_filter, decide_eq_true_eq] at h_p
      simp only [reduceCtorEq, false_iff, not_forall]
      exact ⟨[], m, rest, rfl, p, h_p.1, by simp [h_p.2]⟩
    · rename_i h_last
      have h_seen : ∀ p ∈ g.predecessors m, p ∈ seen := by
        intro p hp
        by_contra h_new
        have h_mem : p ∈ (g.predecessors m).filter (· ∉ seen) := by simp [hp, h_new]
        rw [List.getLast?_eq_none_iff.1 h_last] at h_mem
        exact absurd h_mem (List.not_mem_nil)
      rw [ih]
      constructor
      · intro h l₁ n l₂ h_order p hp
        cases l₁ with
        | nil =>
          obtain ⟨rfl, rfl⟩ := List.cons.inj h_order
          exact .inr (h_seen p hp)
        | cons x l₁ =>
          obtain ⟨rfl, h_rest⟩ := List.cons.inj h_order
          rcases h l₁ n l₂ h_rest p hp with h | h
          · exact .inl (List.mem_cons_of_mem _ h)
          · rcases List.mem_cons.1 h with rfl | h
            · exact .inl (List.mem_cons_self ..)
            · exact .inr h
      · intro h l₁ n l₂ h_rest p hp
        rcases h (m :: l₁) n l₂ (by rw [h_rest]; rfl) p hp with h | h
        · rcases List.mem_cons.1 h with rfl | h
          · exact .inr (List.mem_cons_self ..)
          · exact .inl h
        · exact .inr (List.mem_cons_of_mem _ h)

/-- A misplaced node has an edge to one that comes before it. -/
theorem misplaced?_eq_some {g : OrderedGraph α} {seen order : List α} {p : α}
    (h : g.misplaced? seen order = some p) :
    ∃ l₁ n l₂, order = l₁ ++ n :: l₂ ∧ p ∈ g.predecessors n ∧ p ∉ l₁ ∧ p ∉ seen := by
  induction order generalizing seen with
  | nil => simp [misplaced?] at h
  | cons m rest ih =>
    rw [misplaced?] at h
    split at h
    · rename_i q h_last
      obtain rfl := Option.some.inj h
      have h_q : q ∈ (g.predecessors m).filter (· ∉ seen) := List.mem_of_getLast? h_last
      simp only [List.mem_filter, decide_eq_true_eq] at h_q
      exact ⟨[], m, rest, rfl, h_q.1, List.not_mem_nil, h_q.2⟩
    · obtain ⟨l₁, n, l₂, rfl, h_pred, h_late, h_new⟩ := ih h
      rw [List.mem_cons, not_or] at h_new
      refine ⟨m :: l₁, n, l₂, rfl, h_pred, ?_, h_new.2⟩
      rw [List.mem_cons, not_or]
      exact ⟨h_new.1, h_late⟩

/-! ## Finding an order -/

/-- The search through a graph finishes every node once. -/
theorem search_visited {g : OrderedGraph α} (h_ends : g.EndsAreNodes) :
    Visited (fun n => (g.successors n).reverse) g.nodes {} g.search g.search.finished := by
  -- Successors are nodes, so the nodes are closed under them.
  have h_closed : Closed (fun n => (g.successors n).reverse) g.nodes := by
    intro n _ m hm
    rw [List.mem_reverse, mem_successors] at hm
    exact (h_ends n m hm).2
  obtain ⟨added, h⟩ := visitAll_visited h_closed (Nat.le_refl g.nodes.length) g.nodes (fun _ => id)
  have h_finished : g.search.finished = added := by
    have := h.finished
    rwa [List.append_nil] at this
  rw [h_finished]
  exact h

theorem step_reverse_successors {g : OrderedGraph α} {a b : α} :
    Step (fun n => (g.successors n).reverse) a b ↔ g.Edge a b := by
  rw [Step, List.mem_reverse, mem_successors]

theorem mem_finished {g : OrderedGraph α} (h_ends : g.EndsAreNodes) (n : α) :
    n ∈ g.search.finished ↔ n ∈ g.nodes := by
  have h := search_visited h_ends
  constructor
  · intro hn
    -- The search starts from nodes and its steps lead to nodes.
    obtain ⟨s, hs, h_reach⟩ := h.reached n hn
    refine Closed.reaches ?_ h_reach hs
    intro a _ b hb
    exact (h_ends a b (step_reverse_successors.1 hb)).2
  · intro hn
    have h_found := (h.discovered n).1 (h.visited n hn)
    simpa using h_found

/-- No node is its own successor if none is found among the discovered ones. -/
theorem find?_selfLoop_eq_none {g : OrderedGraph α} (h_ends : g.EndsAreNodes) :
    g.search.discovered.reverse.find? (fun n => n ∈ g.successors n) = none ↔ ∀ a, ¬ g.Edge a a := by
  simp only [List.find?_eq_none, List.mem_reverse, mem_successors, decide_eq_true_eq]
  constructor
  · intro h a h_edge
    exact h a ((search_visited h_ends).visited a (h_ends a a h_edge).1) h_edge
  · intro h a _
    exact h a

/-- An order that is given out is topological. -/
theorem isTopological_of_ok {g : OrderedGraph α} (h_ends : g.EndsAreNodes) {order : List α}
    (h_ok : g.topologicalOrder = .ok order) : IsTopological g order := by
  simp only [topologicalOrder] at h_ok
  split at h_ok
  · cases h_ok
  · rename_i h_loop
    split at h_ok
    · cases h_ok
    · rename_i h_placed
      obtain rfl := Except.ok.inj h_ok
      have h := search_visited h_ends
      refine ⟨h.nodup, mem_finished h_ends, ?_, (find?_selfLoop_eq_none h_ends).1 h_loop⟩
      -- A later node with an edge to an earlier one would stand before it as well.
      rw [List.pairwise_iff_forall_sublist]
      intro a b h_sub h_edge
      obtain ⟨l₁, l₂, h_order, h_a, h_b⟩ := List.cons_sublist_iff.1 h_sub
      obtain ⟨r₁, r₂, rfl⟩ := List.append_of_mem h_a
      have h_b' : b ∈ l₂ := List.singleton_sublist.1 h_b
      have h_nodup := h.nodup
      rw [h_order] at h_nodup
      have h_ne : b ≠ a := by
        rintro rfl
        exact (List.nodup_append.1 h_nodup).2.2 b h_a b h_b' rfl
      have h_pred := misplaced?_eq_none.1 h_placed r₁ a (r₂ ++ l₂) (by simp [h_order]) b
        (mem_predecessors.2 ⟨h_edge, h_ne⟩)
      have h_before : b ∈ r₁ := by simpa using h_pred
      exact (List.nodup_append.1 h_nodup).2.2 b (List.mem_append_left _ h_before) b h_b' rfl

/-- A node reaches the predecessors that were finished after it. -/
theorem reaches_of_finished_later {g : OrderedGraph α} (h_ends : g.EndsAreNodes) {l₁ l₂ : List α}
    {n p : α} (h_order : g.search.finished = l₁ ++ n :: l₂) (h_pred : p ∈ g.predecessors n)
    (h_late : p ∉ l₁) : ReflTransGen g.Edge n p := by
  obtain ⟨h_edge, h_ne⟩ := mem_predecessors.1 h_pred
  have h_p : p ∈ l₁ ++ n :: l₂ := h_order ▸ (mem_finished h_ends p).2 (h_ends p n h_edge).1
  have h_later : p ∈ l₂ :=
    (List.mem_cons.1 ((List.mem_append.1 h_p).resolve_left h_late)).resolve_left h_ne
  have h_edges : Step (fun n => (g.successors n).reverse) = g.Edge := by
    funext a b
    exact propext step_reverse_successors
  have h_ordered := (search_visited h_ends).ordered
  rw [h_order, h_edges] at h_ordered
  have h_pairs := (List.pairwise_append.1 h_ordered).2.1
  exact (List.pairwise_cons.1 h_pairs).1 p h_later h_edge

/-- Without a cycle there is an order. -/
theorem exists_order_of_acyclic {g : OrderedGraph α} (h_ends : g.EndsAreNodes)
    (h_acyclic : g.Acyclic) :
    ∃ order, g.topologicalOrder = .ok order := by
  have h_loop := (find?_selfLoop_eq_none h_ends).2 fun a h_edge => h_acyclic a (.single h_edge)
  have h_placed : g.misplaced? [] g.search.finished = none := by
    rw [misplaced?_eq_none]
    intro l₁ n l₂ h_order p hp
    by_contra h_late
    rw [not_or] at h_late
    -- A predecessor that was finished later closes a cycle.
    have h_back := reaches_of_finished_later h_ends h_order hp h_late.1
    exact h_acyclic n (TransGen.tail' h_back (mem_predecessors.1 hp).1)
  refine ⟨g.search.finished, ?_⟩
  simp only [topologicalOrder, h_loop, h_placed]

/-- The node that an order fails at lies on a cycle. -/
theorem transGen_of_error {g : OrderedGraph α} (h_ends : g.EndsAreNodes) {p : α}
    (h_error : g.topologicalOrder = .error p) : TransGen g.Edge p p := by
  simp only [topologicalOrder] at h_error
  split at h_error
  · -- The node is its own successor.
    rename_i n h_loop
    obtain rfl := Except.error.inj h_error
    have h_self := List.find?_some h_loop
    rw [decide_eq_true_eq, mem_successors] at h_self
    exact .single h_self
  · split at h_error
    · -- The node has an edge to one that reaches it.
      rename_i n h_misplaced
      obtain rfl := Except.error.inj h_error
      obtain ⟨l₁, m, l₂, h_order, h_pred, h_late, -⟩ := misplaced?_eq_some h_misplaced
      have h_back := reaches_of_finished_later h_ends h_order h_pred h_late
      exact TransGen.head' (mem_predecessors.1 h_pred).1 h_back
    · cases h_error

/-- There is no order exactly if there is a cycle. -/
theorem exists_error_iff {g : OrderedGraph α} (h_ends : g.EndsAreNodes) :
    (∃ p, g.topologicalOrder = .error p) ↔ ∃ a, TransGen g.Edge a a := by
  constructor
  · rintro ⟨p, h_error⟩
    exact ⟨p, transGen_of_error h_ends h_error⟩
  · rintro ⟨a, h_cycle⟩
    cases h_order : g.topologicalOrder with
    | error p => exact ⟨p, rfl⟩
    | ok order => exact absurd h_cycle ((isTopological_of_ok h_ends h_order).acyclic h_ends a)

end ProgramQuery.Graph.OrderedGraph
