/-
  ProgramQuery.Proofs.Facts.Closure

  Propagation against paths.

  Along an order, propagation finds the paths whose steps lead back in the order, but
  for the last one (`JoinedBack`).  It never finds anything but paths, then, and it
  finds all of them if each node comes after its successors.  An order of this kind is
  what the topological one is, read backwards; where there is no such order, because
  of a cycle, the relation is gone through by components.
-/

import ProgramQuery.Proofs.Facts.Components
import ProgramQuery.Proofs.Graph.Order

namespace ProgramQuery.Facts.PairStore

open Std (ExtTreeMap ExtTreeSet)
open Relation (ReflTransGen TransGen)

variable {α : Type} [Ord α] [Std.TransOrd α]

/-! ## Steps back in an order -/

/-- A step to a node that comes earlier in the order. -/
def StepBack (s : PairStore α α) (order : List α) (a b : α) : Prop :=
  s.contains a b ∧ ∃ l₁ l₂, order = l₁ ++ a :: l₂ ∧ b ∈ l₁

/-- The pair is joined by a path of nodes in the order, all of whose steps but the last, which may
    lead anywhere, are steps back. -/
def JoinedBack (s : PairStore α α) (order : List α) (a b : α) : Prop :=
  ∃ c ∈ order, ReflTransGen (s.StepBack order) a c ∧ s.contains c b

section

variable {s : PairStore α α} {order : List α} {k a b : α}

theorem StepBack.mem (h : s.StepBack order a b) : a ∈ order ∧ b ∈ order := by
  obtain ⟨-, l₁, l₂, rfl, h_b⟩ := h
  exact ⟨by simp, by simp [h_b]⟩

/-- A path of this kind is a step, or a step back and then such a path. -/
theorem joinedBack_iff : s.JoinedBack order a b ↔
    a ∈ order ∧ ∃ c, s.contains a c ∧ (b = c ∨ s.StepBack order a c ∧ s.JoinedBack order c b) := by
  constructor
  · rintro ⟨d, h_d, h_path, h_last⟩
    rcases ReflTransGen.cases_head_iff.1 h_path with rfl | ⟨c, h_step, h_rest⟩
    · exact ⟨h_d, b, h_last, .inl rfl⟩
    · exact ⟨h_step.mem.1, c, h_step.1, .inr ⟨h_step, d, h_d, h_rest, h_last⟩⟩
  · rintro ⟨h_a, c, h_ac, rfl | ⟨h_step, d, h_d, h_rest, h_last⟩⟩
    · exact ⟨a, h_a, .refl, h_ac⟩
    · exact ⟨d, h_d, .head h_step h_rest, h_last⟩

omit [Ord α] [Std.TransOrd α] in
/-- A list with one more member at its end, split at a member. -/
theorem append_singleton_split {l₁ l₂ : List α} (h : order ++ [k] = l₁ ++ a :: l₂) :
    (a = k ∧ order = l₁) ∨ ∃ l, order = l₁ ++ a :: l := by
  rcases List.eq_nil_or_concat l₂ with rfl | ⟨l, x, rfl⟩
  · obtain ⟨h_order, h_last⟩ := List.append_inj' h rfl
    rw [List.singleton_inj] at h_last
    exact .inl ⟨h_last.symm, h_order⟩
  · have h_split : order ++ [k] = (l₁ ++ a :: l) ++ [x] := by rw [h]; simp
    exact .inr ⟨l, (List.append_inj' h_split rfl).1⟩

/-- A node at the end of the order makes no difference to those before it. -/
theorem stepBack_append (h_k : k ∉ order) (h_a : a ∈ order) :
    s.StepBack (order ++ [k]) a b ↔ s.StepBack order a b := by
  refine and_congr_right fun _ => ⟨?_, ?_⟩
  · rintro ⟨l₁, l₂, h_eq, h_b⟩
    rcases append_singleton_split h_eq with ⟨rfl, -⟩ | ⟨l, h_order⟩
    · exact absurd h_a h_k
    · exact ⟨l₁, l, h_order, h_b⟩
  · rintro ⟨l₁, l₂, rfl, h_b⟩
    exact ⟨l₁, l₂ ++ [k], by simp, h_b⟩

theorem joinedBack_append (h_k : k ∉ order) (h_a : a ∈ order) :
    s.JoinedBack (order ++ [k]) a b ↔ s.JoinedBack order a b := by
  constructor
  · -- Steps back lead to earlier nodes, so the path never comes to the new one.
    have h_stays : ∀ c, ReflTransGen (s.StepBack (order ++ [k])) a c →
        c ∈ order ∧ ReflTransGen (s.StepBack order) a c := by
      intro c h_path
      induction h_path with
      | refl => exact ⟨h_a, .refl⟩
      | tail _ h_step ih =>
        have h_old := (stepBack_append h_k ih.1).1 h_step
        exact ⟨h_old.mem.2, ih.2.tail h_old⟩
    rintro ⟨c, -, h_path, h_last⟩
    obtain ⟨h_c, h_old⟩ := h_stays c h_path
    exact ⟨c, h_c, h_old, h_last⟩
  · rintro ⟨c, h_c, h_path, h_last⟩
    have h_step : ∀ x y, s.StepBack order x y → s.StepBack (order ++ [k]) x y :=
      fun x y h => (stepBack_append h_k h.mem.1).2 h
    exact ⟨c, List.mem_append_left _ h_c, ReflTransGen.mono h_step _ _ h_path, h_last⟩

end

theorem JoinedBack.joined {s : PairStore α α} {order : List α} {a b : α}
    (h : s.JoinedBack order a b) : s.Joined a b := by
  obtain ⟨c, -, h_path, h_last⟩ := h
  exact TransGen.tail' (ReflTransGen.mono (fun _ _ h_step => h_step.1) _ _ h_path) h_last

/-- Each node comes after those of its successors that have successors themselves. -/
def SuccessorsFirst (s : PairStore α α) (order : List α) : Prop :=
  ∀ l₁ a l₂, order = l₁ ++ a :: l₂ → ∀ b, s.contains a b → b ∈ l₁ ∨ ∀ c, ¬ s.contains b c

/-- If successors come first, all steps but the last of a path are steps back. -/
theorem SuccessorsFirst.joinedBack {s : PairStore α α} {order : List α}
    (h_order : s.SuccessorsFirst order) {a b : α} (h_a : a ∈ order) (h : s.Joined a b) :
    s.JoinedBack order a b := by
  induction h using TransGen.head_induction_on with
  | single h_step => exact ⟨_, h_a, .refl, h_step⟩
  | @head a c h_step h_rest ih =>
    obtain ⟨l₁, l₂, h_split⟩ := List.append_of_mem h_a
    rcases h_order l₁ a l₂ h_split c h_step with h_c | h_last
    · have h_back : s.StepBack order a c := ⟨h_step, l₁, l₂, h_split, h_c⟩
      exact joinedBack_iff.2 ⟨h_a, c, h_step, .inr ⟨h_back, ih h_back.mem.2⟩⟩
    · obtain ⟨d, h_d, -⟩ := joined_iff.1 h_rest
      exact absurd h_d (h_last d)

/-! ## Propagation -/

variable [Std.LawfulEqOrd α]

theorem mem_reachThrough {s : PairStore α α} {known : ExtTreeMap α (ExtTreeSet α)} {k b : α} :
    b ∈ s.reachThrough known k ↔ ∃ c, s.contains k c ∧ (b = c ∨ b ∈ known.getD c ∅) := by
  have h_fold : ∀ (cs : List α) (reach : ExtTreeSet α),
      b ∈ cs.foldl (fun reach next => reach.insert next ∪ known.getD next ∅) reach ↔
        (∃ c ∈ cs, b = c ∨ b ∈ known.getD c ∅) ∨ b ∈ reach := by
    intro cs
    induction cs with
    | nil => simp
    | cons c rest ih =>
      intro reach
      rw [List.foldl_cons, ih]
      simp only [ExtTreeSet.mem_union_iff, ExtTreeSet.mem_insert,
        Std.LawfulEqOrd.compare_eq_iff_eq, List.exists_mem_cons_iff, @eq_comm _ c b]
      constructor
      · rintro (h | (h | h) | h)
        · exact .inl (.inr h)
        · exact .inl (.inl (.inl h))
        · exact .inr h
        · exact .inl (.inl (.inr h))
      · rintro (((h | h) | h) | h)
        · exact .inr (.inl (.inl h))
        · exact .inr (.inr h)
        · exact .inl h
        · exact .inr (.inl (.inr h))
  rw [reachThrough, h_fold]
  simp [mem_successors]

omit [Std.LawfulEqOrd α] in
theorem propagate_append (s : PairStore α α) (order : List α) (k : α) :
    s.propagate (order ++ [k]) =
      (s.propagate order).insert k (s.reachThrough (s.propagate order) k) := by
  simp [propagate]

/-- What propagation finds, exactly: for a node it only knows of those before it. -/
theorem mem_propagate {s : PairStore α α} {order : List α} {a b : α} (h : order.Nodup) :
    b ∈ (s.propagate order).getD a ∅ ↔ s.JoinedBack order a b := by
  -- The last node was looked at with all others known, so the induction is from the end.
  induction order using List.reverseRecOn generalizing a b with
  | nil => simp [propagate, JoinedBack]
  | append_singleton order k ih =>
    obtain ⟨h_nodup, -, h_k⟩ := List.nodup_append'.1 h
    have h_new : k ∉ order := fun h_in => h_k h_in (List.mem_singleton_self k)
    rw [propagate_append, ExtTreeMap.getD_insert]
    split
    · rename_i h_key
      obtain rfl := Std.LawfulEqOrd.eq_of_compare h_key
      rw [mem_reachThrough, joinedBack_iff]
      simp only [ih h_nodup, List.mem_append, List.mem_singleton, or_true, true_and]
      refine exists_congr fun c => and_congr_right fun h_step => or_congr_right ⟨?_, ?_⟩
      · intro h_rest
        have h_c : c ∈ order := (joinedBack_iff.1 h_rest).1
        exact ⟨⟨h_step, order, [], rfl, h_c⟩, (joinedBack_append h_new h_c).2 h_rest⟩
      · rintro ⟨⟨-, l₁, l₂, h_eq, h_c⟩, h_rest⟩
        rcases append_singleton_split h_eq with ⟨-, rfl⟩ | ⟨l, h_order⟩
        · exact (joinedBack_append h_new h_c).1 h_rest
        · exact absurd (by simp [h_order]) h_new
    · rename_i h_key
      have h_ne : a ≠ k := fun h_eq => h_key (h_eq ▸ Std.ReflOrd.compare_self)
      rw [ih h_nodup]
      by_cases h_a : a ∈ order
      · exact (joinedBack_append h_new h_a).symm
      · refine iff_of_false (fun h_path => h_a (joinedBack_iff.1 h_path).1) fun h_path => ?_
        have h_in := (joinedBack_iff.1 h_path).1
        rw [List.mem_append, List.mem_singleton] at h_in
        exact h_in.elim h_a h_ne

theorem mem_propagated {s : PairStore α α} {order : List α} {a b : α} :
    (a, b) ∈ s.propagated order ↔ b ∈ (s.propagate order).getD a ∅ :=
  mem_flatMap_toList

/-! ## Acyclic relations -/

section

variable [DecidableEq α]

theorem edge_orderedGraph {s : PairStore α α} (h : s.Coherent) {a b : α} :
    s.orderedGraph.Edge a b ↔ s.contains a b := by
  rw [orderedGraph, Graph.OrderedGraph.edge_ofAdjacency]
  simp only [List.mem_map, exists_exists_and_eq_and, mem_successors]
  constructor
  · rintro ⟨k, -, rfl, h_b⟩
    exact h_b
  · intro h_b
    exact ⟨a, (h.mem_keys a).2 ⟨b, h_b⟩, rfl, h_b⟩

omit [Std.LawfulEqOrd α] in
theorem endsAreNodes_orderedGraph (s : PairStore α α) : s.orderedGraph.EndsAreNodes :=
  Graph.OrderedGraph.endsAreNodes_ofAdjacency _

/-- Along a topological order that is read backwards, propagation finds all paths. -/
theorem mem_propagated_reverse {s : PairStore α α} (h : s.Coherent) {order : List α}
    (h_order : s.orderedGraph.IsTopological order) {a b : α} :
    (a, b) ∈ s.propagated order.reverse ↔ s.Joined a b := by
  have h_ends := endsAreNodes_orderedGraph s
  rw [mem_propagated, mem_propagate (List.nodup_reverse.2 h_order.nodup)]
  refine ⟨JoinedBack.joined, fun h_joined => SuccessorsFirst.joinedBack ?_ ?_ h_joined⟩
  · -- Read backwards, a topological order has successors first.
    intro l₁ x l₂ h_eq y h_step
    have h_split : order = l₂.reverse ++ x :: l₁.reverse := by
      rw [← List.reverse_reverse order, h_eq]
      simp
    have h_y := h_order.mem_of_edge h_ends h_split ((edge_orderedGraph h).2 h_step)
    exact .inl (List.mem_reverse.1 h_y)
  · -- What a path starts from has an edge, so it is in the order.
    obtain ⟨c, h_step, -⟩ := joined_iff.1 h_joined
    have h_node := (h_ends a c ((edge_orderedGraph h).2 h_step)).1
    exact List.mem_reverse.2 ((h_order.mem_iff a).2 h_node)

/-- The closure through a topological order, or through components where there is none. -/
theorem mem_acyclicPairs {s : PairStore α α} (h : s.Coherent) {a b : α} :
    (a, b) ∈ s.acyclicPairs ↔ s.Joined a b := by
  unfold acyclicPairs
  split
  · rename_i order h_ok
    exact mem_propagated_reverse h
      (Graph.OrderedGraph.isTopological_of_ok (endsAreNodes_orderedGraph s) h_ok)
  · exact mem_reachablePairs h

/-- A relation without a cycle has a topological order, and one with a cycle has none. -/
theorem topologicalOrder_cases {s : PairStore α α} (h : s.Coherent) :
    ((∀ a, ¬ s.Joined a a) → ∃ order, s.orderedGraph.topologicalOrder = .ok order) ∧
      ((∃ a, s.Joined a a) → ∃ n, s.orderedGraph.topologicalOrder = .error n) := by
  have h_ends := endsAreNodes_orderedGraph s
  have h_edge : s.orderedGraph.Edge = fun a b => s.contains a b = true := by
    funext a b
    exact propext (edge_orderedGraph h)
  have h_error := Graph.OrderedGraph.exists_error_iff h_ends
  have h_ok := Graph.OrderedGraph.exists_order_of_acyclic h_ends
  rw [h_edge] at h_error
  rw [Graph.OrderedGraph.Acyclic, h_edge] at h_ok
  exact ⟨h_ok, h_error.2⟩

/-- The two ways to close a finite relation agree.  Without a cycle there is a topological order,
    and along every such order, read backwards, propagation finds the pairs that are joined by a
    path.  With a cycle, be it a step from a node to itself, there is no such order and the
    relation is gone through by components, which finds them as well. -/
theorem order_pass_agrees_with_component_pass (pairs : List (α × α)) :
    (∀ a b, (a, b) ∈ (ofList pairs).acyclicPairs ↔ (a, b) ∈ (ofList pairs).reachablePairs) ∧
    ((∀ a, ¬ TransGen (fun a b => (a, b) ∈ pairs) a a) →
      (∃ order, (ofList pairs).orderedGraph.topologicalOrder = .ok order ∧
        (ofList pairs).orderedGraph.IsTopological order ∧
        (ofList pairs).acyclicPairs = (ofList pairs).propagated order.reverse) ∧
      ∀ order, (ofList pairs).orderedGraph.IsTopological order →
        ∀ a b, (a, b) ∈ (ofList pairs).propagated order.reverse ↔
          TransGen (fun a b => (a, b) ∈ pairs) a b) ∧
    ((∃ a, TransGen (fun a b => (a, b) ∈ pairs) a a) →
      (∃ n, (ofList pairs).orderedGraph.topologicalOrder = .error n) ∧
        (ofList pairs).acyclicPairs = (ofList pairs).reachablePairs ∧
        ∀ a b, (a, b) ∈ (ofList pairs).acyclicPairs ↔
          TransGen (fun a b => (a, b) ∈ pairs) a b) := by
  have h_coherent : (ofList pairs).Coherent := .ofList pairs
  obtain ⟨h_acyclic, h_cyclic⟩ := topologicalOrder_cases h_coherent
  have h_along := fun order (h_order : (ofList pairs).orderedGraph.IsTopological order) a b =>
    mem_propagated_reverse (a := a) (b := b) h_coherent h_order
  simp only [joined_ofList] at h_acyclic h_cyclic h_along
  refine ⟨fun a b => ?_, fun h_none => ⟨?_, h_along⟩, fun h_some => ?_⟩
  · rw [mem_acyclicPairs h_coherent, mem_reachablePairs h_coherent]
  · obtain ⟨order, h_ok⟩ := h_acyclic h_none
    have h_ends := endsAreNodes_orderedGraph (ofList pairs)
    refine ⟨order, h_ok, Graph.OrderedGraph.isTopological_of_ok h_ends h_ok, ?_⟩
    simp only [acyclicPairs, h_ok]
  · obtain ⟨n, h_error⟩ := h_cyclic h_some
    refine ⟨⟨n, h_error⟩, by simp only [acyclicPairs, h_error], fun a b => ?_⟩
    rw [mem_acyclicPairs h_coherent, joined_ofList]

/-- A tree is closed along an order.  A step from a node to itself is a cycle, and there is
    none. -/
theorem passes_agree_on_tree_and_loop :
    (∀ a, ¬ TransGen (fun a b => (a, b) ∈ [(1, 2), (2, 3), (1, 4)]) a a) ∧
      (∃ order : List Nat, (ofList [(1, 2), (2, 3), (1, 4)]).acyclicPairs =
          (ofList [(1, 2), (2, 3), (1, 4)]).propagated order.reverse ∧
        (1, 3) ∈ (ofList [(1, 2), (2, 3), (1, 4)]).propagated order.reverse) ∧
      (∃ n, (ofList [(5, 5), (5, 6)]).orderedGraph.topologicalOrder = .error n) ∧
      (ofList [(5, 5), (5, 6)]).acyclicPairs = (ofList [(5, 5), (5, 6)]).reachablePairs ∧
      (5, 5) ∈ (ofList [(5, 5), (5, 6)]).acyclicPairs := by
  obtain ⟨-, h_acyclic, -⟩ := order_pass_agrees_with_component_pass [(1, 2), (2, 3), (1, 4)]
  obtain ⟨-, -, h_cyclic⟩ := order_pass_agrees_with_component_pass [(5, 5), (5, 6)]
  have h_none : ∀ a, ¬ TransGen (fun a b => (a, b) ∈ [(1, 2), (2, 3), (1, 4)]) a a := by
    apply Graph.not_transGen_self_of_rank id
    intro a b h_step
    simp only [List.mem_cons, Prod.mk.injEq, List.not_mem_nil, or_false] at h_step
    simp only [id]
    omega
  have h_loop : TransGen (fun a b => (a, b) ∈ [(5, 5), (5, 6)]) 5 5 := .single (by simp)
  obtain ⟨⟨order, -, h_order, h_eq⟩, h_along⟩ := h_acyclic h_none
  obtain ⟨h_error, h_same, h_paths⟩ := h_cyclic ⟨5, h_loop⟩
  refine ⟨h_none, ⟨order, h_eq, (h_along order h_order 1 3).2 ?_⟩, h_error, h_same,
    (h_paths 5 5).2 h_loop⟩
  exact .head (b := 2) (by simp) (.single (by simp))

end

end ProgramQuery.Facts.PairStore
