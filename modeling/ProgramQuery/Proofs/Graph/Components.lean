/-
  ProgramQuery.Proofs.Graph.Components

  The components that are collected are the strongly connected ones.

  The first search leaves an order in which whatever a node reaches belongs
  together with the node itself or with one before it (`RootsFirst`): this is what
  `Rooted` says of a search against the steps.  So when a node is taken up, all that
  it reaches beyond its own component was seen, and a search that avoids what was
  seen finds the component and nothing else.  What was seen (`Seen`) and what is
  collected (`Collected`) are followed node by node.
-/

import ProgramQuery.Graph.Components
import ProgramQuery.Proofs.Graph.Search

namespace ProgramQuery.Graph

open Relation (ReflTransGen)

variable {α : Type}

/-- The strongly connected components of a relation between some nodes, in an order such that
    no step leads from a component to a later one. -/
structure StrongComponents (r : α → α → Prop) (nodes : List α) (components : List (List α)) :
    Prop where
  nonempty : ∀ C ∈ components, C ≠ []
  nodup : ∀ C ∈ components, C.Nodup
  mem_iff : ∀ n, (∃ C ∈ components, n ∈ C) ↔ n ∈ nodes
  strong : ∀ C ∈ components, ∀ a ∈ C, ∀ b, b ∈ C ↔ Mutual r a b
  disjoint : components.Pairwise List.Disjoint
  backward : components.Pairwise fun C D => ∀ a ∈ C, ∀ b ∈ D, ¬ r a b

/-! ## The order of the first search -/

/-- Whatever a node reaches belongs together with the node or with one before it. -/
def RootsFirst (r : α → α → Prop) (order : List α) : Prop :=
  ∀ before n after, order = before ++ n :: after → ∀ m, ReflTransGen r n m →
    ∃ k ∈ before ++ [n], Mutual r m k

section

variable {successors predecessors : α → List α} {nodes : List α}

/-- Paths against the steps are paths read backwards. -/
theorem reaches_predecessors (h : ∀ a b, a ∈ predecessors b ↔ b ∈ successors a) {a b : α} :
    ReflTransGen (Step predecessors) a b ↔ ReflTransGen (Step successors) b a := by
  have h_swap : Step predecessors = Function.swap (Step successors) := by
    funext x y
    exact propext (h y x)
  rw [h_swap, Relation.reflTransGen_swap]

variable [DecidableEq α]

/-- A search against the steps finishes all nodes, in an order in which roots come first. -/
theorem rootsFirst_finished (h : ∀ a b, a ∈ predecessors b ↔ b ∈ successors a)
    (h_back : Closed predecessors nodes) (h_closed : Closed successors nodes) :
    (∀ n, n ∈ (Search.visitAll predecessors nodes.length nodes).finished ↔ n ∈ nodes) ∧
      RootsFirst (Step successors) (Search.visitAll predecessors nodes.length nodes).finished := by
  obtain ⟨added, h_visited⟩ :=
    visitAll_visited h_back (Nat.le_refl nodes.length) nodes fun _ => id
  have h_finished : (Search.visitAll predecessors nodes.length nodes).finished = added := by
    rw [h_visited.finished, List.append_nil]
  have h_mem : ∀ n, n ∈ added ↔ n ∈ nodes := by
    intro n
    constructor
    · intro hn
      obtain ⟨s, hs, h_reach⟩ := h_visited.reached n hn
      exact h_back.reaches h_reach hs
    · intro hn
      simpa using (h_visited.discovered n).1 (h_visited.visited n hn)
  rw [h_finished]
  refine ⟨h_mem, fun before n after h_split m h_path => ?_⟩
  have h_m : m ∈ added := by
    have h_n : n ∈ nodes := (h_mem n).1 (by simp [h_split])
    exact (h_mem m).2 (h_closed.reaches h_path h_n)
  rw [h_split, List.mem_append, List.mem_cons] at h_m
  rcases h_m with h_m | rfl | h_m
  · exact ⟨m, List.mem_append_left _ h_m, .refl _ m⟩
  · exact ⟨m, by simp, .refl _ m⟩
  · -- The node was finished earlier, so it lies on a cycle with one that was not.
    have h_against := (reaches_predecessors h).2 h_path
    rcases h_visited.rooted before n after h_split m h_m h_against with
      ⟨k, hk, h_to, h_from⟩ | h_none
    · exact ⟨k, hk, (reaches_predecessors h).1 h_from, (reaches_predecessors h).1 h_to⟩
    · simp at h_none

end

/-! ## What was seen, and what was collected -/

/-- The nodes that were seen are those that belong together with one taken up before. -/
def Seen (r : α → α → Prop) (before seen : List α) : Prop :=
  ∀ m, m ∈ seen ↔ ∃ k ∈ before, Mutual r k m

namespace Seen

variable {r : α → α → Prop} {before seen : List α} {n : α}

/-- A node that was seen brings nothing new. -/
theorem known (h : Seen r before seen) (h_n : n ∈ seen) : Seen r (before ++ [n]) seen := by
  intro m
  constructor
  · intro hm
    obtain ⟨k, hk, h_mutual⟩ := (h m).1 hm
    exact ⟨k, List.mem_append_left _ hk, h_mutual⟩
  · rintro ⟨k, hk, h_mutual⟩
    rcases List.mem_append.1 hk with hk | hk
    · exact (h m).2 ⟨k, hk, h_mutual⟩
    · obtain ⟨k', hk', h_n'⟩ := (h n).1 h_n
      exact (h m).2 ⟨k', hk', h_n'.trans (List.mem_singleton.1 hk ▸ h_mutual)⟩

/-- Any other node brings its component. -/
theorem found (h : Seen r before seen) {found : List α} (h_found : ∀ m, m ∈ found ↔ Mutual r n m) :
    Seen r (before ++ [n]) (found ++ seen) := by
  intro m
  rw [List.mem_append, h_found, h m]
  simp [or_and_right, exists_or, or_comm]

end Seen

/-- The components of some nodes, without those that were seen before; no path leads from one of
    them to a later one. -/
structure Collected (r : α → α → Prop) (seen rest : List α) (components : List (List α)) :
    Prop where
  nodup : ∀ C ∈ components, C.Nodup
  strong : ∀ C ∈ components, ∃ n ∈ rest, n ∉ seen ∧ ∀ m, m ∈ C ↔ Mutual r n m
  covers : ∀ n ∈ rest, n ∈ seen ∨ ∃ C ∈ components, n ∈ C
  apart : components.Pairwise fun C D => ∀ a ∈ C, ∀ b ∈ D, ¬ ReflTransGen r a b

namespace Collected

variable {r : α → α → Prop} {seen rest : List α} {components : List (List α)} {n : α}

theorem nil : Collected r seen [] [] := by
  constructor <;> simp

/-- A node that was seen has been collected before. -/
theorem known (h : Collected r seen rest components) (h_n : n ∈ seen) :
    Collected r seen (n :: rest) components where
  nodup := h.nodup
  strong C hC := by
    obtain ⟨m, hm, h_class⟩ := h.strong C hC
    exact ⟨m, List.mem_cons_of_mem _ hm, h_class⟩
  covers := List.forall_mem_cons.2 ⟨.inl h_n, h.covers⟩
  apart := h.apart

/-- The component of a node that was not seen comes first, if all that the node reaches has been
    seen with it. -/
theorem found {found : List α} (h : Collected r (found ++ seen) rest components) (h_new : n ∉ seen)
    (h_nodup : found.Nodup) (h_found : ∀ m, m ∈ found ↔ Mutual r n m)
    (h_reached : ∀ m, ReflTransGen r n m → m ∈ found ++ seen) :
    Collected r seen (n :: rest) (found :: components) where
  nodup := List.forall_mem_cons.2 ⟨h_nodup, h.nodup⟩
  strong := by
    refine List.forall_mem_cons.2 ⟨⟨n, List.mem_cons_self .., h_new, h_found⟩, fun C hC => ?_⟩
    obtain ⟨m, hm, h_m, h_class⟩ := h.strong C hC
    exact ⟨m, List.mem_cons_of_mem _ hm, fun h_seen => h_m (List.mem_append_right _ h_seen),
        h_class⟩
  covers := by
    have h_n : n ∈ found := (h_found n).2 (.refl r n)
    refine List.forall_mem_cons.2 ⟨.inr ⟨found, List.mem_cons_self .., h_n⟩, fun m hm => ?_⟩
    rcases h.covers m hm with h_m | ⟨C, hC, h_m⟩
    · rcases List.mem_append.1 h_m with h_m | h_m
      · exact .inr ⟨found, List.mem_cons_self .., h_m⟩
      · exact .inl h_m
    · exact .inr ⟨C, List.mem_cons_of_mem _ hC, h_m⟩
  apart := by
    refine List.pairwise_cons.2 ⟨fun D hD a ha b hb h_path => ?_, h.apart⟩
    -- The node would reach the one that a later component was collected from.
    obtain ⟨m, -, h_m, h_class⟩ := h.strong D hD
    have h_b : ReflTransGen r n b := ((h_found a).1 ha).1.trans h_path
    exact h_m (h_reached m (h_b.trans ((h_class b).1 hb).2))

end Collected

/-! ## What the second search finds -/

section

variable [DecidableEq α] {successors : α → List α} {nodes : List α}

theorem nodup_visit (successors : α → List α) (fuel : Nat) (search : Search α) (n : α)
    (h : search.discovered.Nodup) : (Search.visit successors fuel search n).discovered.Nodup := by
  induction fuel generalizing search n with
  | zero => exact h
  | succ fuel ih =>
    rw [Search.visit]
    split
    · exact h
    · rename_i h_new
      have h_enter :
          (Search.discovered { search with discovered := n :: search.discovered }).Nodup :=
        List.nodup_cons.2 ⟨h_new, h⟩
      exact List.foldlRecOn (motive := fun search => search.discovered.Nodup) (successors n) _
        h_enter fun search h_search m _ => ih search m h_search

theorem nodup_reachable (successors : α → List α) (fuel : Nat) (starts : List α) :
    (reachable successors fuel starts).Nodup :=
  List.foldlRecOn (motive := fun search => search.discovered.Nodup) starts _ List.nodup_nil
    fun search h_search n _ => nodup_visit successors fuel search n h_search

theorem step_filter {seen : List α} {a b : α} :
    Step (fun m => (successors m).filter (· ∉ seen)) a b ↔ Step successors a b ∧ b ∉ seen := by
  simp [Step]

/-- From a node that was not seen, a search that avoids what was seen finds its component. -/
theorem mem_reachableUnseen (h_closed : Closed successors nodes) {before seen : List α} {n : α}
    (h_roots : ∀ m, ReflTransGen (Step successors) n m →
      ∃ k ∈ before ++ [n], Mutual (Step successors) m k)
    (h_seen : Seen (Step successors) before seen)
    (h_n : n ∈ nodes) (h_new : n ∉ seen) (m : α) :
    m ∈ reachableUnseen successors nodes.length seen n ↔ Mutual (Step successors) n m := by
  have h_unseen : Closed (fun m => (successors m).filter (· ∉ seen)) nodes :=
    fun a ha b hb => h_closed a ha b (List.mem_of_mem_filter hb)
  rw [reachableUnseen, mem_reachable_iff h_unseen (Nat.le_refl _) (by simpa using h_n)]
  simp only [List.mem_singleton, exists_eq_left]
  constructor
  · intro h_path
    have h_m : m ∉ seen := by
      rcases ReflTransGen.cases_tail h_path with rfl | ⟨k, -, h_step⟩
      · exact h_new
      · exact (step_filter.1 h_step).2
    have h_reach : ReflTransGen (Step successors) n m :=
      ReflTransGen.mono (fun a b h_step => (step_filter.1 h_step).1) n m h_path
    obtain ⟨k, hk, h_mutual⟩ := h_roots m h_reach
    rcases List.mem_append.1 hk with hk | hk
    · exact absurd ((h_seen m).2 ⟨k, hk, h_mutual.symm⟩) h_m
    · exact List.mem_singleton.1 hk ▸ h_mutual.symm
  · rintro ⟨h_path, h_return⟩
    -- All nodes on the way belong together with the first, so none of them was seen.
    induction h_path with
    | refl => exact .refl
    | tail h_init h_step ih =>
      refine .tail (ih (.head h_step h_return)) (step_filter.2 ⟨h_step, fun h_m => h_new ?_⟩)
      obtain ⟨k, hk, h_mutual⟩ := (h_seen _).1 h_m
      exact (h_seen n).2 ⟨k, hk, h_mutual.trans ⟨h_return, .tail h_init h_step⟩⟩

/-- From the rest of an order in which roots come first, the components are collected. -/
theorem collected_collect (h_closed : Closed successors nodes) (before rest seen : List α)
    (h_roots : RootsFirst (Step successors) (before ++ rest)) (h_rest : ∀ n ∈ rest, n ∈ nodes)
    (h_seen : Seen (Step successors) before seen) :
    Collected (Step successors) seen rest (collect successors nodes.length seen rest) := by
  induction rest generalizing before seen with
  | nil => exact .nil
  | cons n rest ih =>
    obtain ⟨h_n, h_later⟩ := List.forall_mem_cons.1 h_rest
    have h_split : before ++ n :: rest = (before ++ [n]) ++ rest := by simp
    rw [collect]
    split
    · rename_i h_known
      have h_rest := ih (before ++ [n]) seen (h_split ▸ h_roots) h_later (h_seen.known h_known)
      exact h_rest.known h_known
    · rename_i h_new
      have h_first := h_roots before n rest rfl
      have h_found := mem_reachableUnseen h_closed h_first h_seen h_n h_new
      have h_more := h_seen.found h_found
      refine (ih (before ++ [n]) _ (h_split ▸ h_roots) h_later h_more).found h_new
        (nodup_reachable ..) h_found fun m h_path => ?_
      obtain ⟨k, hk, h_mutual⟩ := h_first m h_path
      exact (h_more m).2 ⟨k, hk, h_mutual.symm⟩

end

/-! ## Components -/

/-- The components of a graph that is given in both directions are the strongly connected ones,
    and no step leads from one of them to a later one. -/
theorem strongComponents_components [DecidableEq α] {successors predecessors : α → List α}
    {nodes : List α} (h : ∀ a b, a ∈ predecessors b ↔ b ∈ successors a)
    (h_back : Closed predecessors nodes) (h_closed : Closed successors nodes) :
    StrongComponents (Step successors) nodes (components successors predecessors nodes) := by
  obtain ⟨h_order, h_roots⟩ := rootsFirst_finished h h_back h_closed
  have h_collected := collected_collect h_closed [] _ [] h_roots (fun n => (h_order n).1)
    (by simp [Seen])
  exact {
    nonempty := fun C hC => by
      obtain ⟨n, -, -, h_class⟩ := h_collected.strong C hC
      exact List.ne_nil_of_mem ((h_class n).2 (.refl _ n))
    nodup := h_collected.nodup
    mem_iff := fun n => by
      constructor
      · rintro ⟨C, hC, hn⟩
        obtain ⟨m, hm, -, h_class⟩ := h_collected.strong C hC
        exact h_closed.reaches ((h_class n).1 hn).1 ((h_order m).1 hm)
      · intro hn
        simpa [components] using h_collected.covers n ((h_order n).2 hn)
    strong := fun C hC a ha b => by
      obtain ⟨n, -, -, h_class⟩ := h_collected.strong C hC
      have h_a := (h_class a).1 ha
      rw [h_class]
      exact ⟨h_a.symm.trans, h_a.trans⟩
    disjoint := h_collected.apart.imp fun h_none a ha hb => h_none a ha a hb .refl
    backward := h_collected.apart.imp fun h_none a ha b hb h_step =>
      h_none a ha b hb (.single h_step) }

end ProgramQuery.Graph
