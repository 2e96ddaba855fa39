/-
  ProgramQuery.Proofs.Facts.Components

  Going through a relation component by component.

  A path of one step or more is a `TransGen` of the stored pairs.  What a member of
  a strongly connected component reaches is the component itself, if it is cyclic,
  and what the steps out of the component lead to.  These lead to components that
  come earlier, so it is known by then what those reach (`Settled`): no component
  is entered before its time, and all pairs are found that a path joins.
-/

import Mathlib.Data.List.Induction
import ProgramQuery.Facts.Closure
import ProgramQuery.Proofs.Facts.PairStore
import ProgramQuery.Proofs.Graph.Components

namespace ProgramQuery.Facts.PairStore

open Std (ExtTreeMap ExtTreeSet)
open Relation (ReflTransGen TransGen)

variable {α : Type} [Ord α] [Std.TransOrd α]

/-! ## Paths -/

/-- The pair is joined by a path of one step or more. -/
def Joined (s : PairStore α α) : α → α → Prop :=
  TransGen fun a b => s.contains a b

theorem joined_of_contains {s : PairStore α α} {a b : α} (h : s.contains a b) : s.Joined a b :=
  .single h

/-- A path is a step, and then possibly more. -/
theorem joined_iff {s : PairStore α α} {a c : α} :
    s.Joined a c ↔ ∃ b, s.contains a b ∧ (c = b ∨ s.Joined b c) := by
  constructor
  · intro h
    obtain ⟨b, h_step, h_rest⟩ := TransGen.head'_iff.1 h
    refine ⟨b, h_step, ?_⟩
    rcases ReflTransGen.cases_head_iff.1 h_rest with rfl | ⟨d, h_step', h_rest'⟩
    · exact .inl rfl
    · exact .inr (TransGen.head' h_step' h_rest')
  · rintro ⟨b, h_step, rfl | h_rest⟩
    · exact .single h_step
    · exact .head h_step h_rest

/-- A path that leaves a set of nodes takes a step out of it. -/
theorem exists_step_out {s : PairStore α α} {C : List α} {a b : α}
    (h : ReflTransGen (fun a b => s.contains a b) a b) (h_a : a ∈ C) (h_b : b ∉ C) :
    ∃ x ∈ C, ∃ y ∉ C, s.contains x y ∧ ReflTransGen (fun a b => s.contains a b) y b := by
  induction h using ReflTransGen.head_induction_on with
  | refl => exact absurd h_a h_b
  | @head x y h_step h_rest ih =>
    by_cases h_y : y ∈ C
    · exact ih h_y
    · exact ⟨x, h_a, y, h_y, h_step, h_rest⟩

/-! ## What a component reaches -/

/-- The strongly connected components of a store, in an order such that no pair leads from a
    component to a later one. -/
abbrev Components (s : PairStore α α) (components : List (List α)) : Prop :=
  Graph.StrongComponents (fun a b => s.contains a b) s.nodes components

section

variable {s : PairStore α α} {components : List (List α)}

/-- The members of a component reach themselves exactly if it is cyclic. -/
theorem isCyclic_iff (h : s.Components components) {C : List α} (hC : C ∈ components) {n : α}
    (hn : n ∈ C) : s.isCyclic C = true ↔ s.Joined n n := by
  have h_strong := h.strong C hC n hn
  match C, h.nodup C hC, hn with
  | [m], _, hn =>
    obtain rfl := List.mem_singleton.1 hn
    refine ⟨fun h_loop => .single h_loop, fun h_cycle => ?_⟩
    -- A cycle through the only member does not leave the component.
    obtain ⟨b, h_step, h_rest⟩ := TransGen.head'_iff.1 h_cycle
    have h_b : b ∈ [n] := (h_strong b).2 ⟨.single h_step, h_rest⟩
    rwa [List.mem_singleton.1 h_b] at h_step
  | x :: y :: rest, h_nodup, hn =>
    refine ⟨fun _ => ?_, fun _ => rfl⟩
    have h_other : ∃ m ∈ x :: y :: rest, m ≠ n := by
      by_cases h_x : x = n
      · refine ⟨y, by simp, fun h_y => (List.nodup_cons.1 h_nodup).1 ?_⟩
        simp [h_x, h_y]
      · exact ⟨x, by simp, h_x⟩
    obtain ⟨m, hm, h_ne⟩ := h_other
    obtain ⟨h_to, h_back⟩ := (h_strong m).1 hm
    rcases Relation.reflTransGen_iff_eq_or_transGen.1 h_to with h_eq | h_path
    · exact absurd h_eq h_ne
    · exact h_path.trans_left h_back

/-- What a member of a component reaches: the members if it is cyclic, and what belongs together
    with, or is reached from, a node that a step out of the component leads to. -/
theorem joined_iff_component (h : s.Components components) {C : List α} (hC : C ∈ components)
    {n : α} (hn : n ∈ C) {b : α} : s.Joined n b ↔
      (s.isCyclic C = true ∧ b ∈ C) ∨
        ∃ x ∈ C, ∃ y ∉ C, s.contains x y ∧
          (Graph.Mutual (fun a b => s.contains a b) y b ∨ s.Joined y b) := by
  have h_strong := h.strong C hC n hn
  constructor
  · intro h_path
    by_cases h_b : b ∈ C
    · have h_cycle : s.Joined n n := h_path.trans_left ((h_strong b).1 h_b).2
      exact .inl ⟨(isCyclic_iff h hC hn).2 h_cycle, h_b⟩
    · obtain ⟨x, hx, y, hy, h_step, h_rest⟩ := exists_step_out h_path.to_reflTransGen hn h_b
      refine .inr ⟨x, hx, y, hy, h_step, ?_⟩
      rcases Relation.reflTransGen_iff_eq_or_transGen.1 h_rest with rfl | h_further
      · exact .inl (.refl _ b)
      · exact .inr h_further
  · rintro (⟨h_cyclic, h_b⟩ | ⟨x, hx, y, -, h_step, h_rest⟩)
    · exact ((isCyclic_iff h hC hn).1 h_cyclic).trans_left ((h_strong b).1 h_b).1
    · have h_y : s.Joined n y := TransGen.tail' ((h_strong x).1 hx).1 h_step
      rcases h_rest with h_mutual | h_path
      · exact h_y.trans_left h_mutual.1
      · exact h_y.trans h_path

/-! ## What has been found -/

/-- What was found for some components is what their members reach. -/
def Settled (s : PairStore α α) (done : List (List α)) (found : Array (ExtTreeSet α)) : Prop :=
  List.Forall₂ (fun C reach => ∀ n ∈ C, ∀ b, b ∈ reach ↔ s.Joined n b) done found.toList

namespace Settled

variable {done : List (List α)} {found : Array (ExtTreeSet α)}

theorem size_eq (h : s.Settled done found) : found.size = done.length := by
  rw [← Array.length_toList, h.length_eq]

theorem exists_getElem? (h : s.Settled done found) {i : Nat} {C : List α}
    (h_C : done[i]? = some C) :
    ∃ reach, found[i]? = some reach ∧ ∀ n ∈ C, ∀ b, b ∈ reach ↔ s.Joined n b := by
  obtain ⟨h_i, rfl⟩ := List.getElem?_eq_some_iff.1 h_C
  have h_found : i < found.toList.length := by rw [← h.length_eq]; exact h_i
  exact ⟨found[i], by simp, h.get h_i h_found⟩

theorem push (h : s.Settled done found) {C : List α} {reach : ExtTreeSet α}
    (h_C : ∀ n ∈ C, ∀ b, b ∈ reach ↔ s.Joined n b) :
    s.Settled (done ++ [C]) (found.push reach) := by
  rw [Settled, Array.toList_push]
  exact List.rel_append h (.cons h_C .nil)

end Settled

theorem entered?_eq_some {found : Array (ExtTreeSet α)} {i : Nat} {C : List α}
    {reach : ExtTreeSet α} (h_C : components[i]? = some C) (h_reach : found[i]? = some reach) :
    entered? components found i = some (.ofList C ∪ reach) := by
  simp [entered?, h_C, h_reach]

/-- Steps that stay, or lead into components for which there is an answer, add up. -/
theorem exists_foldlM_entered {place : ExtTreeMap α Nat} {found : Array (ExtTreeSet α)}
    {nexts : List α} (own : ExtTreeSet α)
    (h : ∀ b ∈ nexts, place.getD b 0 ≠ found.size →
      ∃ more, entered? components found (place.getD b 0) = some more) :
    ∃ reach, nexts.foldlM (fun reach next =>
        let target := place.getD next 0
        if target = found.size then some reach
        else (entered? components found target).map (reach ∪ ·)) own = some reach ∧
      ∀ y, y ∈ reach ↔ y ∈ own ∨ ∃ b ∈ nexts, place.getD b 0 ≠ found.size ∧
        ∃ more, entered? components found (place.getD b 0) = some more ∧ y ∈ more := by
  induction nexts generalizing own with
  | nil => exact ⟨own, rfl, by simp⟩
  | cons b rest ih =>
    have h_rest := fun x hx => h x (List.mem_cons_of_mem b hx)
    by_cases h_own : place.getD b 0 = found.size
    · obtain ⟨reach, h_reach, h_mem⟩ := ih own h_rest
      refine ⟨reach, ?_, fun y => ?_⟩
      · simpa [List.foldlM_cons, h_own] using h_reach
      · simp [h_mem, h_own]
    · obtain ⟨more, h_more⟩ := h b (List.mem_cons_self ..) h_own
      obtain ⟨reach, h_reach, h_mem⟩ := ih (own ∪ more) h_rest
      refine ⟨reach, ?_, fun y => ?_⟩
      · simpa [List.foldlM_cons, h_own, h_more] using h_reach
      · simp [h_mem, h_own, h_more, or_assoc]

end

/-! ## Places of components -/

theorem places_append (components : List (List α)) (C : List α) :
    places (components ++ [C]) =
      C.foldl (fun place n => place.insert n components.length) (places components) := by
  simp [places, List.zipIdx_append]

variable [Std.LawfulEqOrd α]

theorem mem_successors {s : PairStore α α} {a b : α} : b ∈ s.successors a ↔ s.contains a b := by
  rw [successors, ExtTreeSet.mem_toList, mem_image]

variable [DecidableEq α] {s : PairStore α α} {components : List (List α)}

theorem mem_ofList {members : List α} {n : α} : n ∈ ExtTreeSet.ofList members ↔ n ∈ members := by
  rw [ExtTreeSet.mem_ofList, List.contains_iff_mem]

theorem getElem?_foldl_insert {members : List α} {i : Nat} {place : ExtTreeMap α Nat} {n : α} :
    (members.foldl (fun place n => place.insert n i) place)[n]? =
      if n ∈ members then some i else place[n]? := by
  induction members generalizing place with
  | nil => simp
  | cons m rest ih =>
    rw [List.foldl_cons, ih, ExtTreeMap.getElem?_insert]
    by_cases h_rest : n ∈ rest
    · simp [h_rest]
    · by_cases h_eq : m = n
      · simp [h_eq]
      · simp [h_rest, h_eq, Ne.symm h_eq]

/-- A node has the place of its component. -/
theorem getD_places (h : components.Pairwise List.Disjoint) {i : Nat} {C : List α}
    (h_C : components[i]? = some C) {n : α} (hn : n ∈ C) : (places components).getD n 0 = i := by
  suffices (places components)[n]? = some i by rw [ExtTreeMap.getD_eq_getD_getElem?, this]; rfl
  -- The last component is entered last, so the induction is from the end.
  induction components using List.reverseRecOn generalizing i C with
  | nil => simp at h_C
  | append_singleton components D ih =>
    rw [List.pairwise_append] at h
    rw [places_append, getElem?_foldl_insert]
    rcases Nat.lt_trichotomy i components.length with h_lt | rfl | h_gt
    · rw [List.getElem?_append_left h_lt] at h_C
      have h_D : n ∉ D := fun h_n =>
        h.2.2 C (List.mem_of_getElem? h_C) D (List.mem_singleton_self D) hn h_n
      rw [if_neg h_D]
      exact ih h.1 h_C hn
    · rw [List.getElem?_concat_length, Option.some.injEq] at h_C
      rw [if_pos (h_C ▸ hn)]
    · rw [List.getElem?_eq_none (by simp; omega)] at h_C
      cases h_C

/-! ## Component after component -/

theorem mem_nodes (h : s.Coherent) {n : α} :
    n ∈ s.nodes ↔ (∃ v, s.contains n v) ∨ ∃ k, s.contains k n := by
  rw [nodes, ExtTreeSet.mem_toList, mem_ofList, List.mem_append, h.mem_keys, h.mem_values]

/-- The steps from a component lead into it or to one of those before it. -/
theorem exists_place_of_step (h_s : s.Coherent) {done rest : List (List α)} {C : List α}
    (h : s.Components (done ++ C :: rest)) {a b : α} (ha : a ∈ C) (h_step : s.contains a b) :
    (b ∈ C ∧ (places (done ++ C :: rest)).getD b 0 = done.length) ∨
      b ∉ C ∧ ∃ i D, done[i]? = some D ∧ b ∈ D ∧ (places (done ++ C :: rest)).getD b 0 = i := by
  obtain ⟨D, hD, hb⟩ := (h.mem_iff b).2 ((mem_nodes h_s).2 (.inr ⟨a, h_step⟩))
  have h_disjoint := List.pairwise_append.1 h.disjoint
  have h_place : ∀ {i E}, (done ++ C :: rest)[i]? = some E → b ∈ E →
      (places (done ++ C :: rest)).getD b 0 = i := fun h_E => getD_places h.disjoint h_E
  rcases List.mem_append.1 hD with hD | hD
  · obtain ⟨i, h_i⟩ := List.getElem?_of_mem hD
    have h_lt := (List.getElem?_eq_some_iff.1 h_i).1
    refine .inr ⟨fun h_b => h_disjoint.2.2 D hD C (List.mem_cons_self ..) hb h_b, i, D, h_i, hb, ?_⟩
    exact h_place ((List.getElem?_append_left h_lt).trans h_i) hb
  · rcases List.mem_cons.1 hD with rfl | hD
    · exact .inl ⟨hb, h_place (by simp) hb⟩
    · -- A step to a later component would run against the order.
      have h_backward := (List.pairwise_append.1 h.backward).2.1
      exact absurd h_step ((List.pairwise_cons.1 h_backward).1 D hD a ha b hb)

/-- A step out of a component is known by its place, and if all components before this one are
    settled there is an answer to what it gives. -/
theorem entered_of_step (h_s : s.Coherent) {done rest : List (List α)} {C : List α}
    (h : s.Components (done ++ C :: rest)) {found : Array (ExtTreeSet α)}
    (h_found : s.Settled done found) {a b : α} (ha : a ∈ C) (h_step : s.contains a b) :
    ((places (done ++ C :: rest)).getD b 0 ≠ found.size ↔ b ∉ C) ∧
      (b ∉ C → ∃ more,
        entered? (done ++ C :: rest) found ((places (done ++ C :: rest)).getD b 0) = some more ∧
          ∀ y, y ∈ more ↔ Graph.Mutual (fun a b => s.contains a b) b y ∨ s.Joined b y) := by
  rcases exists_place_of_step h_s h ha h_step with ⟨h_b, h_place⟩ | ⟨h_b, i, D, h_D, hb, h_place⟩
  · exact ⟨by simp [h_b, h_place, h_found.size_eq], fun h_out => absurd h_b h_out⟩
  · have h_lt := (List.getElem?_eq_some_iff.1 h_D).1
    have h_ne : i ≠ found.size := by rw [h_found.size_eq]; omega
    refine ⟨by simp [h_b, h_place, h_ne], fun _ => ?_⟩
    obtain ⟨reach, h_reach, h_mem⟩ := h_found.exists_getElem? h_D
    have h_all : (done ++ C :: rest)[i]? = some D := (List.getElem?_append_left h_lt).trans h_D
    refine ⟨.ofList D ∪ reach, h_place ▸ entered?_eq_some h_all h_reach, fun y => ?_⟩
    rw [ExtTreeSet.mem_union_iff, mem_ofList, h.strong D (List.mem_of_getElem? h_all) b hb,
      h_mem b hb]

/-- For a component that comes after settled ones, it is found what its members reach. -/
theorem exists_componentReach (h_s : s.Coherent) {done rest : List (List α)} {C : List α}
    (h : s.Components (done ++ C :: rest)) {found : Array (ExtTreeSet α)}
    (h_found : s.Settled done found) :
    ∃ reach,
      s.componentReach? (done ++ C :: rest) (places (done ++ C :: rest)) found C = some reach ∧
      ∀ n ∈ C, ∀ b, b ∈ reach ↔ s.Joined n b := by
  have h_step : ∀ b ∈ C.flatMap s.successors, ∃ a ∈ C, s.contains a b := by
    simp [mem_successors]
  obtain ⟨reach, h_reach, h_mem⟩ := exists_foldlM_entered (if s.isCyclic C then .ofList C else ∅)
    fun b hb h_ne => by
      obtain ⟨a, ha, h_ab⟩ := h_step b hb
      obtain ⟨h_iff, h_more⟩ := entered_of_step h_s h h_found ha h_ab
      exact (h_more (h_iff.1 h_ne)).imp fun _ h_some => h_some.1
  refine ⟨reach, h_reach, fun n hn y => ?_⟩
  rw [h_mem, joined_iff_component h (by simp) hn]
  refine or_congr (by cases s.isCyclic C <;> simp) ⟨?_, ?_⟩
  · rintro ⟨b, hb, h_ne, more, h_more, h_y⟩
    obtain ⟨a, ha, h_ab⟩ := h_step b hb
    obtain ⟨h_iff, h_some⟩ := entered_of_step h_s h h_found ha h_ab
    obtain ⟨more', h_more', h_mem'⟩ := h_some (h_iff.1 h_ne)
    obtain rfl := Option.some.inj (h_more.symm.trans h_more')
    exact ⟨a, ha, b, h_iff.1 h_ne, h_ab, (h_mem' y).1 h_y⟩
  · rintro ⟨a, ha, b, h_b, h_ab, h_y⟩
    obtain ⟨h_iff, h_some⟩ := entered_of_step h_s h h_found ha h_ab
    obtain ⟨more, h_more, h_mem'⟩ := h_some h_b
    have hb : b ∈ C.flatMap s.successors := List.mem_flatMap.2 ⟨a, ha, mem_successors.2 h_ab⟩
    exact ⟨b, hb, h_iff.2 h_b, more, h_more, (h_mem' y).2 h_y⟩

/-- Component after component, it is found what each of them reaches. -/
theorem exists_settled_foldlM (h_s : s.Coherent) {done rest : List (List α)}
    (h : s.Components (done ++ rest)) {found : Array (ExtTreeSet α)}
    (h_found : s.Settled done found) :
    ∃ found', rest.foldlM (fun found members =>
        (s.componentReach? (done ++ rest) (places (done ++ rest)) found members).map found.push)
          found = some found' ∧ s.Settled (done ++ rest) found' := by
  induction rest generalizing done found with
  | nil => exact ⟨found, rfl, by simpa using h_found⟩
  | cons C rest ih =>
    obtain ⟨reach, h_reach, h_mem⟩ := exists_componentReach h_s h h_found
    have h_split : done ++ C :: rest = (done ++ [C]) ++ rest := by simp
    obtain ⟨found', h_found', h_settled⟩ := ih (h_split ▸ h) (h_found.push h_mem)
    rw [← h_split] at h_found' h_settled
    refine ⟨found', ?_, h_settled⟩
    simpa [List.foldlM_cons, h_reach] using h_found'

/-- Through the strongly connected components, in whatever order has no step from a component to
    a later one, all pairs are found that are joined by a path. -/
theorem exists_componentPairs (h_s : s.Coherent) (h : s.Components components) :
    ∃ pairs, s.componentPairs? components = some pairs ∧ ∀ a b, (a, b) ∈ pairs ↔ s.Joined a b := by
  have h_start : s.Settled [] #[] := .nil
  obtain ⟨found, h_found, h_settled⟩ :=
    exists_settled_foldlM h_s (show s.Components ([] ++ components) from h) h_start
  rw [List.nil_append] at h_found h_settled
  refine ⟨_, by rw [componentPairs?, componentReaches?, h_found]; rfl, fun a b => ?_⟩
  simp only [List.mem_flatMap, List.mem_map, Prod.exists, Prod.mk.injEq, ExtTreeSet.mem_toList]
  constructor
  · rintro ⟨C, reach, h_zip, n, hn, y, hy, rfl, rfl⟩
    exact ((List.forall₂_iff_zip.1 h_settled).2 h_zip n hn y).1 hy
  · intro h_path
    obtain ⟨c, h_step, -⟩ := joined_iff.1 h_path
    obtain ⟨C, hC, ha⟩ := (h.mem_iff a).2 ((mem_nodes h_s).2 (.inl ⟨c, h_step⟩))
    obtain ⟨i, h_i⟩ := List.getElem?_of_mem hC
    obtain ⟨reach, h_reach, h_mem⟩ := h_settled.exists_getElem? h_i
    have h_zip : (C, reach) ∈ components.zip found.toList := by
      refine List.mem_of_getElem? (i := i) ?_
      rw [List.getElem?_zip_eq_some]
      exact ⟨h_i, by simpa using h_reach⟩
    exact ⟨C, reach, h_zip, a, ha, b, (h_mem a ha b).2 h_path, rfl, rfl⟩

/-! ## All pairs -/

/-- The components that a store is gone through by are the strongly connected ones. -/
theorem components_strongComponents (h : s.Coherent) : s.Components s.strongComponents := by
  have h_step : Graph.Step s.successors = fun a b => s.contains a b = true := by
    funext a b
    exact propext mem_successors
  have h_swap : ∀ a b, a ∈ s.predecessors b ↔ b ∈ s.successors a := by
    intro a b
    rw [predecessors, ExtTreeSet.mem_toList, h.mem_preimage, mem_successors]
  have h_forward : Graph.Closed s.successors s.nodes :=
    fun a _ b hb => (mem_nodes h).2 (.inr ⟨a, mem_successors.1 hb⟩)
  have h_back : Graph.Closed s.predecessors s.nodes :=
    fun b _ a ha => (mem_nodes h).2 (.inl ⟨b, mem_successors.1 ((h_swap a b).1 ha)⟩)
  have h_strong := Graph.strongComponents_components h_swap h_back h_forward
  rwa [h_step] at h_strong

/-- Going through the components finds the pairs that are joined by a path. -/
theorem mem_reachablePairs (h : s.Coherent) {a b : α} :
    (a, b) ∈ s.reachablePairs ↔ s.Joined a b := by
  obtain ⟨pairs, h_pairs, h_mem⟩ := exists_componentPairs h (components_strongComponents h)
  rw [reachablePairs, h_pairs]
  exact h_mem a b

omit [DecidableEq α] in
theorem joined_ofList (pairs : List (α × α)) :
    (ofList pairs).Joined = TransGen fun a b => (a, b) ∈ pairs := by
  simp only [Joined, contains_ofList]

/-- The closure of a finite relation.  Through its strongly connected components, in whatever
    order has no step from a component to a later one, no component is entered before it has been
    found what it reaches, and the pairs that come out are those joined by a path of one step or
    more.  The components that are used are of this kind. -/
theorem component_pass_finds_paths (pairs : List (α × α)) :
    (∀ components,
      Graph.StrongComponents (fun a b => (a, b) ∈ pairs) (ofList pairs).nodes components →
        ∃ found, (ofList pairs).componentPairs? components = some found ∧
          ∀ a b, (a, b) ∈ found ↔ TransGen (fun a b => (a, b) ∈ pairs) a b) ∧
    Graph.StrongComponents (fun a b => (a, b) ∈ pairs) (ofList pairs).nodes
      (ofList pairs).strongComponents ∧
    (ofList pairs).componentPairs? (ofList pairs).strongComponents =
      some (ofList pairs).reachablePairs ∧
    ∀ a b, (a, b) ∈ (ofList pairs).reachablePairs ↔ TransGen (fun a b => (a, b) ∈ pairs) a b := by
  have h_coherent : (ofList pairs).Coherent := .ofList pairs
  have h_strong := components_strongComponents h_coherent
  have h_all : ∀ components, (ofList pairs).Components components →
      ∃ found, (ofList pairs).componentPairs? components = some found ∧
        ∀ a b, (a, b) ∈ found ↔ (ofList pairs).Joined a b :=
    fun _ => exists_componentPairs h_coherent
  simp only [Components, contains_ofList, joined_ofList] at h_strong h_all
  refine ⟨h_all, h_strong, ?_, fun a b => ?_⟩
  · obtain ⟨found, h_found, -⟩ := h_all _ h_strong
    rw [reachablePairs, h_found]
    rfl
  · rw [mem_reachablePairs h_coherent, joined_ofList]

/-- Two loops that one step connects, a node with a step to itself behind them and a node without
    one in front. -/
def connectedLoops : List (Nat × Nat) :=
  [(6, 1), (1, 2), (2, 1), (2, 3), (3, 4), (4, 3), (4, 5), (5, 5)]

/-- The loops are components; the node in front reaches everything but itself. -/
theorem paths_of_connectedLoops :
    (ofList connectedLoops).strongComponents.map List.length = [1, 2, 2, 1] ∧
      (∃ components found,
        Graph.StrongComponents (fun a b => (a, b) ∈ connectedLoops) (ofList connectedLoops).nodes
            components ∧
          (ofList connectedLoops).componentPairs? components = some found ∧
          (5, 5) ∈ found ∧ (1, 1) ∈ found ∧ (6, 4) ∈ found ∧ (6, 6) ∉ found ∧ (3, 2) ∉ found) := by
  obtain ⟨h_all, h_strong, -, h_paths⟩ := component_pass_finds_paths connectedLoops
  obtain ⟨found, h_found, h_mem⟩ := h_all _ h_strong
  refine ⟨by decide +kernel, _, found, h_strong, h_found, ?_⟩
  simp only [h_mem, ← h_paths]
  decide +kernel

end ProgramQuery.Facts.PairStore
