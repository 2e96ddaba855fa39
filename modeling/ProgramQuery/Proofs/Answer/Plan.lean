/-
  ProgramQuery.Proofs.Answer.Plan

  What a plan keeps of a query.

  Clauses are put together whenever a name has an owner already, so the unions connect
  clauses that are connected, and all clauses with a name are put together with its owner
  (`Links.Traces`).  Whichever finder is used, its classes are the components.  Hence the
  groups of a plan hold the clauses of the query and no others, and no two groups share
  a synonym (`Query.Grouping`).

  In a component some pending clause always touches a placed one, so arranging it
  never falls back on a clause that shares nothing with those before it.
-/

import Mathlib.Data.List.Perm.Basic
import Mathlib.Logic.Relation
import ProgramQuery.Answer.Plan
import ProgramQuery.Proofs.Facts.PairStore

namespace ProgramQuery

open Relation (ReflTransGen)

/-- Groups that hold the clauses of a query: no two of them share a synonym, and those
    that do not count as selected bind nothing that the query selects. -/
structure Query.Grouping (q : Query) (groups : List ClauseGroup) : Prop where
  clauses : ∀ c, (∃ g ∈ groups, c ∈ g.clauses) ↔ c ∈ q.clauses
  apart : groups.Pairwise fun g h => ∀ c ∈ g.clauses, ∀ d ∈ h.clauses, ∀ s ∈ c.synonyms,
    s ∉ d.synonyms
  unselected : ∀ g ∈ groups, g.selected = false → ∀ c ∈ g.clauses, ∀ s ∈ c.synonyms, s ∉ q.selected

/-- What is asked of all clauses is asked of the clauses of each group. -/
theorem Query.Grouping.forall_clauses {q : Query} {groups : List ClauseGroup}
    (h : q.Grouping groups) {P : Clause → Prop} :
    (∀ c ∈ q.clauses, P c) ↔ ∀ g ∈ groups, ∀ c ∈ g.clauses, P c := by
  simp only [← h.clauses]
  exact ⟨fun h_all g hg c hc => h_all c ⟨g, hg, hc⟩, fun h_all c ⟨g, hg, hc⟩ => h_all g hg c hc⟩

/-! ## Arrangement -/

namespace Clause

theorem cheapest?_eq_none {cs : List Clause} : cheapest? cs = none ↔ cs = [] := by
  cases cs with
  | nil => simp [cheapest?]
  | cons c rest =>
    simp only [cheapest?, List.cons_ne_nil, iff_false]
    split
    · simp
    · split <;> simp

theorem mem_of_cheapest? {cs : List Clause} {c : Clause} (h : cheapest? cs = some c) : c ∈ cs := by
  induction cs generalizing c with
  | nil => cases h
  | cons d rest ih =>
    simp only [cheapest?] at h
    split at h
    · cases h
      exact List.mem_cons_self ..
    · rename_i e h_rest
      split at h
      · cases h
        exact List.mem_cons_of_mem _ (ih h_rest)
      · cases h
        exact List.mem_cons_self ..

theorem touches_iff {c d : Clause} : c.touches d = true ↔ ∃ name ∈ c.names, name ∈ d.names := by
  simp [touches]

theorem touches_comm {c d : Clause} (h : c.touches d = true) : d.touches c = true := by
  obtain ⟨name, h_c, h_d⟩ := touches_iff.1 h
  exact touches_iff.2 ⟨name, h_d, h_c⟩

end Clause

namespace Plan

theorem mem_candidates {placed pending : List Clause} {c : Clause} :
    c ∈ candidates placed pending ↔
      c ∈ pending ∧ (placed = [] ∨ ∃ d ∈ placed, c.touches d = true) := by
  simp [candidates]

theorem mem_of_next? {placed pending : List Clause} {c : Clause}
    (h : next? placed pending = some c) : c ∈ pending := by
  rcases Option.or_eq_some_iff.1 h with h_c | ⟨-, h_c⟩
  · exact (mem_candidates.1 (Clause.mem_of_cheapest? h_c)).1
  · exact Clause.mem_of_cheapest? h_c

theorem next?_eq_none {placed pending : List Clause} (h : next? placed pending = none) :
    pending = [] := by
  rw [next?, Option.or_eq_none_iff] at h
  exact Clause.cheapest?_eq_none.1 h.2

/-- With a candidate at hand, the clause that comes next is one. -/
theorem mem_candidates_of_next? {placed pending : List Clause} {c : Clause}
    (h : next? placed pending = some c) (h_some : candidates placed pending ≠ []) :
    c ∈ candidates placed pending := by
  rcases Option.or_eq_some_iff.1 h with h_c | ⟨h_none, -⟩
  · exact Clause.mem_of_cheapest? h_c
  · exact absurd (Clause.cheapest?_eq_none.1 h_none) h_some

/-- The states in which some clauses can be while they are arranged: those that have been
    placed, and those that are pending. -/
inductive Arranging (part : List Clause) : List Clause → List Clause → Prop where
  | start : Arranging part [] part
  | place {placed pending : List Clause} {c : Clause} (h : Arranging part placed pending)
      (h_next : next? placed pending = some c) : Arranging part (placed ++ [c]) (pending.erase c)

namespace Arranging

variable {part placed pending : List Clause}

/-- No clause gets lost. -/
theorem perm (h : Arranging part placed pending) : (placed ++ pending).Perm part := by
  induction h with
  | start => exact .refl _
  | @place placed pending c _ h_next ih =>
    rw [List.append_assoc]
    have h_erase := (List.perm_cons_erase (mem_of_next? h_next)).symm
    exact (h_erase.append_left placed).trans ih

/-- With enough fuel, all that is pending is placed. -/
theorem arrangeFrom {fuel : Nat} (h : Arranging part placed pending)
    (h_fuel : pending.length ≤ fuel) : Arranging part (arrangeFrom fuel placed pending) [] := by
  induction fuel generalizing placed pending with
  | zero =>
    rw [List.length_eq_zero_iff.1 (Nat.le_zero.1 h_fuel)] at h
    exact h
  | succ fuel ih =>
    simp only [Plan.arrangeFrom]
    split
    · rename_i h_none
      rw [next?_eq_none h_none] at h
      exact h
    · rename_i c h_next
      have h_length := List.length_erase_of_mem (mem_of_next? h_next)
      exact ih (h.place h_next) (by omega)

/-- A placed clause was the next one when those before it were placed. -/
theorem exists_next (h : Arranging part placed pending) {before after : List Clause} {c : Clause}
    (h_eq : placed = before ++ c :: after) :
    ∃ rest, Arranging part before rest ∧ next? before rest = some c := by
  induction h generalizing after with
  | start => simp at h_eq
  | @place placed pending d h h_next ih =>
    obtain rfl | ⟨after', e, rfl⟩ := List.eq_nil_or_concat after
    · obtain ⟨rfl, h_d⟩ := List.append_inj' h_eq rfl
      obtain rfl : d = c := List.head_eq_of_cons_eq h_d
      exact ⟨pending, h, h_next⟩
    · rw [List.concat_eq_append, ← List.cons_append, ← List.append_assoc] at h_eq
      exact ih (List.append_inj' h_eq rfl).1

end Arranging

theorem arranging_arrange (part : List Clause) : Arranging part (arrange part) [] :=
  Arranging.start.arrangeFrom (Nat.le_refl _)

/-- Arranging clauses only reorders them. -/
theorem perm_arrange (part : List Clause) : (arrange part).Perm part := by
  have h_perm := (arranging_arrange part).perm
  rwa [List.append_nil] at h_perm

/-! ## Classes -/

variable {cs : List Clause}

/-- The clauses at two places are connected by clauses that touch. -/
def Connected (cs : List Clause) : Fin cs.length → Fin cs.length → Prop :=
  ReflTransGen fun i j => (cs.get i).touches (cs.get j) = true

theorem Connected.of_mem {i j : Fin cs.length} {name : String} (h_i : name ∈ (cs.get i).names)
    (h_j : name ∈ (cs.get j).names) : Connected cs i j :=
  .single (Clause.touches_iff.2 ⟨name, h_i, h_j⟩)

theorem equivalence_connected (cs : List Clause) : Equivalence (Connected cs) := by
  refine ⟨fun _ => .refl, fun h => ?_, .trans⟩
  induction h with
  | refl => exact .refl
  | tail _ h_step ih => exact .head (Clause.touches_comm h_step) ih

/-- What is known after the given names have been added: places that were put together are
    connected, the owner of a name has it, and a place that was added with the name is the owner
    or was put together with it. -/
structure Links.Traces (cs : List Clause) (seen : List (Fin cs.length × String))
    (l : Links cs.length) : Prop where
  connected : ∀ u ∈ l.unions, Connected cs u.1 u.2
  owns : ∀ name j, l.owner[name]? = some j → name ∈ (cs.get j).names
  owned : ∀ i name, (i, name) ∈ seen →
    ∃ j, l.owner[name]? = some j ∧ (i = j ∨ (i, j) ∈ l.unions)

namespace Links.Traces

variable {seen : List (Fin cs.length × String)} {l : Links cs.length}

theorem start (cs : List Clause) : Traces cs [] {} :=
  ⟨by simp, by simp, by simp⟩

/-- Adding a name of the clause at a place. -/
theorem add (h : Traces cs seen l) {i : Fin cs.length} {name : String}
    (h_name : name ∈ (cs.get i).names) : Traces cs (seen ++ [(i, name)]) (l.add i name) := by
  unfold Links.add
  split
  · rename_i j h_owner
    -- Earlier unions stay, and the place is put together with the owner.
    refine ⟨fun u h_u => ?_, h.owns, fun k other h_seen => ?_⟩
    · rw [List.mem_append, List.mem_singleton] at h_u
      obtain h_u | rfl := h_u
      · exact h.connected u h_u
      · exact .of_mem h_name (h.owns name j h_owner)
    · rw [List.mem_append, List.mem_singleton, Prod.mk.injEq] at h_seen
      obtain h_seen | ⟨rfl, rfl⟩ := h_seen
      · obtain ⟨o, h_o, h_together⟩ := h.owned k other h_seen
        exact ⟨o, h_o, h_together.imp_right (List.mem_append_left _)⟩
      · exact ⟨j, h_owner, .inr List.mem_concat_self⟩
  · rename_i h_owner
    refine ⟨h.connected, fun other j h_j => ?_, fun k other h_seen => ?_⟩
    · simp only [Std.ExtTreeMap.getElem?_insert, Std.LawfulEqOrd.compare_eq_iff_eq] at h_j
      split at h_j
      · rename_i h_eq
        subst h_eq
        cases h_j
        exact h_name
      · exact h.owns other j h_j
    · simp only [Std.ExtTreeMap.getElem?_insert, Std.LawfulEqOrd.compare_eq_iff_eq]
      rw [List.mem_append, List.mem_singleton, Prod.mk.injEq] at h_seen
      obtain h_seen | ⟨rfl, rfl⟩ := h_seen
      · obtain ⟨o, h_o, h_together⟩ := h.owned k other h_seen
        -- The name had no owner, so it is not the one that is added.
        have h_ne : name ≠ other := by
          rintro rfl
          rw [h_o] at h_owner
          cases h_owner
        exact ⟨o, by rw [if_neg h_ne, h_o], h_together⟩
      · exact ⟨k, by rw [if_pos rfl], .inl rfl⟩

theorem addAll (h : Traces cs seen l) {found : List (Fin cs.length × String)}
    (h_found : ∀ x ∈ found, x.2 ∈ (cs.get x.1).names) :
    Traces cs (seen ++ found) (l.addAll found) := by
  induction found generalizing seen l with
  | nil =>
    rw [List.append_nil]
    exact h
  | cons x found ih =>
    rw [List.forall_mem_cons] at h_found
    have h_rest := ih (h.add h_found.1) h_found.2
    rw [List.append_assoc] at h_rest
    exact h_rest

end Links.Traces

theorem mem_incidences {i : Fin cs.length} {name : String} :
    (i, name) ∈ incidences cs ↔ name ∈ (cs.get i).names := by
  simp [incidences]

/-- The unions connect two places if and only if the clauses there are connected. -/
theorem connects_unions_iff {i j : Fin cs.length} :
    (unions cs).Connects i j ↔ Connected cs i j := by
  have h_traces := (Links.Traces.start cs).addAll fun x hx => mem_incidences.1 hx
  rw [List.nil_append] at h_traces
  constructor
  · intro h_connects
    exact h_connects _ (equivalence_connected cs) h_traces.connected
  · intro h_connected E h_equivalence h_unions
    have h_owner : ∀ {k name}, name ∈ (cs.get k).names → ∃ o,
        (Links.addAll {} (incidences cs)).owner[name]? = some o ∧ E k o := by
      intro k name h_name
      obtain ⟨o, h_o, rfl | h_union⟩ := h_traces.owned k name (mem_incidences.2 h_name)
      · exact ⟨k, h_o, h_equivalence.refl k⟩
      · exact ⟨o, h_o, h_unions _ h_union⟩
    induction h_connected with
    | refl => exact h_equivalence.refl i
    | tail _ h_step ih =>
      obtain ⟨name, h_b, h_c⟩ := Clause.touches_iff.1 h_step
      -- Both clauses were put together with the owner of a name that they share.
      obtain ⟨o, h_o, h_bo⟩ := h_owner h_b
      obtain ⟨o', h_o', h_co⟩ := h_owner h_c
      rw [h_o, Option.some.injEq] at h_o'
      subst h_o'
      exact h_equivalence.trans ih (h_equivalence.trans h_bo (h_equivalence.symm h_co))

/-- Two clauses are in one class if and only if they are connected. -/
theorem find_unions_eq_iff {finder : Graph.ClassFinder} {i j : Fin cs.length} :
    finder.find (unions cs) i = finder.find (unions cs) j ↔ Connected cs i j :=
  finder.find_eq_iff.trans connects_unions_iff

/-! ## Components -/

variable {finder : Graph.ClassFinder}

/-- The members of a list, taken by their values under a function, are the members of the list. -/
theorem perm_flatMap_filter {α β : Type} [DecidableEq β] {l : List α} (h : l.Nodup) (f : α → β) :
    ((l.map f).eraseDups.flatMap fun b => l.filter (f · = b)).Perm l := by
  refine (List.perm_ext_iff_of_nodup ?_ h).2 fun a => ?_
  · rw [List.nodup_flatMap]
    refine ⟨fun b _ => h.filter _, (Facts.nodup_eraseDups _).imp fun h_ne a h_a h_b => ?_⟩
    rw [List.mem_filter, decide_eq_true_eq] at h_a h_b
    exact h_ne (h_a.2.symm.trans h_b.2)
  · simp only [List.mem_flatMap, List.mem_eraseDups, List.mem_map, List.mem_filter,
      decide_eq_true_eq]
    constructor
    · rintro ⟨-, -, h_a, -⟩
      exact h_a
    · intro h_a
      exact ⟨f a, ⟨a, h_a, rfl⟩, h_a, rfl⟩

/-- The components have each clause as often as the list has it. -/
theorem perm_flatten_components (finder : Graph.ClassFinder) (cs : List Clause) :
    (components finder cs).flatten.Perm cs := by
  have h_places := perm_flatMap_filter (List.nodup_finRange cs.length) (finder.find (unions cs))
  have h_clauses := h_places.map cs.get
  rw [List.map_get_finRange, List.map_flatMap, List.flatMap_def] at h_clauses
  exact h_clauses

/-- The components hold all clauses. -/
theorem mem_some_component (finder : Graph.ClassFinder) {c : Clause} :
    (∃ part ∈ components finder cs, c ∈ part) ↔ c ∈ cs := by
  rw [← List.mem_flatten, (perm_flatten_components finder cs).mem_iff]

theorem nodup_of_mem_components (h : cs.Nodup) {part : List Clause}
    (h_part : part ∈ components finder cs) : part.Nodup :=
  (List.nodup_flatten.1 ((perm_flatten_components finder cs).nodup_iff.2 h)).1 part h_part

/-- A component is what is connected with one of the clauses. -/
theorem mem_of_mem_components {part : List Clause} (h : part ∈ components finder cs) :
    ∃ i, ∀ c, c ∈ part ↔ ∃ j, Connected cs i j ∧ cs.get j = c := by
  obtain ⟨root, h_root, rfl⟩ := List.mem_map.1 h
  rw [List.mem_eraseDups] at h_root
  obtain ⟨i, -, rfl⟩ := List.mem_map.1 h_root
  refine ⟨i, fun c => ?_⟩
  simp [eq_comm, find_unions_eq_iff]

/-- Clauses of different components do not touch. -/
theorem components_apart (finder : Graph.ClassFinder) (cs : List Clause) :
    (components finder cs).Pairwise fun A B => ∀ c ∈ A, ∀ d ∈ B, ¬ c.touches d = true := by
  rw [components, List.pairwise_map]
  refine (Facts.nodup_eraseDups _).imp fun h_ne c h_c d h_d h_touches => h_ne ?_
  obtain ⟨i, h_i, rfl⟩ := List.mem_map.1 h_c
  obtain ⟨j, h_j, rfl⟩ := List.mem_map.1 h_d
  rw [List.mem_filter, decide_eq_true_eq] at h_i h_j
  rw [← h_i.2, ← h_j.2, find_unions_eq_iff]
  exact .single h_touches

/-- If a path leads from a place with a property to one without, a step of it does. -/
theorem Connected.exists_step {i j : Fin cs.length} (h : Connected cs i j)
    {P : Fin cs.length → Prop} (h_i : P i) (h_j : ¬ P j) :
    ∃ k l, Connected cs i k ∧ Connected cs i l ∧ P k ∧ ¬ P l ∧
      (cs.get k).touches (cs.get l) = true := by
  induction h with
  | refl => exact absurd h_i h_j
  | @tail k l h_k h_step ih =>
    by_cases h_P : P k
    · exact ⟨k, l, h_k, h_k.tail h_step, h_P, h_j, h_step⟩
    · exact ih h_P

/-- In a component, the clauses with a property touch those without. -/
theorem exists_touches_across {part : List Clause} (h : part ∈ components finder cs)
    {P : Clause → Prop} {c d : Clause} (h_c : c ∈ part) (h_d : d ∈ part) (h_P : P c)
    (h_not : ¬ P d) :
    ∃ c ∈ part, ∃ d ∈ part, P c ∧ ¬ P d ∧ c.touches d = true := by
  obtain ⟨i, h_part⟩ := mem_of_mem_components h
  obtain ⟨j, h_j, rfl⟩ := (h_part c).1 h_c
  obtain ⟨k, h_k, rfl⟩ := (h_part d).1 h_d
  have h_jk : Connected cs j k := .trans ((equivalence_connected cs).symm h_j) h_k
  obtain ⟨a, b, h_a, h_b, h_Pa, h_Pb, h_touches⟩ :=
    h_jk.exists_step (P := fun m => P (cs.get m)) h_P h_not
  exact ⟨_, (h_part _).2 ⟨a, h_j.trans h_a, rfl⟩, _, (h_part _).2 ⟨b, h_j.trans h_b, rfl⟩,
    h_Pa, h_Pb, h_touches⟩

/-- While a component is arranged there is always a candidate. -/
theorem Arranging.candidates_ne_nil (h_nodup : cs.Nodup) {part placed pending : List Clause}
    (h_part : part ∈ components finder cs) (h : Arranging part placed pending)
    (h_pending : pending ≠ []) : candidates placed pending ≠ [] := by
  obtain ⟨d, h_d⟩ := List.exists_mem_of_ne_nil _ h_pending
  by_cases h_placed : placed = []
  · exact List.ne_nil_of_mem (mem_candidates.2 ⟨h_d, .inl h_placed⟩)
  · obtain ⟨c, h_c⟩ := List.exists_mem_of_ne_nil _ h_placed
    have h_mem : ∀ e, e ∈ placed ∨ e ∈ pending ↔ e ∈ part := by
      intro e
      rw [← h.perm.mem_iff, List.mem_append]
    have h_apart : placed.Disjoint pending := by
      apply List.disjoint_of_nodup_append
      rw [h.perm.nodup_iff]
      exact nodup_of_mem_components h_nodup h_part
    -- The component is in one piece, so what is placed touches what is pending.
    obtain ⟨a, -, b, h_b, h_a, h_not, h_touches⟩ := exists_touches_across h_part
      (P := (· ∈ placed)) ((h_mem c).1 (.inl h_c)) ((h_mem d).1 (.inr h_d)) h_c
      fun h => h_apart h h_d
    have h_candidate : b ∈ candidates placed pending := by
      rw [mem_candidates]
      exact ⟨((h_mem b).2 h_b).resolve_left h_not, .inr ⟨a, h_a, Clause.touches_comm h_touches⟩⟩
    exact List.ne_nil_of_mem h_candidate

/-! ## Groups -/

theorem mem_group {selected : List String} {part : List Clause} {c : Clause} :
    c ∈ (group selected part).clauses ↔ c ∈ part :=
  (perm_arrange part).mem_iff

end Plan

namespace Query

/-- Groups in another order group the same. -/
theorem Grouping.perm {q : Query} {groups others : List ClauseGroup} (h : q.Grouping groups)
    (h_perm : groups.Perm others) : q.Grouping others := by
  refine ⟨fun c => ?_, (h_perm.pairwise_iff ?_).1 h.apart,
    fun g hg => h.unselected g (h_perm.mem_iff.2 hg)⟩
  · simp only [← h.clauses, h_perm.mem_iff]
  · exact fun h_gh c hc d hd s hs h_s => h_gh d hd c hc s h_s hs

/-- The plan of a query groups its clauses. -/
theorem grouping_plan (q : Query) (finder : Graph.ClassFinder) : q.Grouping (q.plan finder) := by
  refine Grouping.perm ?_ (List.mergeSort_perm ..).symm
  constructor
  · intro c
    simp only [List.mem_map, exists_exists_and_eq_and, Plan.mem_group, Plan.mem_some_component,
      List.mem_eraseDups]
  · rw [List.pairwise_map]
    refine (Plan.components_apart finder _).imp fun h_apart c hc d hd s hs h_s => ?_
    refine h_apart c (Plan.mem_group.1 hc) d (Plan.mem_group.1 hd) (Clause.touches_iff.2 ?_)
    exact ⟨s.name, List.mem_map.2 ⟨s, hs, rfl⟩, List.mem_map.2 ⟨s, h_s, rfl⟩⟩
  · intro g hg h_unselected c hc s hs h_selected
    obtain ⟨part, -, rfl⟩ := List.mem_map.1 hg
    refine absurd (List.any_eq_true.2 ⟨s.name, ?_, ?_⟩) (Bool.eq_false_iff.1 h_unselected)
    · exact List.mem_flatMap.2 ⟨c, Plan.mem_group.1 hc, List.mem_map.2 ⟨s, hs, rfl⟩⟩
    · exact List.contains_iff_mem.2 (List.mem_map.2 ⟨s, h_selected, rfl⟩)

/-- All clauses in one group are grouped. -/
theorem grouping_unplanned (q : Query) : q.Grouping q.unplanned := by
  unfold unplanned
  split
  · rename_i h_none
    rw [List.isEmpty_iff] at h_none
    exact ⟨by simp [h_none], .nil, by simp⟩
  · exact ⟨by simp, List.pairwise_singleton .., by simp⟩

end Query

end ProgramQuery
