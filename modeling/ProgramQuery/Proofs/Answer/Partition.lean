/-
  ProgramQuery.Proofs.Answer.Partition

  The groups of a plan.

  The plan of a query that was read divides its distinct clauses into groups that
  share no synonym, those without synonyms first and those that the result needs
  last (`Query.Partition`).  In a group every clause but the first shares a synonym
  with an earlier one, so the tables are never joined by combining all rows of one
  with all rows of the other.
-/

import ProgramQuery.Proofs.Answer.Evaluate
import ProgramQuery.Proofs.Query.Declared

namespace ProgramQuery

/-! ## Groups of components -/

namespace Plan

variable {cs : List Clause} {finder : Graph.ClassFinder}

theorem mem_synonyms_group {selected : List String} {part : List Clause} {name : String} :
    name ∈ (group selected part).synonyms ↔
      ∃ c ∈ (group selected part).clauses, ∃ s ∈ c.synonyms, s.name = name := by
  simp [group, Clause.names, (perm_arrange part).mem_iff]

theorem selected_group {selected : List String} {part : List Clause} :
    (group selected part).selected = true ↔
      ∃ name ∈ selected, name ∈ (group selected part).synonyms := by
  have h_names : ∀ name,
      name ∈ (group selected part).synonyms ↔ name ∈ part.flatMap Clause.names := by
    simp [group]
  simp only [h_names]
  rw [group, List.any_eq_true]
  simp only [List.contains_iff_mem, and_comm]

/-- What touches a clause of a component belongs to it. -/
theorem mem_of_touches {part : List Clause} (h_part : part ∈ components finder cs) {c d : Clause}
    (h_c : c ∈ part) (h_d : d ∈ cs) (h : c.touches d = true) : d ∈ part := by
  obtain ⟨i, h_mem⟩ := mem_of_mem_components h_part
  obtain ⟨j, h_j, rfl⟩ := (h_mem c).1 h_c
  obtain ⟨k, rfl⟩ := List.get_of_mem h_d
  exact (h_mem _).2 ⟨k, h_j.tail h, rfl⟩

/-- A clause without synonyms touches no other. -/
theorem eq_singleton_of_mem (h_nodup : cs.Nodup) {part : List Clause}
    (h_part : part ∈ components finder cs) {c : Clause} (h_c : c ∈ part)
    (h_none : c.synonyms = []) : part = [c] := by
  have h_only : ∀ d ∈ part, d = c := by
    intro d h_d
    by_contra h_ne
    obtain ⟨a, -, b, -, rfl, -, h_touches⟩ :=
      exists_touches_across h_part (P := (· = c)) h_c h_d rfl h_ne
    obtain ⟨name, h_name, -⟩ := Clause.touches_iff.1 h_touches
    rw [Clause.names, h_none] at h_name
    cases h_name
  have h_single := List.eq_replicate_of_mem h_only
  have h_length := List.nodup_replicate.1 (h_single ▸ nodup_of_mem_components h_nodup h_part)
  have h_pos := List.length_pos_of_mem h_c
  rw [h_single, Nat.le_antisymm h_length h_pos]
  rfl

/-- In an arranged component, a clause with others before it touches one of them. -/
theorem exists_touches_before (h_nodup : cs.Nodup) {part : List Clause}
    (h_part : part ∈ components finder cs) {before after : List Clause} {c : Clause}
    (h_eq : arrange part = before ++ c :: after) (h_before : before ≠ []) :
    ∃ d ∈ before, c.touches d = true := by
  obtain ⟨pending, h_state, h_next⟩ := (arranging_arrange part).exists_next h_eq
  have h_pending : pending ≠ [] := List.ne_nil_of_mem (mem_of_next? h_next)
  have h_some := h_state.candidates_ne_nil h_nodup h_part h_pending
  have h_c := mem_candidates.1 (mem_candidates_of_next? h_next h_some)
  exact h_c.2.resolve_left h_before

/-- A list in which ranks do not fall has the low ranks in front. -/
theorem exists_split {groups : List ClauseGroup}
    (h : groups.Pairwise fun g h => rank g ≤ rank h) (n : Nat) :
    ∃ low high, groups = low ++ high ∧ (∀ g ∈ low, rank g ≤ n) ∧ ∀ g ∈ high, n < rank g := by
  induction groups with
  | nil => exact ⟨[], [], rfl, by simp, by simp⟩
  | cons g rest ih =>
    rw [List.pairwise_cons] at h
    obtain ⟨h_first, h_rest⟩ := h
    by_cases h_g : rank g ≤ n
    · obtain ⟨low, high, rfl, h_low, h_high⟩ := ih h_rest
      exact ⟨g :: low, high, rfl, List.forall_mem_cons.2 ⟨h_g, h_low⟩, h_high⟩
    · refine ⟨[], g :: rest, rfl, by simp, List.forall_mem_cons.2 ⟨by omega, fun h h_h => ?_⟩⟩
      have h_le := h_first h h_h
      omega

theorem rank_cases (g : ClauseGroup) :
    (rank g = 0 ∧ g.synonyms.isEmpty = true) ∨
      (rank g = 1 ∧ g.synonyms.isEmpty = false ∧ g.selected = false) ∨
      (rank g = 2 ∧ g.synonyms.isEmpty = false ∧ g.selected = true) := by
  unfold rank
  cases g.synonyms.isEmpty <;> cases g.selected <;> simp

end Plan

/-! ## Plans -/

/-- Groups that divide the distinct clauses of a query by the synonyms that they share. -/
structure Query.Partition (q : Query) (groups : List ClauseGroup) : Prop where
  /-- Each distinct clause is in one group, and nothing else is. -/
  clauses : (groups.flatMap ClauseGroup.clauses).Perm q.clauses.eraseDups
  /-- Clauses that share a synonym are in one group. -/
  together : ∀ c ∈ q.clauses, ∀ d ∈ q.clauses, (∃ s ∈ c.synonyms, s ∈ d.synonyms) →
    ∃ g ∈ groups, c ∈ g.clauses ∧ d ∈ g.clauses
  apart : groups.Pairwise fun g h => ∀ name ∈ g.synonyms, name ∉ h.synonyms
  synonyms : ∀ g ∈ groups, ∀ name,
    name ∈ g.synonyms ↔ ∃ c ∈ g.clauses, ∃ s ∈ c.synonyms, s.name = name
  selected : ∀ g ∈ groups, g.selected = true ↔ ∃ s ∈ q.selected, s.name ∈ g.synonyms
  /-- A clause without synonyms is a group of its own. -/
  alone : ∀ c ∈ q.clauses, c.synonyms = [] → ∃ g ∈ groups, g.clauses = [c]
  /-- Groups without synonyms come first, those that are selected last. -/
  ranked : ∃ boolean unselected selected, groups = boolean ++ (unselected ++ selected) ∧
    (∀ g ∈ boolean, g.synonyms.isEmpty = true) ∧
    (∀ g ∈ unselected, g.synonyms.isEmpty = false ∧ g.selected = false) ∧
    (∀ g ∈ selected, g.synonyms.isEmpty = false ∧ g.selected = true)
  /-- Each clause after the first shares a synonym with an earlier one. -/
  linked : ∀ g ∈ groups, ∀ before c after, g.clauses = before ++ c :: after → before ≠ [] →
    ∃ d ∈ before, ∃ s ∈ c.synonyms, s ∈ d.synonyms

namespace Query

variable {q : Query} {finder : Graph.ClassFinder}

theorem exists_component_of_mem_plan {g : ClauseGroup} (h : g ∈ q.plan finder) :
    ∃ part ∈ Plan.components finder q.clauses.eraseDups,
      g = Plan.group (q.selected.map Synonym.name) part := by
  rw [plan, List.mem_mergeSort, List.mem_map] at h
  obtain ⟨part, h_part, rfl⟩ := h
  exact ⟨part, h_part, rfl⟩

theorem mem_plan_of_component {part : List Clause}
    (h : part ∈ Plan.components finder q.clauses.eraseDups) :
    Plan.group (q.selected.map Synonym.name) part ∈ q.plan finder := by
  rw [plan, List.mem_mergeSort]
  exact List.mem_map_of_mem h

theorem perm_flatMap_plan (q : Query) (finder : Graph.ClassFinder) :
    ((q.plan finder).flatMap ClauseGroup.clauses).Perm q.clauses.eraseDups := by
  have h_sorted := (List.mergeSort_perm ((Plan.components finder q.clauses.eraseDups).map
    (Plan.group (q.selected.map Synonym.name))) fun g h => Plan.rank g ≤ Plan.rank h).flatMap_right
    ClauseGroup.clauses
  refine h_sorted.trans ?_
  rw [List.flatMap_map]
  have h_arranged : ((Plan.components finder q.clauses.eraseDups).flatMap Plan.arrange).Perm
      ((Plan.components finder q.clauses.eraseDups).flatMap id) :=
    List.Perm.flatMap_left _ fun part _ => Plan.perm_arrange part
  rw [List.flatMap_id] at h_arranged
  exact h_arranged.trans (Plan.perm_flatten_components finder _)

theorem pairwise_rank_plan (q : Query) (finder : Graph.ClassFinder) :
    (q.plan finder).Pairwise fun g h => Plan.rank g ≤ Plan.rank h := by
  have h_sorted : (q.plan finder).Pairwise fun g h =>
      decide (Plan.rank g ≤ Plan.rank h) = true := by
    refine List.pairwise_mergeSort (fun g h i h_gh h_hi => ?_) (fun g h => ?_) _
    · rw [decide_eq_true_eq] at h_gh h_hi ⊢
      exact Nat.le_trans h_gh h_hi
    · rw [Bool.or_eq_true, decide_eq_true_eq, decide_eq_true_eq]
      exact Nat.le_total _ _
  exact h_sorted.imp of_decide_eq_true

theorem apart_plan (q : Query) (finder : Graph.ClassFinder) :
    (q.plan finder).Pairwise fun g h => ∀ name ∈ g.synonyms, name ∉ h.synonyms := by
  rw [plan]
  refine ((List.mergeSort_perm _ _).pairwise_iff fun h_gh name h_h h_g => h_gh name h_g h_h).2 ?_
  rw [List.pairwise_map]
  refine (Plan.components_apart finder _).imp fun h_apart name h_g h_h => ?_
  obtain ⟨c, hc, s, hs, rfl⟩ := Plan.mem_synonyms_group.1 h_g
  obtain ⟨d, hd, t, ht, h_name⟩ := Plan.mem_synonyms_group.1 h_h
  refine h_apart c (Plan.mem_group.1 hc) d (Plan.mem_group.1 hd) (Clause.touches_iff.2 ?_)
  exact ⟨s.name, List.mem_map_of_mem hs, h_name ▸ List.mem_map_of_mem ht⟩

theorem ranked_plan (q : Query) (finder : Graph.ClassFinder) :
    ∃ boolean unselected selected, q.plan finder = boolean ++ (unselected ++ selected) ∧
      (∀ g ∈ boolean, g.synonyms.isEmpty = true) ∧
      (∀ g ∈ unselected, g.synonyms.isEmpty = false ∧ g.selected = false) ∧
      (∀ g ∈ selected, g.synonyms.isEmpty = false ∧ g.selected = true) := by
  have h_sorted := q.pairwise_rank_plan finder
  obtain ⟨boolean, others, h_plan, h_boolean, h_others⟩ := Plan.exists_split h_sorted 0
  rw [h_plan, List.pairwise_append] at h_sorted
  obtain ⟨unselected, selected, rfl, h_unselected, h_selected⟩ :=
    Plan.exists_split h_sorted.2.1 1
  refine ⟨boolean, unselected, selected, h_plan, fun g hg => ?_, fun g hg => ?_, fun g hg => ?_⟩
  · have h_rank := h_boolean g hg
    rcases Plan.rank_cases g with h_g | h_g | h_g
    · exact h_g.2
    · omega
    · omega
  · have h_above := h_others g (List.mem_append_left _ hg)
    have h_rank := h_unselected g hg
    rcases Plan.rank_cases g with h_g | h_g | h_g
    · omega
    · exact h_g.2
    · omega
  · have h_rank := h_selected g hg
    rcases Plan.rank_cases g with h_g | h_g | h_g
    · omega
    · omega
    · exact h_g.2

/-- Clauses of a declared query that share the name of a synonym share the synonym. -/
theorem Declared.exists_synonym (h : q.Declared) {c d : Clause} (hc : c ∈ q.clauses)
    (hd : d ∈ q.clauses) (h_touches : c.touches d = true) : ∃ s ∈ c.synonyms, s ∈ d.synonyms := by
  obtain ⟨name, h_c, h_d⟩ := Clause.touches_iff.1 h_touches
  obtain ⟨s, hs, rfl⟩ := List.mem_map.1 h_c
  obtain ⟨t, ht, h_name⟩ := List.mem_map.1 h_d
  obtain rfl := h.eq_of_name (h.clauses d hd t ht) (h.clauses c hc s hs) h_name
  exact ⟨t, hs, ht⟩

/-- The plan of a declared query divides its clauses. -/
theorem Declared.partition_plan (h : q.Declared) (finder : Graph.ClassFinder) :
    q.Partition (q.plan finder) := by
  have h_nodup : q.clauses.eraseDups.Nodup := Facts.nodup_eraseDups _
  constructor
  case clauses => exact q.perm_flatMap_plan finder
  case apart => exact q.apart_plan finder
  case ranked => exact q.ranked_plan finder
  case synonyms =>
    intro g hg name
    obtain ⟨part, -, rfl⟩ := exists_component_of_mem_plan hg
    exact Plan.mem_synonyms_group
  case selected =>
    intro g hg
    obtain ⟨part, -, rfl⟩ := exists_component_of_mem_plan hg
    rw [Plan.selected_group]
    simp only [List.mem_map, exists_exists_and_eq_and]
  case together =>
    rintro c hc d hd ⟨s, h_c, h_d⟩
    have h_touches : c.touches d = true :=
      Clause.touches_iff.2 ⟨s.name, List.mem_map_of_mem h_c, List.mem_map_of_mem h_d⟩
    obtain ⟨part, h_part, h_mem⟩ := (Plan.mem_some_component finder).2 (List.mem_eraseDups.2 hc)
    have h_other := Plan.mem_of_touches h_part h_mem (List.mem_eraseDups.2 hd) h_touches
    exact ⟨_, mem_plan_of_component h_part, Plan.mem_group.2 h_mem, Plan.mem_group.2 h_other⟩
  case alone =>
    intro c hc h_none
    obtain ⟨part, h_part, h_c⟩ := (Plan.mem_some_component finder).2 (List.mem_eraseDups.2 hc)
    refine ⟨_, mem_plan_of_component h_part, ?_⟩
    obtain rfl := Plan.eq_singleton_of_mem h_nodup h_part h_c h_none
    exact List.perm_singleton.1 (Plan.perm_arrange _)
  case linked =>
    intro g hg before c after h_eq h_before
    have h_mem : ∀ d ∈ before ++ c :: after, d ∈ q.clauses := by
      intro d hd
      exact ((grouping_plan q finder).clauses d).1 ⟨g, hg, h_eq ▸ hd⟩
    obtain ⟨part, h_part, rfl⟩ := exists_component_of_mem_plan hg
    obtain ⟨d, hd, h_touches⟩ := Plan.exists_touches_before h_nodup h_part h_eq h_before
    refine ⟨d, hd, h.exists_synonym (h_mem c ?_) (h_mem d ?_) h_touches⟩
    · exact List.mem_append_right _ (List.mem_cons_self ..)
    · exact List.mem_append_left _ hd

end Query

/-! ## Joins inside a group -/

theorem Table.shared_ne_nil {left right : List Synonym} {s : Synonym} (h_left : s ∈ left)
    (h_right : s ∈ right) : shared left right ≠ [] := by
  intro h_none
  have h_positions := shared_snd left right
  rw [h_none, List.map_nil, eq_comm, List.filterMap_eq_nil_iff] at h_positions
  have h_some := isSome_position?.2 h_right
  rw [h_positions s h_left] at h_some
  cases h_some

/-- A clause that shares a synonym with earlier ones has a column in common with their table. -/
theorem FactBase.exists_shared_column (b : FactBase) {before : List Clause} {c : Clause}
    (h_before : ∀ d ∈ before, b.Evaluable d) (h_c : b.Evaluable c)
    (h_linked : ∃ d ∈ before, ∃ s ∈ c.synonyms, s ∈ d.synonyms) :
    ∃ table more, b.joinClauses .unit before = .ok table ∧ b.clauseTable c = .ok more ∧
      (table.isEmpty = false → Table.shared table.columns more.columns ≠ []) := by
  obtain ⟨table, h_table, h_meaning⟩ := exists_says_groupTable (g := ⟨before, ∅, false⟩) h_before
  obtain ⟨more, h_more, h_binds⟩ := h_c
  refine ⟨table, more, h_table, h_more, fun h_some => ?_⟩
  obtain ⟨d, hd, s, h_s, h_sd⟩ := h_linked
  have h_left : s ∈ table.columns := (h_meaning.columns h_some s).2 ⟨d, hd, h_sd⟩
  have h_right : s ∈ more.columns := (h_binds.mem_columns s).2 h_s
  exact Table.shared_ne_nil h_left h_right

namespace Query

/-- The plan of a query that was read divides its distinct clauses into groups that share no
    synonym, in the order of their ranks, whichever finder gives the classes.  Whatever the facts,
    when a clause of a group is joined to those before it, the two tables have a column in common.
    A group is an arranged component, and in no state of its arrangement is there a pending clause
    but no candidate. -/
theorem plan_divides_into_connected_groups {text : String} {q : Query}
    (h_query : Query.read text = .ok q) (finder : Graph.ClassFinder) :
    q.Partition (q.plan finder) ∧
      (∀ g ∈ q.plan finder, ∀ before c after, g.clauses = before ++ c :: after → before ≠ [] →
        ∀ b : FactBase, ∃ table more, b.joinClauses .unit before = .ok table ∧
          b.clauseTable c = .ok more ∧
          (table.isEmpty = false → Table.shared table.columns more.columns ≠ [])) ∧
      ∀ g ∈ q.plan finder, ∃ part ∈ Plan.components finder q.clauses.eraseDups,
        g.clauses = Plan.arrange part ∧
          ∀ placed pending, Plan.Arranging part placed pending → pending ≠ [] →
            Plan.candidates placed pending ≠ [] := by
  have h_partition := (declared_of_read h_query).partition_plan finder
  refine ⟨h_partition, fun g hg before c after h_eq h_before b => ?_, fun g hg => ?_⟩
  · have h_evaluable : ∀ d ∈ g.clauses, b.Evaluable d := by
      intro d hd
      apply FactBase.evaluable_of_typed
      exact (typed_of_read h_query).conditions d
        (((grouping_plan q finder).clauses d).1 ⟨g, hg, hd⟩)
    rw [h_eq, List.forall_mem_append, List.forall_mem_cons] at h_evaluable
    exact b.exists_shared_column h_evaluable.1 h_evaluable.2.1
      (h_partition.linked g hg before c after h_eq h_before)
  · obtain ⟨part, h_part, rfl⟩ := exists_component_of_mem_plan hg
    refine ⟨part, h_part, rfl, fun placed pending h_state h_pending => ?_⟩
    exact h_state.candidates_ne_nil (Facts.nodup_eraseDups _) h_part h_pending

/-- Of five clauses, one binds nothing, one is about procedures only, and three are connected by
    an assignment and a variable; of these the negated one comes last. -/
theorem plan_of_five_clauses :
    ∃ q, Query.read ("assign a; variable v; stmt s; procedure p, q; Select a " ++
        "such that not Follows(s, a) and Calls(p, q) and Modifies(s, v) with 1 = 1 " ++
        "such that Uses(a, v)") = .ok q ∧
      q.Partition (q.plan .relabelling) ∧ ∃ c d e f g, q.clauses = [c, d, e, f, g] ∧
        (∃ h ∈ q.plan .relabelling, h.clauses = [e, g, c]) ∧
        (∃ h ∈ q.plan .relabelling, h.clauses = [f]) ∧
        ∀ b : FactBase, ∃ table more, b.joinClauses .unit [e, g] = .ok table ∧
          b.clauseTable c = .ok more ∧
          (table.isEmpty = false → Table.shared table.columns more.columns ≠ []) := by
  let a : Synonym := ⟨"a", .assign⟩
  let v : Synonym := ⟨"v", .variable⟩
  let s : Synonym := ⟨"s", .stmt⟩
  let c : Clause := ⟨.suchThat .follows (.synonym s) (.synonym a), true⟩
  let d : Clause :=
    ⟨.suchThat .calls (.synonym ⟨"p", .procedure⟩) (.synonym ⟨"q", .procedure⟩), false⟩
  let e : Clause := ⟨.suchThat .modifies (.synonym s) (.synonym v), false⟩
  let f : Clause := ⟨.compare (.integer "1") (.integer "1"), false⟩
  let g : Clause := ⟨.suchThat .uses (.synonym a) (.synonym v), false⟩
  refine exists_ok_of_test (fun q => decide (q.clauses = [c, d, e, f, g] ∧
    [c, e, g] ∈ Plan.components .relabelling q.clauses.eraseDups)) (by decide +kernel)
    fun q h_query h_q => ?_
  obtain ⟨h_clauses, h_part⟩ := of_decide_eq_true h_q
  obtain ⟨h_partition, h_joins, -⟩ := plan_divides_into_connected_groups h_query .relabelling
  have h_arranged : Plan.arrange [c, e, g] = [e, g, c] := by decide
  have h_group := mem_plan_of_component h_part
  have h_f : f ∈ q.clauses := by
    rw [h_clauses]
    decide
  refine ⟨h_partition, c, d, e, f, g, h_clauses, ⟨_, h_group, h_arranged⟩,
    h_partition.alone f h_f (by decide), fun b => ?_⟩
  exact h_joins _ h_group [e, g] c [] h_arranged (List.cons_ne_nil _ _) b

end Query

end ProgramQuery
