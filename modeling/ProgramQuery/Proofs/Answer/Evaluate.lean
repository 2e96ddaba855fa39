/-
  ProgramQuery.Proofs.Answer.Evaluate

  What the evaluation of a query gives, whatever the strategy.

  The table of a group is the conjunction of its clauses.  Groups share no synonym,
  so valuations of the single groups can be put together to a valuation of all
  (`exists_joint`).  That is why the query can be satisfied if no group is empty, and
  why groups that the result does not need can be left out of it.  Every strategy
  gives the answers that `Answered` describes, and there is only one such list; of the
  clauses only the set matters for it.
-/

import ProgramQuery.Answer.Evaluate
import ProgramQuery.Proofs.Answer.Clause
import ProgramQuery.Proofs.Answer.Plan

namespace ProgramQuery

namespace FactBase

variable {b : FactBase}

/-! ## Clauses -/

/-- The valuation satisfies the table of the clause. -/
def ClauseHolds (b : FactBase) (c : Clause) (ν : Valuation) : Prop :=
  ∃ t, b.clauseTable c = .ok t ∧ t.Holds ν

theorem clauseHolds_iff {b : FactBase} {c : Clause} {t : Table} (h : b.clauseTable c = .ok t)
    {ν : Valuation} : b.ClauseHolds c ν ↔ t.Holds ν := by
  simp [ClauseHolds, h]

/-- The valuation satisfies all clauses. -/
def AllHold (b : FactBase) (cs : List Clause) (ν : Valuation) : Prop :=
  ∀ c ∈ cs, b.ClauseHolds c ν

/-- The clause has a table with its synonyms as columns. -/
def Evaluable (b : FactBase) (c : Clause) : Prop :=
  ∃ t, b.clauseTable c = .ok t ∧ t.Binds c.synonyms

theorem evaluable_of_typed {c : Clause} (h : c.condition.Typed) : b.Evaluable c := by
  obtain ⟨-, t, -, h_t, -, h_binds, -⟩ := b.exists_clauseTable h
  exact ⟨t, h_t, h_binds⟩

/-- A clause only looks at its synonyms. -/
theorem ClauseHolds.congr {c : Clause} (h : b.Evaluable c) {ν μ : Valuation}
    (h_ν : b.ClauseHolds c ν) (h_eq : ∀ s ∈ c.synonyms, ν s = μ s) : b.ClauseHolds c μ := by
  obtain ⟨t, h_t, h_binds⟩ := h
  rw [clauseHolds_iff h_t] at h_ν ⊢
  exact h_ν.congr fun s hs => h_eq s ((h_binds.mem_columns s).1 hs)

theorem AllHold.congr {cs : List Clause} (h : ∀ c ∈ cs, b.Evaluable c) {ν μ : Valuation}
    (h_ν : b.AllHold cs ν) (h_eq : ∀ c ∈ cs, ∀ s ∈ c.synonyms, ν s = μ s) : b.AllHold cs μ :=
  fun c hc => (h_ν c hc).congr (h c hc) (h_eq c hc)

theorem allHold_append {cs ds : List Clause} {ν : Valuation} :
    b.AllHold (cs ++ ds) ν ↔ b.AllHold cs ν ∧ b.AllHold ds ν :=
  List.forall_mem_append

theorem allHold_cons {c : Clause} {cs : List Clause} {ν : Valuation} :
    b.AllHold (c :: cs) ν ↔ b.ClauseHolds c ν ∧ b.AllHold cs ν :=
  List.forall_mem_cons

/-! ## Groups -/

/-- A table that says what some clauses say; its columns are their synonyms if it
    is not empty. -/
structure Says (b : FactBase) (cs : List Clause) (t : Table) : Prop where
  wellFormed : t.WellFormed
  holds : ∀ ν, t.Holds ν ↔ b.AllHold cs ν
  columns : t.isEmpty = false → ∀ s, s ∈ t.columns ↔ ∃ c ∈ cs, s ∈ c.synonyms

/-- A table that says what clauses say is empty if they cannot be satisfied. -/
theorem Says.isEmpty_iff {cs : List Clause} {t : Table} (h : b.Says cs t) :
    t.isEmpty = false ↔ ∃ ν, b.AllHold cs ν := by
  simp only [h.wellFormed.isEmpty_eq_false, h.holds]

/-- Joining clauses to a table, one after the other, until nothing is left. -/
theorem exists_says_joinClauses {done rest : List Clause} (h : ∀ c ∈ rest, b.Evaluable c)
    {table : Table} (h_table : b.Says done table) (h_some : table.isEmpty = false) :
    ∃ t, b.joinClauses table rest = .ok t ∧ b.Says (done ++ rest) t := by
  induction rest generalizing done table with
  | nil => exact ⟨table, rfl, by simpa using h_table⟩
  | cons c rest ih =>
    obtain ⟨more, h_more, h_binds⟩ := h c (List.mem_cons_self ..)
    have h_joined : ∀ ν, (table.join more).Holds ν ↔ b.AllHold (done ++ [c]) ν := by
      intro ν
      rw [Table.holds_join h_table.wellFormed h_binds.wellFormed, h_table.holds,
        ← clauseHolds_iff h_more, allHold_append, allHold_cons]
      simp [AllHold]
    have h_wf := h_table.wellFormed.join h_binds.wellFormed
    simp only [joinClauses, h_more, bind, Except.bind]
    split
    · rename_i h_empty
      -- Nothing satisfies what has been joined, so nothing satisfies all clauses either.
      have h_none : ∀ ν, ¬ (table.join more).Holds ν := by
        intro ν h_ν
        rw [h_wf.isEmpty_eq_false.2 ⟨ν, h_ν⟩] at h_empty
        cases h_empty
      refine ⟨_, rfl, h_wf, fun ν => ?_, fun h => by rw [h] at h_empty; cases h_empty⟩
      refine ⟨fun h_ν => absurd h_ν (h_none ν), fun h_ν => absurd ((h_joined ν).2 ?_) (h_none ν)⟩
      rw [allHold_append, allHold_cons] at h_ν ⊢
      exact ⟨h_ν.1, h_ν.2.1, by simp [AllHold]⟩
    · rename_i h_left
      have h_left : (table.join more).isEmpty = false := by simpa using h_left
      have h_meaning : b.Says (done ++ [c]) (table.join more) := by
        refine ⟨h_wf, h_joined, fun _ s => ?_⟩
        rw [Table.mem_columns_join h_binds.wellFormed, h_table.columns h_some, h_binds.mem_columns]
        simp [or_and_right, exists_or]
      have h_rest := ih (fun d hd => h d (List.mem_cons_of_mem _ hd)) h_meaning h_left
      simpa using h_rest

theorem exists_says_groupTable {g : ClauseGroup} (h : ∀ c ∈ g.clauses, b.Evaluable c) :
    ∃ t, b.groupTable g = .ok t ∧ b.Says g.clauses t := by
  have h_unit : b.Says [] .unit := ⟨Table.wellFormed_unit, by simp [AllHold], by simp⟩
  exact exists_says_joinClauses h h_unit rfl

theorem forall_nonempty_iff {groups : List ClauseGroup} {tables : List Table}
    (h : List.Forall₂ (fun g t => b.Says g.clauses t) groups tables) :
    (∀ t ∈ tables, t.isEmpty = false) ↔ ∀ g ∈ groups, ∃ ν, b.AllHold g.clauses ν := by
  induction h with
  | nil => simp
  | cons h_meaning _ ih => simp only [List.forall_mem_cons, ih, h_meaning.isEmpty_iff]

/-- The tables of groups, if none of them is empty. -/
theorem exists_tablesUntilEmpty {groups : List ClauseGroup}
    (h : ∀ g ∈ groups, ∀ c ∈ g.clauses, b.Evaluable c) :
    ∃ tables, b.tablesUntilEmpty groups = .ok tables ∧
      ((∀ t ∈ tables, t.isEmpty = false) ↔ ∀ g ∈ groups, ∃ ν, b.AllHold g.clauses ν) ∧
      ((∀ t ∈ tables, t.isEmpty = false) →
        List.Forall₂ (fun g t => b.Says g.clauses t) groups tables) := by
  induction groups with
  | nil => exact ⟨[], rfl, by simp, fun _ => .nil⟩
  | cons g rest ih =>
    obtain ⟨table, h_table, h_meaning⟩ := exists_says_groupTable (h g (List.mem_cons_self ..))
    simp only [tablesUntilEmpty, h_table, bind, Except.bind]
    split
    · rename_i h_empty
      -- The first empty group ends the evaluation, and it alone cannot be satisfied.
      have h_none : ¬ ∃ ν, b.AllHold g.clauses ν := by
        rw [← h_meaning.isEmpty_iff, h_empty]
        simp
      refine ⟨[table], rfl, ?_, ?_⟩
      · simp [h_empty, h_none]
      · simp [h_empty]
    · rename_i h_left
      have h_left : table.isEmpty = false := by simpa using h_left
      obtain ⟨more, h_more, h_all, h_each⟩ := ih fun g hg => h g (List.mem_cons_of_mem _ hg)
      simp only [h_more]
      refine ⟨_, rfl, ?_, fun h_tables => ?_⟩
      · simp only [List.forall_mem_cons, h_all, h_meaning.isEmpty_iff]
      · exact .cons h_meaning (h_each (List.forall_mem_cons.1 h_tables).2)

theorem exists_mapM_groupTable {groups : List ClauseGroup}
    (h : ∀ g ∈ groups, ∀ c ∈ g.clauses, b.Evaluable c) :
    ∃ tables, groups.mapM b.groupTable = .ok tables ∧
      List.Forall₂ (fun g t => b.Says g.clauses t) groups tables := by
  induction groups with
  | nil => exact ⟨[], rfl, .nil⟩
  | cons g rest ih =>
    obtain ⟨table, h_table, h_meaning⟩ := exists_says_groupTable (h g (List.mem_cons_self ..))
    obtain ⟨more, h_more, h_each⟩ := ih fun g hg => h g (List.mem_cons_of_mem _ hg)
    refine ⟨table :: more, ?_, .cons h_meaning h_each⟩
    rw [List.mapM_cons, h_table, h_more]
    rfl

theorem exists_groupTables (strategy : Strategy) {groups : List ClauseGroup}
    (h : ∀ g ∈ groups, ∀ c ∈ g.clauses, b.Evaluable c) :
    ∃ tables, b.groupTables strategy groups = .ok tables ∧
      ((∀ t ∈ tables, t.isEmpty = false) ↔ ∀ g ∈ groups, ∃ ν, b.AllHold g.clauses ν) ∧
      ((∀ t ∈ tables, t.isEmpty = false) →
        List.Forall₂ (fun g t => b.Says g.clauses t) groups tables) := by
  unfold groupTables
  split
  · obtain ⟨tables, h_tables, h_each⟩ := exists_mapM_groupTable h
    exact ⟨tables, h_tables, forall_nonempty_iff h_each, fun _ => h_each⟩
  · exact exists_tablesUntilEmpty h

/-! ## Putting groups together -/

/-- Groups that share no synonym can be satisfied together if each of them can, and the
    values of the synonyms in `keep` can be kept if each group allows for it. -/
theorem exists_joint {groups : List ClauseGroup}
    (h_eval : ∀ g ∈ groups, ∀ c ∈ g.clauses, b.Evaluable c)
    (h_apart : groups.Pairwise fun g h => ∀ c ∈ g.clauses, ∀ d ∈ h.clauses, ∀ s ∈ c.synonyms,
      s ∉ d.synonyms) (keep : Synonym → Prop) (ν : Valuation)
    (h : ∀ g ∈ groups, ∃ μ, b.AllHold g.clauses μ ∧
      ∀ c ∈ g.clauses, ∀ s ∈ c.synonyms, keep s → μ s = ν s) :
    ∃ μ : Valuation, (∀ s, keep s → μ s = ν s) ∧ ∀ g ∈ groups, b.AllHold g.clauses μ := by
  induction groups with
  | nil => exact ⟨ν, fun _ _ => rfl, by simp⟩
  | cons g rest ih =>
    rw [List.pairwise_cons] at h_apart
    obtain ⟨μ, h_keep, h_rest⟩ := ih (fun g hg => h_eval g (List.mem_cons_of_mem _ hg)) h_apart.2
      fun g hg => h g (List.mem_cons_of_mem _ hg)
    obtain ⟨own, h_own, h_own_keep⟩ := h g (List.mem_cons_self ..)
    classical
    -- The synonyms of this group take its own values, all others those of the rest.
    let joint : Valuation := fun s => if ∃ c ∈ g.clauses, s ∈ c.synonyms then own s else μ s
    refine ⟨joint, fun s h_s => ?_, List.forall_mem_cons.2 ⟨?_, fun h hh => ?_⟩⟩
    · by_cases h_in : ∃ c ∈ g.clauses, s ∈ c.synonyms
      · obtain ⟨c, hc, hs⟩ := h_in
        simp only [joint, if_pos (show ∃ c ∈ g.clauses, s ∈ c.synonyms from ⟨c, hc, hs⟩)]
        exact h_own_keep c hc s hs h_s
      · simp only [joint, if_neg h_in]
        exact h_keep s h_s
    · refine h_own.congr (h_eval g (List.mem_cons_self ..)) fun c hc s hs => ?_
      exact (if_pos (⟨c, hc, hs⟩ : ∃ c ∈ g.clauses, s ∈ c.synonyms)).symm
    · refine (h_rest h hh).congr (h_eval h (List.mem_cons_of_mem _ hh)) fun d hd s hs => ?_
      refine (if_neg ?_).symm
      rintro ⟨c, hc, h_c⟩
      exact h_apart.1 h hh c hc d hd s h_c hs

/-! ## Answers -/

/-- The valuation satisfies the clauses of a query, and gives values from their domains
    to the selected synonyms that no clause binds. -/
def Satisfies (b : FactBase) (q : Query) (ν : Valuation) : Prop :=
  b.AllHold q.clauses ν ∧
    ∀ s ∈ q.selected, (∀ c ∈ q.clauses, s ∉ c.synonyms) → ν s ∈ b.domain s

/-- The answers to a query in terms of the valuations that satisfy it. -/
structure Answered (b : FactBase) (q : Query) (answers : List String) : Prop where
  boolean : q.selection = .boolean →
    ((∃ ν, b.AllHold q.clauses ν) ∧ answers = ["TRUE"]) ∨
      ((¬ ∃ ν, b.AllHold q.clauses ν) ∧ answers = ["FALSE"])
  tuple : ∀ elements, q.selection = .tuple elements →
    ∃ rows : List Row, (∀ row, row ∈ rows ↔ ∃ ν, b.Satisfies q ν ∧ row = q.selected.map ν) ∧
      answers = Answer.sort
        (Std.ExtTreeSet.ofList (rows.filterMap (b.rowText q.selected elements))).toList

/-- There is one list of answers. -/
theorem Answered.unique {q : Query} {xs ys : List String} (h_xs : b.Answered q xs)
    (h_ys : b.Answered q ys) : xs = ys := by
  cases h_selection : q.selection with
  | boolean =>
    rcases h_xs.boolean h_selection with ⟨h, rfl⟩ | ⟨h, rfl⟩ <;>
      rcases h_ys.boolean h_selection with ⟨h', rfl⟩ | ⟨h', rfl⟩
    · rfl
    · exact absurd h h'
    · exact absurd h' h
    · rfl
  | tuple elements =>
    obtain ⟨rows, h_rows, rfl⟩ := h_xs.tuple elements h_selection
    obtain ⟨rows', h_rows', rfl⟩ := h_ys.tuple elements h_selection
    congr 2
    refine Std.ExtTreeSet.ext_mem fun text => ?_
    simp only [Std.ExtTreeSet.mem_ofList, List.contains_iff_mem, List.mem_filterMap, h_rows,
      h_rows']

/-- The answers of a table whose rows are to be completed. -/
theorem exists_rows_tupleAnswers (b : FactBase) {q : Query} (h_some : q.selected ≠ []) {t : Table}
    (h : t.WellFormed) :
    ∃ rows : List Row,
      (∀ row, row ∈ rows ↔ ∃ ν, (t.Holds ν ∧
        ∀ s ∈ q.selected, s ∉ t.columns → ν s ∈ b.domain s) ∧ row = q.selected.map ν) ∧
      b.tupleAnswers q t = Answer.sort
        (Std.ExtTreeSet.ofList
          (rows.filterMap (b.rowText q.selected q.selection.elements))).toList := by
  obtain ⟨h_wf, h_columns, h_holds⟩ := Table.foldl_join
    (b.wellFormed_domainTables (q.selected.filter (!t.columns.contains ·))) h
  refine ⟨_, fun row => ?_, rfl⟩
  rw [Table.mem_rowList_project h_wf h_some]
  · refine exists_congr fun ν => and_congr_left fun _ => ?_
    rw [h_holds]
    refine and_congr_right fun _ => ?_
    simp only [List.forall_mem_map, List.mem_filter, Bool.not_eq_true', List.contains_eq_mem,
      decide_eq_false_iff_not, domainTable, Table.holds_column, and_imp]
  · intro s hs
    rw [h_columns]
    by_cases h_in : s ∈ t.columns
    · exact .inl h_in
    · have h_free : s ∈ q.selected.filter (!t.columns.contains ·) :=
        List.mem_filter.2 ⟨hs, by simpa using h_in⟩
      exact .inr ⟨b.domainTable s, List.mem_map_of_mem h_free, by simp [domainTable]⟩

/-! ## Needed groups -/

/-- The join of the tables of the selected groups. -/
def neededTable (groups : List ClauseGroup) (tables : List Table) : Table :=
  .joinAll (((groups.zip tables).filter (·.1.selected)).map Prod.snd)

section

variable {groups : List ClauseGroup} {tables : List Table}

theorem mem_needed {t : Table} : t ∈ ((groups.zip tables).filter (·.1.selected)).map Prod.snd ↔
    ∃ g, (g, t) ∈ groups.zip tables ∧ g.selected = true := by
  simp [List.mem_map, List.mem_filter]

theorem exists_mem_zip (h : List.Forall₂ (fun g t => b.Says g.clauses t) groups tables)
    {g : ClauseGroup} (hg : g ∈ groups) : ∃ t ∈ tables, (g, t) ∈ groups.zip tables := by
  induction h with
  | nil => cases hg
  | cons _ _ ih =>
    rcases List.mem_cons.1 hg with rfl | hg
    · exact ⟨_, List.mem_cons_self .., List.mem_cons_self ..⟩
    · obtain ⟨t, ht, h_zip⟩ := ih hg
      exact ⟨t, List.mem_cons_of_mem _ ht, List.mem_cons_of_mem _ h_zip⟩

theorem says_of_mem_zip (h : List.Forall₂ (fun g t => b.Says g.clauses t) groups tables)
    {g : ClauseGroup} {t : Table} (h_zip : (g, t) ∈ groups.zip tables) : b.Says g.clauses t :=
  (List.forall₂_iff_zip.1 h).2 h_zip

theorem wellFormed_needed (h : List.Forall₂ (fun g t => b.Says g.clauses t) groups tables) :
    ∀ t ∈ ((groups.zip tables).filter (·.1.selected)).map Prod.snd, t.WellFormed := by
  intro t ht
  obtain ⟨g, h_zip, -⟩ := mem_needed.1 ht
  exact (says_of_mem_zip h h_zip).wellFormed

theorem holds_neededTable (h : List.Forall₂ (fun g t => b.Says g.clauses t) groups tables)
    {ν : Valuation} : (neededTable groups tables).Holds ν ↔
      ∀ g ∈ groups, g.selected = true → b.AllHold g.clauses ν := by
  rw [neededTable, Table.holds_joinAll (wellFormed_needed h)]
  constructor
  · intro h_all g hg h_selected
    obtain ⟨t, -, h_zip⟩ := exists_mem_zip h hg
    exact ((says_of_mem_zip h h_zip).holds ν).1 (h_all t (mem_needed.2 ⟨g, h_zip, h_selected⟩))
  · intro h_all t ht
    obtain ⟨g, h_zip, h_selected⟩ := mem_needed.1 ht
    exact ((says_of_mem_zip h h_zip).holds ν).2 (h_all g (List.of_mem_zip h_zip).1 h_selected)

theorem mem_columns_neededTable (h : List.Forall₂ (fun g t => b.Says g.clauses t) groups tables)
    (h_some : ∀ t ∈ tables, t.isEmpty = false) {s : Synonym} :
    s ∈ (neededTable groups tables).columns ↔
      ∃ g ∈ groups, g.selected = true ∧ ∃ c ∈ g.clauses, s ∈ c.synonyms := by
  rw [neededTable, Table.mem_columns_joinAll (wellFormed_needed h)]
  constructor
  · rintro ⟨t, ht, hs⟩
    obtain ⟨g, h_zip, h_selected⟩ := mem_needed.1 ht
    obtain ⟨hg, ht⟩ := List.of_mem_zip h_zip
    exact ⟨g, hg, h_selected, ((says_of_mem_zip h h_zip).columns (h_some t ht) s).1 hs⟩
  · rintro ⟨g, hg, h_selected, h_s⟩
    obtain ⟨t, ht, h_zip⟩ := exists_mem_zip h hg
    exact ⟨t, mem_needed.2 ⟨g, h_zip, h_selected⟩,
      ((says_of_mem_zip h h_zip).columns (h_some t ht) s).2 h_s⟩

end

/-! ## Evaluation -/

/-- All clauses can be satisfied if every group can. -/
theorem exists_allHold_iff {q : Query} {groups : List ClauseGroup} (h_grouping : q.Grouping groups)
    (h_eval : ∀ c ∈ q.clauses, b.Evaluable c) :
    (∃ ν, b.AllHold q.clauses ν) ↔ ∀ g ∈ groups, ∃ ν, b.AllHold g.clauses ν := by
  constructor
  · rintro ⟨ν, h_ν⟩ g hg
    exact ⟨ν, h_grouping.forall_clauses.1 h_ν g hg⟩
  · intro h
    obtain ⟨μ, -, h_μ⟩ := exists_joint (h_grouping.forall_clauses.1 h_eval) h_grouping.apart
      (fun _ => False) (fun _ => .number 0) fun g hg =>
        (h g hg).imp fun μ h_μ => ⟨h_μ, fun _ _ _ _ h_false => h_false.elim⟩
    exact ⟨μ, h_grouping.forall_clauses.2 h_μ⟩

/-- The needed groups alone decide about the selected values, if all groups can be satisfied. -/
theorem satisfies_iff_needed {q : Query} {groups : List ClauseGroup} {tables : List Table}
    (h_grouping : q.Grouping groups) (h_eval : ∀ c ∈ q.clauses, b.Evaluable c)
    (h_meaning : List.Forall₂ (fun g t => b.Says g.clauses t) groups tables)
    (h_some : ∀ t ∈ tables, t.isEmpty = false) {row : Row} :
    (∃ ν, ((neededTable groups tables).Holds ν ∧
      ∀ s ∈ q.selected, s ∉ (neededTable groups tables).columns → ν s ∈ b.domain s) ∧
        row = q.selected.map ν) ↔
      ∃ ν, b.Satisfies q ν ∧ row = q.selected.map ν := by
  simp only [holds_neededTable h_meaning, mem_columns_neededTable h_meaning h_some]
  constructor
  · rintro ⟨ν, ⟨h_needed, h_domain⟩, rfl⟩
    -- A needed group is satisfied by `ν` itself; any other one binds nothing that is selected.
    have h_each : ∀ g ∈ groups, ∃ μ, b.AllHold g.clauses μ ∧
        ∀ c ∈ g.clauses, ∀ s ∈ c.synonyms, s ∈ q.selected → μ s = ν s := by
      intro g hg
      cases h_selected : g.selected with
      | true => exact ⟨ν, h_needed g hg h_selected, fun _ _ _ _ _ => rfl⟩
      | false =>
        obtain ⟨μ, h_μ⟩ := (forall_nonempty_iff h_meaning).1 h_some g hg
        exact ⟨μ, h_μ, fun c hc s hs h_s =>
          absurd h_s (h_grouping.unselected g hg h_selected c hc s hs)⟩
    obtain ⟨μ, h_keep, h_μ⟩ := exists_joint (h_grouping.forall_clauses.1 h_eval) h_grouping.apart
      (· ∈ q.selected) ν h_each
    refine ⟨μ, ⟨h_grouping.forall_clauses.2 h_μ, fun s hs h_free => ?_⟩, ?_⟩
    · rw [h_keep s hs]
      refine h_domain s hs ?_
      rintro ⟨g, hg, -, c, hc, h_c⟩
      exact h_free c ((h_grouping.clauses c).1 ⟨g, hg, hc⟩) h_c
    · exact List.map_congr_left fun s hs => (h_keep s hs).symm
  · rintro ⟨ν, ⟨h_all, h_domain⟩, rfl⟩
    refine ⟨ν, ⟨fun g hg _ => h_grouping.forall_clauses.1 h_all g hg, ?_⟩, rfl⟩
    intro s hs h_unbound
    refine h_domain s hs fun c hc h_c => ?_
    obtain ⟨g, hg, h_g⟩ := (h_grouping.clauses c).2 hc
    cases h_selected : g.selected with
    | true => exact h_unbound ⟨g, hg, h_selected, c, h_g, h_c⟩
    | false => exact h_grouping.unselected g hg h_selected c h_g s h_c hs

theorem selected_ne_nil {q : Query} {elements : List Element} (h : q.selection = .tuple elements)
    (h_some : elements ≠ []) : q.selected ≠ [] := by
  obtain ⟨e, rest, rfl⟩ := List.exists_cons_of_ne_nil h_some
  have h_mem : e.base ∈ q.selected := by
    simp [Query.selected, Selection.synonyms, Selection.elements, h, List.mem_eraseDups]
  exact List.ne_nil_of_mem h_mem

/-- A query that nothing satisfies. -/
theorem answered_of_unsatisfiable {q : Query} (h : ¬ ∃ ν, b.AllHold q.clauses ν) :
    b.Answered q (if q.isBoolean then ["FALSE"] else []) := by
  constructor
  · intro h_selection
    exact .inr ⟨h, by simp [Query.isBoolean, h_selection]⟩
  · intro elements h_selection
    refine ⟨[], fun row => ?_, ?_⟩
    · simp only [List.not_mem_nil, false_iff]
      rintro ⟨ν, h_ν, -⟩
      exact h ⟨ν, h_ν.1⟩
    · -- No row, so no text to be sorted.
      have h_nil : (∅ : Std.ExtTreeSet String).toList = [] :=
        Std.ExtTreeSet.toList_eq_nil_iff.2 rfl
      simp [Query.isBoolean, h_selection, Answer.sort, h_nil]

/-- The tables of groups lead to the answers. -/
theorem answered_answers {q : Query} (h_typed : q.Typed) {groups : List ClauseGroup}
    {tables : List Table} (h_grouping : q.Grouping groups)
    (h_eval : ∀ c ∈ q.clauses, b.Evaluable c)
    (h_some : (∀ t ∈ tables, t.isEmpty = false) ↔ ∀ g ∈ groups, ∃ ν, b.AllHold g.clauses ν)
    (h_meaning : (∀ t ∈ tables, t.isEmpty = false) →
      List.Forall₂ (fun g t => b.Says g.clauses t) groups tables) :
    b.Answered q (b.answers q groups tables) := by
  have h_holds : tables.all (!·.isEmpty) = true ↔ ∃ ν, b.AllHold q.clauses ν := by
    rw [exists_allHold_iff h_grouping h_eval, ← h_some]
    simp
  by_cases h_sat : ∃ ν, b.AllHold q.clauses ν
  · have h_tables := h_some.2 ((exists_allHold_iff h_grouping h_eval).1 h_sat)
    constructor
    · intro h_selection
      exact .inl ⟨h_sat, by simp only [answers, h_selection, h_holds.2 h_sat, if_true]⟩
    · intro elements h_selection
      have h_selected := selected_ne_nil h_selection (h_typed.elements elements h_selection)
      obtain ⟨rows, h_rows, h_eq⟩ := b.exists_rows_tupleAnswers h_selected
        (Table.wellFormed_joinAll (wellFormed_needed (h_meaning h_tables)))
      refine ⟨rows, fun row => ?_, ?_⟩
      · rw [h_rows]
        exact satisfies_iff_needed h_grouping h_eval (h_meaning h_tables) h_tables
      · simp only [answers, h_selection, h_holds.2 h_sat, if_true]
        rw [h_eq, h_selection]
        rfl
  · have h_false : tables.all (!·.isEmpty) = false := Bool.eq_false_iff.2 (mt h_holds.1 h_sat)
    have h_eq : b.answers q groups tables = if q.isBoolean then ["FALSE"] else [] := by
      cases h_selection : q.selection <;>
        simp [answers, Query.isBoolean, h_selection, h_false]
    rw [h_eq]
    exact answered_of_unsatisfiable h_sat

/-- A clause and its negation are not satisfied together. -/
theorem unsatisfiable_of_contradicts {q : Query} (h_typed : q.Typed) (h : q.contradicts = true) :
    ¬ ∃ ν, b.AllHold q.clauses ν := by
  simp only [Query.contradicts, List.any_eq_true, Bool.and_eq_true, Bool.not_eq_true',
    beq_iff_eq] at h
  obtain ⟨c, hc, h_negated, d, hd, h_positive, h_same⟩ := h
  rintro ⟨ν, h_ν⟩
  obtain ⟨table, t, h_table, h_t, -, -, h_c⟩ := b.exists_clauseTable (h_typed.conditions c hc)
  obtain ⟨table', u, h_table', h_u, -, -, h_d⟩ := b.exists_clauseTable (h_typed.conditions d hd)
  -- The two clauses have one condition, so one of them asks for its table and one against it.
  rw [h_same, h_table] at h_table'
  cases h_table'
  have h_holds := (clauseHolds_iff h_t).1 (h_ν c hc)
  have h_also := (clauseHolds_iff h_u).1 (h_ν d hd)
  rw [h_c, h_negated, if_pos rfl] at h_holds
  rw [h_d, h_positive] at h_also
  exact h_holds.2 h_also

/-- A typed query has the answers that its satisfying valuations give, under every strategy. -/
theorem exists_answered_evaluate (b : FactBase) (strategy : Strategy) {q : Query} (h : q.Typed) :
    ∃ e, b.evaluate strategy q = .ok e ∧ b.Answered q e.answers := by
  have h_eval : ∀ c ∈ q.clauses, b.Evaluable c := fun c hc => evaluable_of_typed (h.conditions c hc)
  unfold evaluate
  split
  · rename_i h_contradicts
    rw [Bool.and_eq_true] at h_contradicts
    exact ⟨_, rfl, answered_of_unsatisfiable (unsatisfiable_of_contradicts h h_contradicts.2)⟩
  · have h_grouping : q.Grouping (if strategy.optimise then q.plan strategy.finder else
        q.unplanned) := by
      split
      · exact q.grouping_plan strategy.finder
      · exact q.grouping_unplanned
    obtain ⟨tables, h_tables, h_some, h_meaning⟩ := exists_groupTables strategy
      (h_grouping.forall_clauses.1 h_eval)
    simp only [h_tables, bind, Except.bind]
    exact ⟨_, rfl, answered_answers h h_grouping h_eval h_some h_meaning⟩

/-- Planning the clauses and evaluating all groups never changes the answers: over every
    fact base, all strategies give those of the plain one. -/
theorem answers_independent_of_strategy (b : FactBase) {text : String} {q : Query}
    (h : Query.read text = .ok q) :
    ∃ plain, b.evaluate { optimise := false, parallel := false } q = .ok plain ∧
      ∀ strategy, ∃ e, b.evaluate strategy q = .ok e ∧ e.answers = plain.answers := by
  have h_typed := Query.typed_of_read h
  obtain ⟨plain, h_plain, h_answered⟩ :=
    b.exists_answered_evaluate { optimise := false, parallel := false } h_typed
  refine ⟨plain, h_plain, fun strategy => ?_⟩
  obtain ⟨e, h_e, h_also⟩ := b.exists_answered_evaluate strategy h_typed
  exact ⟨e, h_e, h_also.unique h_answered⟩

/-- Two groups, one of them negated and not selected, over a base that was not finalized. -/
theorem answers_independent_with_negation :
    ∃ q, Query.read ("assign a; print p; variable v; Select a such that Follows(a, 2) " ++
        "and not Uses(p, v) pattern a(_, _)") = .ok q ∧ q.clauses.length = 3 ∧
      ∃ plain, (({} : FactBase).addAll [.statement 1 .assign, .statement 2 .print, .variable "x",
          .assignment 1 "x" ["1"], .follows 1 2]).evaluate { optimise := false, parallel := false }
            q = .ok plain ∧
        ∀ strategy, ∃ e, (({} : FactBase).addAll [.statement 1 .assign, .statement 2 .print,
          .variable "x", .assignment 1 "x" ["1"], .follows 1 2]).evaluate strategy q = .ok e ∧
          e.answers = plain.answers :=
  exists_ok_of_test (fun q => q.clauses.length = 3) (by decide +kernel) fun _ h_read h_test =>
    ⟨of_decide_eq_true h_test, answers_independent_of_strategy _ h_read⟩

/-! ## Order and repetition of clauses -/

theorem allHold_congr_mem {cs ds : List Clause} (h : ∀ c, c ∈ cs ↔ c ∈ ds) (ν : Valuation) :
    b.AllHold cs ν ↔ b.AllHold ds ν := by
  simp only [AllHold, h]

section

variable {q r : Query} (h_selection : q.selection = r.selection)
  (h_clauses : ∀ c, c ∈ q.clauses ↔ c ∈ r.clauses)

include h_selection h_clauses

/-- What satisfies a query depends on its selection and on the set of its clauses. -/
theorem satisfies_congr_mem (ν : Valuation) : b.Satisfies q ν ↔ b.Satisfies r ν := by
  have h_selected : q.selected = r.selected := congrArg Selection.synonyms h_selection
  simp only [Satisfies, allHold_congr_mem h_clauses, h_clauses, h_selected]

/-- So do the answers. -/
theorem Answered.congr_mem {answers : List String} (h : b.Answered q answers) :
    b.Answered r answers := by
  have h_selected : q.selected = r.selected := congrArg Selection.synonyms h_selection
  constructor
  · intro h_boolean
    simpa only [allHold_congr_mem h_clauses] using h.boolean (h_selection.trans h_boolean)
  · intro elements h_tuple
    obtain ⟨rows, h_rows, h_answers⟩ := h.tuple elements (h_selection.trans h_tuple)
    refine ⟨rows, fun row => ?_, h_selected ▸ h_answers⟩
    simp only [h_rows, satisfies_congr_mem h_selection h_clauses, h_selected]

end

/-- Neither the order of the clauses nor their repetition changes the answers: over every fact
    base, two queries that select the same and have the same set of clauses have the same
    answers, those that satisfy them, under every strategy. -/
theorem answers_independent_of_clause_order (b : FactBase) {text other : String} {q r : Query}
    (h_q : Query.read text = .ok q) (h_r : Query.read other = .ok r)
    (h_selection : q.selection = r.selection) (h_clauses : ∀ c, c ∈ q.clauses ↔ c ∈ r.clauses) :
    ∃ answers, b.Answered q answers ∧ ∀ strategy,
      (∃ e, b.evaluate strategy q = .ok e ∧ e.answers = answers) ∧
        ∃ e, b.evaluate strategy r = .ok e ∧ e.answers = answers := by
  have h_typed := Query.typed_of_read h_q
  obtain ⟨plain, -, h_plain⟩ := b.exists_answered_evaluate {} h_typed
  refine ⟨plain.answers, h_plain, fun strategy => ⟨?_, ?_⟩⟩
  · obtain ⟨e, h_e, h_answered⟩ := b.exists_answered_evaluate strategy h_typed
    exact ⟨e, h_e, h_answered.unique h_plain⟩
  · obtain ⟨e, h_e, h_answered⟩ := b.exists_answered_evaluate strategy (Query.typed_of_read h_r)
    exact ⟨e, h_e, h_answered.unique (h_plain.congr_mem h_selection h_clauses)⟩

/-- Two assignments that use a variable, and one of which leads to statement 3. -/
def twoUses : List Fact :=
  [.statement 2 .assign, .statement 4 .assign, .variable "x", .uses 2 "x", .uses 4 "x", .next 4 3]

/-- Two clauses, and then the other way round with one of them repeated. -/
theorem answers_of_reordered_clauses :
    ∃ q, Query.read ("assign a; variable v; Select a such that Uses(a, v) " ++
        "and not Next(a, 3)") = .ok q ∧
      ∃ r, Query.read ("assign a; variable v; Select a such that not Next(a, 3) " ++
          "and Uses(a, v) and Uses(a, v)") = .ok r ∧ q.clauses.length < r.clauses.length ∧
        ∀ strategy,
          (∃ e, (({} : FactBase).addAll twoUses).evaluate strategy q = .ok e ∧ e.answers = ["2"]) ∧
            ∃ e, (({} : FactBase).addAll twoUses).evaluate strategy r = .ok e ∧
              e.answers = ["2"] := by
  refine exists_ok_of_test (fun q =>
      (Query.read ("assign a; variable v; Select a such that not Next(a, 3) " ++
        "and Uses(a, v) and Uses(a, v)")).toOption.any fun r =>
          decide (q.clauses.length < r.clauses.length ∧ q.selection = r.selection ∧
            (∀ c ∈ q.clauses, c ∈ r.clauses) ∧ (∀ c ∈ r.clauses, c ∈ q.clauses) ∧
            ((({} : FactBase).addAll twoUses).evaluate {} q).toOption.map Evaluation.answers =
              some ["2"]))
    (by decide +kernel) fun q h_q h_test => ?_
  refine exists_ok_of_test _ h_test fun r h_r h_same => ?_
  obtain ⟨h_length, h_selection, h_sub, h_sup, h_answers⟩ := of_decide_eq_true h_same
  obtain ⟨answers, -, h_all⟩ := answers_independent_of_clause_order (({} : FactBase).addAll twoUses)
    h_q h_r h_selection fun c => ⟨h_sub c, h_sup c⟩
  -- One evaluation settles what all of them give.
  obtain ⟨⟨e, h_e, rfl⟩, -⟩ := h_all {}
  rw [h_e] at h_answers
  obtain h_two : e.answers = ["2"] := Option.some.inj h_answers
  exact ⟨h_length, h_two ▸ h_all⟩

end FactBase

end ProgramQuery
