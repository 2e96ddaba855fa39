/-
  ProgramQuery.Proofs.Answer.Complement

  A clause and its negation.

  The two tables of a condition list the same synonyms, though not always in the
  same order, so their rows are compared at one list of columns (`rowsAt`).  Read in
  this way no row is in both tables, and together they have every choice of
  values from the domains.  The first half is how a negation is made.  The second
  half needs that the table of the condition itself stays inside the domains,
  which nothing checks where patterns and comparisons are concerned: it holds
  because a program registers all that its statements mention.
-/

import ProgramQuery.Proofs.Answer.Regular

namespace ProgramQuery

/-! ## Rows at given columns -/

namespace Table

/-- The rows of a table, each read at the given columns. -/
def rowsAt (t : Table) (order : List Synonym) : List Row :=
  t.contents.map fun row => restrict t.columns row order

/-- At columns of the table, the rows are what the valuations that satisfy it give to them. -/
theorem WellFormed.mem_rowsAt {t : Table} (h : t.WellFormed) {order : List Synonym}
    (h_order : ∀ s ∈ order, s ∈ t.columns) {row : Row} :
    row ∈ t.rowsAt order ↔ ∃ ν, t.Holds ν ∧ row = order.map ν := by
  have h_kept : order.filter (· ∈ t.columns) = order := by
    apply List.filter_eq_self.2
    intro s hs
    rw [decide_eq_true_eq]
    exact h_order s hs
  rw [rowsAt, h.mem_restricted, h_kept]

/-- Without columns there are only two tables. -/
theorem Normal.eq_unit_or_eq_empty {t : Table} (h : t.Normal) (h_columns : t.columns = []) :
    ((∀ ν, t.Holds ν) ∧ t = .unit) ∨ ((∀ ν, ¬ t.Holds ν) ∧ t = .empty []) := by
  -- A table that looks at no column holds of all valuations or of none.
  have h_same : ∀ ν μ, t.Holds ν → t.Holds μ := by
    intro ν μ h_ν
    apply h_ν.congr
    rw [h_columns]
    simp
  by_cases h_some : ∃ ν, t.Holds ν
  · obtain ⟨ν, h_ν⟩ := h_some
    have h_all : ∀ μ, t.Holds μ := fun μ => h_same ν μ h_ν
    left
    refine ⟨h_all, h.ext normal_unit h_columns fun μ => ?_⟩
    exact iff_of_true (h_all μ) (holds_unit μ)
  · have h_none : ∀ μ, ¬ t.Holds μ := fun μ h_μ => h_some ⟨μ, h_μ⟩
    right
    refine ⟨h_none, h.ext (normal_empty List.nodup_nil) h_columns fun μ => ?_⟩
    exact iff_of_false (h_none μ) (not_holds_empty [] μ)

/-- A table that binds the distinct synonyms of a list has them as its columns, in some order. -/
theorem Binds.perm_columns {t : Table} {synonyms : List Synonym} (h : t.Binds synonyms)
    (h_nodup : synonyms.Nodup) : t.columns.Perm synonyms :=
  (List.perm_ext_iff_of_nodup h.wellFormed.nodup h_nodup).2 h.mem_columns

end Table

/-- A row has a value from the domain of each synonym if a valuation that stays inside the domains
    gives these values. -/
theorem FactBase.forall₂_domain_iff {b : FactBase} {synonyms : List Synonym}
    (h_nodup : synonyms.Nodup) {row : Row} :
    List.Forall₂ (fun s v => v ∈ b.domain s) synonyms row ↔
      ∃ ν : Valuation, (∀ s ∈ synonyms, ν s ∈ b.domain s) ∧ row = synonyms.map ν := by
  constructor
  · intro h_row
    obtain ⟨ν, rfl⟩ := Table.exists_valuation h_nodup h_row.length_eq.symm
    rw [List.forall₂_map_right_iff, List.forall₂_same] at h_row
    exact ⟨ν, h_row, rfl⟩
  · rintro ⟨ν, h_ν, rfl⟩
    rw [List.forall₂_map_right_iff, List.forall₂_same]
    exact h_ν

/-! ## Complements -/

/-- Two tables over some synonyms that divide the choices of values from the domains: a valuation
    that satisfies one of them stays inside the domains, and inside them it satisfies one or the
    other. -/
structure FactBase.Divide (b : FactBase) (synonyms : List Synonym) (positive negative : Table) :
    Prop where
  binds : positive.Binds synonyms
  binds_negative : negative.Binds synonyms
  within : ∀ ν, positive.Holds ν → ∀ s ∈ synonyms, ν s ∈ b.domain s
  holds_negative : ∀ ν, negative.Holds ν ↔
    (∀ s ∈ synonyms, ν s ∈ b.domain s) ∧ ¬ positive.Holds ν

namespace FactBase

namespace Divide

variable {b : FactBase} {synonyms : List Synonym} {positive negative : Table}

/-- A row of both tables comes from one valuation. -/
theorem disjoint_rowsAt (h : b.Divide synonyms positive negative) {row : Row}
    (h_row : row ∈ positive.rowsAt synonyms) : row ∉ negative.rowsAt synonyms := by
  rw [h.binds_negative.wellFormed.mem_rowsAt fun s => (h.binds_negative.mem_columns s).2]
  rw [h.binds.wellFormed.mem_rowsAt fun s => (h.binds.mem_columns s).2] at h_row
  obtain ⟨ν, h_ν, rfl⟩ := h_row
  rintro ⟨μ, h_μ, h_eq⟩
  -- The two valuations agree on the synonyms, and the tables look at nothing else.
  have h_agree : ∀ s ∈ synonyms, ν s = μ s := List.map_inj_left.1 h_eq
  have h_both : positive.Holds μ := h_ν.congr fun s hs => h_agree s ((h.binds.mem_columns s).1 hs)
  exact ((h.holds_negative μ).1 h_μ).2 h_both

theorem mem_rowsAt_or (h : b.Divide synonyms positive negative) (h_nodup : synonyms.Nodup)
    (row : Row) : row ∈ positive.rowsAt synonyms ∨ row ∈ negative.rowsAt synonyms ↔
      List.Forall₂ (fun s v => v ∈ b.domain s) synonyms row := by
  rw [h.binds_negative.wellFormed.mem_rowsAt fun s => (h.binds_negative.mem_columns s).2,
    h.binds.wellFormed.mem_rowsAt fun s => (h.binds.mem_columns s).2, forall₂_domain_iff h_nodup]
  constructor
  · rintro (⟨ν, h_ν, rfl⟩ | ⟨ν, h_ν, rfl⟩)
    · exact ⟨ν, h.within ν h_ν, rfl⟩
    · exact ⟨ν, ((h.holds_negative ν).1 h_ν).1, rfl⟩
  · rintro ⟨ν, h_domain, rfl⟩
    by_cases h_ν : positive.Holds ν
    · exact .inl ⟨ν, h_ν, rfl⟩
    · exact .inr ⟨ν, (h.holds_negative ν).2 ⟨h_domain, h_ν⟩, rfl⟩

/-- Without synonyms there is one choice of values, and one of the two tables has it. -/
theorem of_no_synonyms (h : b.Divide [] positive negative) :
    (positive = .unit ∧ negative = .empty []) ∨ (positive = .empty [] ∧ negative = .unit) := by
  have h_columns : positive.columns = [] := by
    apply List.eq_nil_iff_forall_not_mem.2
    intro s hs
    simpa using (h.binds.mem_columns s).1 hs
  have h_columns' : negative.columns = [] := by
    apply List.eq_nil_iff_forall_not_mem.2
    intro s hs
    simpa using (h.binds_negative.mem_columns s).1 hs
  have h_negative : ∀ ν, negative.Holds ν ↔ ¬ positive.Holds ν := by
    intro ν
    rw [h.holds_negative ν]
    simp
  have h_any : Valuation := fun _ => .number 0
  obtain ⟨h_all, rfl⟩ | ⟨h_none, rfl⟩ := h.binds.normal.eq_unit_or_eq_empty h_columns
  · left
    obtain ⟨h_all', -⟩ | ⟨-, h_eq⟩ := h.binds_negative.normal.eq_unit_or_eq_empty h_columns'
    · exact absurd (h_all h_any) ((h_negative h_any).1 (h_all' h_any))
    · exact ⟨rfl, h_eq⟩
  · right
    obtain ⟨-, h_eq⟩ | ⟨h_none', -⟩ := h.binds_negative.normal.eq_unit_or_eq_empty h_columns'
    · exact ⟨rfl, h_eq⟩
    · exact absurd ((h_negative h_any).2 (h_none h_any)) (h_none' h_any)

end Divide

/-- Over a regular base the table of a typed condition stays inside the domains, so it and that of
    the negation divide the choices of values. -/
theorem Regular.exists_divide {b : FactBase} (h : b.Regular) {c : Clause}
    (h_typed : c.condition.Typed) :
    ∃ positive negative, b.clauseTable ⟨c.condition, false⟩ = .ok positive ∧
      b.clauseTable ⟨c.condition, true⟩ = .ok negative ∧
      b.Divide c.synonyms positive negative := by
  obtain ⟨positive, t, h_condition, h_t, h_binds, -, h_holds⟩ :=
    b.exists_clauseTable (c := ⟨c.condition, false⟩) h_typed
  obtain ⟨positive', negative, h_condition', h_negative, -, h_binds', h_holds'⟩ :=
    b.exists_clauseTable (c := ⟨c.condition, true⟩) h_typed
  -- Both clauses have one condition, hence one table to start from.
  obtain rfl : positive = positive' := by
    rw [h_condition, Except.ok.injEq] at h_condition'
    exact h_condition'
  have h_positive : b.clauseTable ⟨c.condition, false⟩ = .ok positive := by
    simp only [clauseTable, h_condition]
    rfl
  refine ⟨positive, negative, h_positive, h_negative, h_binds, h_binds', fun ν h_ν s hs => ?_,
    h_holds'⟩
  rw [holds_conditionTable h h_typed h_condition] at h_ν
  exact h_ν.1 s (mem_synonyms.1 hs)

/-- In a program that was read, for each clause of a query that was read, the condition and its
    negation have tables over the distinct synonyms of the clause.  Read at these synonyms, the
    two tables have no row in common, and a row is in one of them if and only if it has a value
    from the domain of each synonym.  Without synonyms one of the tables is `unit` and the other
    is empty. -/
theorem negation_divides_domains {source text : String} {p : Program} {q : Query}
    (h_program : Program.read source = .ok p) (h_query : Query.read text = .ok q) {c : Clause}
    (hc : c ∈ q.clauses) :
    let b := ofProgram p.numbered
    ∃ positive negative, b.clauseTable ⟨c.condition, false⟩ = .ok positive ∧
      b.clauseTable ⟨c.condition, true⟩ = .ok negative ∧
      (positive.Normal ∧ positive.columns.Perm c.synonyms) ∧
      (negative.Normal ∧ negative.columns.Perm c.synonyms) ∧
      (∀ row ∈ positive.rowsAt c.synonyms, row ∉ negative.rowsAt c.synonyms) ∧
      (∀ row, row ∈ positive.rowsAt c.synonyms ∨ row ∈ negative.rowsAt c.synonyms ↔
        List.Forall₂ (fun s v => v ∈ b.domain s) c.synonyms row) ∧
      (c.synonyms = [] → (positive = .unit ∧ negative = .empty []) ∨
        (positive = .empty [] ∧ negative = .unit)) := by
  intro b
  have h_regular : b.Regular := regular_ofProgram (Program.wellFormed_of_read h_program)
  have h_typed : c.condition.Typed := (Query.typed_of_read h_query).conditions c hc
  have h_nodup : c.synonyms.Nodup := Facts.nodup_eraseDups _
  obtain ⟨positive, negative, h_positive, h_negative, h_divide⟩ := h_regular.exists_divide h_typed
  refine ⟨positive, negative, h_positive, h_negative,
    ⟨h_divide.binds.normal, h_divide.binds.perm_columns h_nodup⟩,
    ⟨h_divide.binds_negative.normal, h_divide.binds_negative.perm_columns h_nodup⟩,
    fun row => h_divide.disjoint_rowsAt, h_divide.mem_rowsAt_or h_nodup, fun h_none => ?_⟩
  rw [h_none] at h_divide
  exact h_divide.of_no_synonyms

/-- Of two assignments and two variables, the pairs that a pattern joins and those that it does
    not join. -/
theorem pattern_divides_pairs :
    ∃ p, Program.read "procedure p \x7b x = y; y = 1; \x7d" = .ok p ∧
      ∃ q, Query.read "assign a; variable v; Select a pattern not a(v, _)" = .ok q ∧
        ∃ c ∈ q.clauses, ∃ positive negative,
          (ofProgram p.numbered).clauseTable ⟨c.condition, false⟩ = .ok positive ∧
          (ofProgram p.numbered).clauseTable ⟨c.condition, true⟩ = .ok negative ∧
          positive.contents = [[.number 1, .name "x"], [.number 2, .name "y"]] ∧
          [.number 1, .name "y"] ∈ negative.rowsAt c.synonyms ∧
          [.number 2, .name "x"] ∈ negative.rowsAt c.synonyms ∧
          [.number 1, .name "x"] ∉ negative.rowsAt c.synonyms ∧
          [.number 1, .name "p"] ∉ negative.rowsAt c.synonyms := by
  let a : Synonym := ⟨"a", .assign⟩
  let v : Synonym := ⟨"v", .variable⟩
  let c : Clause := ⟨.pattern a (.synonym v) .wildcard, true⟩
  refine exists_ok_of_test (fun p => decide (
    ((ofProgram p.numbered).clauseTable ⟨c.condition, false⟩).toOption.map Table.columns =
        some [a, v] ∧
      ((ofProgram p.numbered).clauseTable ⟨c.condition, false⟩).toOption.map Table.contents =
        some [[.number 1, .name "x"], [.number 2, .name "y"]] ∧
      (ofProgram p.numbered).domain a = [.number 1, .number 2] ∧
      (ofProgram p.numbered).domain v = [.name "x", .name "y"])) (by decide +kernel)
    fun p h_program h_p => ?_
  refine exists_ok_of_test (fun q => decide (q.clauses = [c])) (by decide +kernel)
    fun q h_query h_q => ?_
  obtain ⟨h_columns, h_contents, h_a, h_v⟩ := of_decide_eq_true h_p
  have hc : c ∈ q.clauses := by
    rw [of_decide_eq_true h_q]
    exact List.mem_singleton.2 rfl
  have h_synonyms : c.synonyms = [a, v] := by decide
  obtain ⟨positive, negative, h_positive, h_negative, -, -, h_apart, h_union, -⟩ :=
    negation_divides_domains h_program h_query hc
  rw [h_positive] at h_columns h_contents
  have h_columns : positive.columns = [a, v] := Option.some.inj h_columns
  have h_contents := Option.some.inj h_contents
  have h_rows : positive.rowsAt c.synonyms =
      [[.number 1, .name "x"], [.number 2, .name "y"]] := by
    rw [Table.rowsAt, h_contents, h_columns, h_synonyms]
    decide
  rw [h_rows] at h_apart h_union
  simp only [h_synonyms] at h_apart h_union ⊢
  refine ⟨c, hc, positive, negative, h_positive, h_negative, h_contents, ?_⟩
  rw [h_synonyms]
  refine ⟨((h_union _).2 ?_).resolve_left (by decide), ((h_union _).2 ?_).resolve_left (by decide),
    h_apart _ (by decide), fun h_row => ?_⟩
  · exact .cons (by rw [h_a]; decide) (.cons (by rw [h_v]; decide) .nil)
  · exact .cons (by rw [h_a]; decide) (.cons (by rw [h_v]; decide) .nil)
  · cases (h_union _).1 (.inr h_row) with
    | cons _ h_rest =>
      cases h_rest with
      | cons h_name _ =>
        rw [h_v] at h_name
        exact absurd h_name (by decide)

end FactBase

end ProgramQuery
