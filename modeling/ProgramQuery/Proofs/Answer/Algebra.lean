/-
  ProgramQuery.Proofs.Answer.Algebra

  Tables as relations.

  Here a table is read as a set of rows over its columns, and `unit` as the table
  without columns whose only row is the empty one (`contents`).  Rows are
  compared by what they have at given columns (`restrict`).  In these terms joining,
  subtracting and projecting are the operations of relational algebra, for all
  tables in normal form, and joins obey the laws of a conjunction.

  The two readings of a table, by its rows and by the valuations that satisfy it
  (`Holds`), say the same: a row of a well-formed table is the list of values that some
  valuation gives to the columns.
-/

import ProgramQuery.Proofs.Answer.Table

namespace ProgramQuery.Table

/-! ## Rows -/

/-- The rows of a table; `unit` has the row without values. -/
def contents : Table → List Row
  | .unit => [[]]
  | .bindings _ rows => rows.toList

/-- The values of a row over `columns` at some of them, found by name; those that are not
    there are left out. -/
def restrict (columns : List Synonym) (row : Row) (wanted : List Synonym) : Row :=
  wanted.filterMap fun s => (columns.zip row).lookup s

/-- A well-formed table that is `unit` if it has a row and no columns. -/
structure Normal (t : Table) : Prop extends t.WellFormed where
  unit_of_row : t.columns = [] → t.isEmpty = false → t = .unit

@[simp] theorem contents_unit : contents .unit = [[]] := rfl

@[simp] theorem mem_contents_bindings {columns : List Synonym} {rows : RowSet} {row : Row} :
    row ∈ (Table.bindings columns rows).contents ↔ row ∈ rows :=
  Std.ExtTreeSet.mem_toList

theorem map_mem_contents {t : Table} {ν : Valuation} :
    t.columns.map ν ∈ t.contents ↔ t.Holds ν := by
  cases t with
  | unit => simp
  | bindings columns rows => simp

theorem WellFormed.length_eq {t : Table} (h : t.WellFormed) {row : Row} (h_row : row ∈ t.contents) :
    row.length = t.columns.length := by
  cases t with
  | unit => rw [List.mem_singleton.1 h_row]; rfl
  | bindings columns rows => exact h.length row h_row

/-- The rows of a table are what valuations that satisfy it give to the columns. -/
theorem WellFormed.mem_contents {t : Table} (h : t.WellFormed) {row : Row} :
    row ∈ t.contents ↔ ∃ ν, t.Holds ν ∧ row = t.columns.map ν := by
  constructor
  · intro h_row
    obtain ⟨ν, rfl⟩ := exists_valuation h.nodup (h.length_eq h_row)
    exact ⟨ν, map_mem_contents.1 h_row, rfl⟩
  · rintro ⟨ν, h_ν, rfl⟩
    exact map_mem_contents.2 h_ν

/-! ## Restrictions -/

theorem lookup_zip_map (columns : List Synonym) (ν : Valuation) (s : Synonym) :
    (columns.zip (columns.map ν)).lookup s = if s ∈ columns then some (ν s) else none := by
  induction columns with
  | nil => rfl
  | cons c rest ih =>
    rw [List.map_cons, List.zip_cons_cons, List.lookup_cons, ih]
    by_cases h_s : s = c
    · simp [h_s]
    · have h_beq : (s == c) = false := beq_eq_false_iff_ne.2 h_s
      simp [h_beq, h_s]

theorem restrict_map (columns wanted : List Synonym) (ν : Valuation) :
    restrict columns (columns.map ν) wanted = (wanted.filter (· ∈ columns)).map ν := by
  induction wanted with
  | nil => rfl
  | cons s rest ih =>
    rw [restrict, List.filterMap_cons, lookup_zip_map, ← restrict, ih]
    by_cases h_s : s ∈ columns
    · simp [h_s]
    · simp [h_s]

/-- At columns that are all there, a restriction has the values of these. -/
theorem restrict_wanted {columns wanted : List Synonym} (h : ∀ s ∈ wanted, s ∈ columns)
    (ν : Valuation) : restrict columns (columns.map ν) wanted = wanted.map ν := by
  rw [restrict_map, List.filter_eq_self.2]
  exact fun s hs => by simpa using h s hs

/-! ## Normal form -/

theorem normal_unit : Normal .unit := ⟨wellFormed_unit, fun _ _ => rfl⟩

theorem normal_bindings {columns : List Synonym} {rows : RowSet} :
    Normal (.bindings columns rows) ↔
      WellFormed (.bindings columns rows) ∧ (columns = [] → rows.isEmpty = true) := by
  constructor
  · intro h
    refine ⟨h.toWellFormed, fun h_columns => ?_⟩
    by_contra h_row
    cases h.unit_of_row h_columns (Bool.eq_false_iff.2 h_row)
  · rintro ⟨h_wf, h_rows⟩
    refine ⟨h_wf, fun h_columns h_row => ?_⟩
    rw [isEmpty, h_rows h_columns] at h_row
    cases h_row

theorem normal_ofRows {columns : List Synonym} {rows : List Row} (h_nodup : columns.Nodup)
    (h_length : ∀ row ∈ rows, row.length = columns.length) : (ofRows columns rows).Normal := by
  have h_wf := wellFormed_ofRows h_nodup h_length
  unfold ofRows at h_wf ⊢
  split
  · exact normal_unit
  · rename_i h_kept
    rw [if_neg h_kept] at h_wf
    refine normal_bindings.2 ⟨h_wf, fun h_columns => ?_⟩
    -- Without columns, no row was given.
    have h_none : rows = [] := by simpa [h_columns] using h_kept
    rw [h_none]
    rfl

theorem normal_empty {columns : List Synonym} (h : columns.Nodup) : (empty columns).Normal :=
  normal_bindings.2 ⟨wellFormed_empty h, fun _ => rfl⟩

theorem normal_truth (holds : Bool) : (truth holds).Normal := by
  cases holds
  · exact normal_empty List.nodup_nil
  · exact normal_unit

theorem normal_column (s : Synonym) (values : List Value) : (column s values).Normal := by
  refine normal_ofRows (List.nodup_singleton s) fun row h_row => ?_
  obtain ⟨v, -, rfl⟩ := List.mem_map.1 h_row
  rfl

theorem mem_contents_ofRows {columns : List Synonym} {rows : List Row}
    (h_length : ∀ row ∈ rows, row.length = columns.length) {row : Row} :
    row ∈ (ofRows columns rows).contents ↔ row ∈ rows := by
  unfold ofRows
  split
  · rename_i h_unit
    simp only [Bool.and_eq_true, List.isEmpty_iff, Bool.not_eq_true', List.isEmpty_eq_false_iff]
      at h_unit
    obtain ⟨h_columns, h_some⟩ := h_unit
    -- Without columns, all rows are the empty one, and there is one.
    have h_empty : ∀ row ∈ rows, row = [] := by
      intro row h_row
      have h_zero := h_length row h_row
      rwa [h_columns, List.length_nil, List.length_eq_zero_iff] at h_zero
    obtain ⟨first, h_first⟩ := List.exists_mem_of_ne_nil rows h_some
    rw [contents_unit, List.mem_singleton]
    constructor
    · rintro rfl
      rwa [h_empty first h_first] at h_first
    · exact h_empty row
  · simp

/-- Without columns, a table is `unit` if it has a row. -/
theorem Normal.eq_unit_iff {t : Table} (h : t.Normal) (h_columns : t.columns = []) :
    t = .unit ↔ [] ∈ t.contents := by
  constructor
  · rintro rfl
    simp
  · intro h_row
    have h_holds : ∀ ν, t.Holds ν := fun ν => by
      rwa [← map_mem_contents, h_columns, List.map_nil]
    exact h.unit_of_row h_columns (h.isEmpty_eq_false.2 ⟨fun _ => .number 0, h_holds _⟩)

/-- Tables in normal form with the same columns and the same rows are equal. -/
theorem Normal.ext {t u : Table} (h_t : t.Normal) (h_u : u.Normal)
    (h_columns : t.columns = u.columns) (h_holds : ∀ ν, t.Holds ν ↔ u.Holds ν) : t = u := by
  have h_empty : t.isEmpty = u.isEmpty := by
    rw [Bool.eq_iff_iff, ← not_iff_not, Bool.not_eq_true, Bool.not_eq_true,
      h_t.isEmpty_eq_false, h_u.isEmpty_eq_false]
    exact exists_congr h_holds
  cases t with
  | unit => exact (h_u.unit_of_row h_columns.symm (h_empty ▸ rfl)).symm
  | bindings columns rows =>
    cases u with
    | unit => exact h_t.unit_of_row h_columns (h_empty ▸ rfl)
    | bindings others otherRows =>
      obtain rfl : columns = others := h_columns
      congr 1
      refine Std.ExtTreeSet.ext_mem fun row => ?_
      have h_left := @WellFormed.mem_contents _ h_t.toWellFormed row
      have h_right := @WellFormed.mem_contents _ h_u.toWellFormed row
      rw [mem_contents_bindings] at h_left h_right
      rw [h_left, h_right]
      simp only [h_holds, columns_bindings]

/-! ## Joins -/

theorem columns_join (t : Table) {u : Table} (h : u.WellFormed) :
    (t.join u).columns = t.columns ++ u.columns.filter (· ∉ t.columns) := by
  cases t with
  | unit => simp [join]
  | bindings left leftRows =>
    cases u with
    | unit => simp [join]
    | bindings right rightRows =>
      rw [join_bindings]
      exact joinColumns_eq left h.nodup

theorem Normal.join {t u : Table} (h_t : t.Normal) (h_u : u.Normal) : (t.join u).Normal := by
  refine ⟨h_t.toWellFormed.join h_u.toWellFormed, fun h_columns h_row => ?_⟩
  -- Both tables have no columns, and what satisfies the join satisfies both.
  rw [columns_join t h_u.toWellFormed, List.append_eq_nil_iff] at h_columns
  obtain ⟨h_left, h_right⟩ := h_columns
  have h_right : u.columns = [] := by simpa [h_left] using h_right
  obtain ⟨ν, h_ν⟩ := (h_t.toWellFormed.join h_u.toWellFormed).isEmpty_eq_false.1 h_row
  rw [holds_join h_t.toWellFormed h_u.toWellFormed] at h_ν
  have h_unit : t = .unit := h_t.unit_of_row h_left (h_t.isEmpty_eq_false.2 ⟨ν, h_ν.1⟩)
  have h_other : u = .unit := h_u.unit_of_row h_right (h_u.isEmpty_eq_false.2 ⟨ν, h_ν.2⟩)
  rw [h_unit, h_other]
  rfl

theorem normal_joinAll {tables : List Table} (h : ∀ t ∈ tables, t.Normal) :
    (joinAll tables).Normal := by
  have h_fold : ∀ start : Table, start.Normal → (tables.foldl join start).Normal := by
    induction tables with
    | nil => exact fun start h_start => h_start
    | cons t rest ih =>
      intro start h_start
      obtain ⟨h_t, h_rest⟩ := List.forall_mem_cons.1 h
      exact ih h_rest _ (h_start.join h_t)
  exact h_fold .unit normal_unit

/-- A row of a join is one over its columns that has a row of each table at the columns of
    this table. -/
theorem mem_contents_join {t u : Table} (h_t : t.WellFormed) (h_u : u.WellFormed) {row : Row} :
    row ∈ (t.join u).contents ↔ row.length = (t.join u).columns.length ∧
      restrict (t.join u).columns row t.columns ∈ t.contents ∧
      restrict (t.join u).columns row u.columns ∈ u.contents := by
  have h_wf := h_t.join h_u
  have h_left : ∀ s ∈ t.columns, s ∈ (t.join u).columns :=
    fun s hs => (mem_columns_join h_u).2 (.inl hs)
  have h_right : ∀ s ∈ u.columns, s ∈ (t.join u).columns :=
    fun s hs => (mem_columns_join h_u).2 (.inr hs)
  -- For the values that a valuation gives, all three memberships are about the valuation.
  have h_map : ∀ ν, (t.join u).columns.map ν ∈ (t.join u).contents ↔
      restrict (t.join u).columns ((t.join u).columns.map ν) t.columns ∈ t.contents ∧
      restrict (t.join u).columns ((t.join u).columns.map ν) u.columns ∈ u.contents := by
    intro ν
    rw [restrict_wanted h_left, restrict_wanted h_right, map_mem_contents, map_mem_contents,
      map_mem_contents, holds_join h_t h_u]
  constructor
  · intro h_row
    have h_length := h_wf.length_eq h_row
    obtain ⟨ν, rfl⟩ := exists_valuation h_wf.nodup h_length
    exact ⟨h_length, (h_map ν).1 h_row⟩
  · rintro ⟨h_length, h_rows⟩
    obtain ⟨ν, rfl⟩ := exists_valuation h_wf.nodup h_length
    exact (h_map ν).2 h_rows

/-! ## Differences -/

theorem Normal.subtract {t u : Table} (h_t : t.Normal) (h_u : u.WellFormed)
    (h : ∀ s ∈ u.columns, s ∈ t.columns) : (t.subtract u).Normal := by
  have h_wf : (t.subtract u).WellFormed := wellFormed_subtract h_t.toWellFormed
  refine ⟨h_wf, fun h_columns h_row => ?_⟩
  rw [columns_subtract] at h_columns
  obtain ⟨ν, h_ν⟩ := h_wf.isEmpty_eq_false.1 h_row
  have h_some := ((holds_subtract h_u h).1 h_ν).1
  have h_unit : t = .unit := h_t.unit_of_row h_columns (h_t.isEmpty_eq_false.2 ⟨ν, h_some⟩)
  subst h_unit
  -- A difference from `unit` is a truth value, and this one holds.
  rw [Table.subtract, holds_truth] at h_ν
  rw [Table.subtract, h_ν]
  rfl

/-- A row of a difference is one of the first table that has no row of the second at its
    columns. -/
theorem mem_contents_subtract {t u : Table} (h_t : t.WellFormed) (h_u : u.WellFormed)
    (h : ∀ s ∈ u.columns, s ∈ t.columns) {row : Row} :
    row ∈ (t.subtract u).contents ↔
      row ∈ t.contents ∧ restrict t.columns row u.columns ∉ u.contents := by
  have h_map : ∀ ν, t.columns.map ν ∈ (t.subtract u).contents ↔
      t.columns.map ν ∈ t.contents ∧
        restrict t.columns (t.columns.map ν) u.columns ∉ u.contents := by
    intro ν
    have h_own := map_mem_contents (t := t.subtract u) (ν := ν)
    rw [columns_subtract] at h_own
    rw [restrict_wanted h, h_own, map_mem_contents, map_mem_contents, holds_subtract h_u h]
  constructor
  · intro h_row
    have h_length := (wellFormed_subtract (u := u) h_t).length_eq h_row
    rw [columns_subtract] at h_length
    obtain ⟨ν, rfl⟩ := exists_valuation h_t.nodup h_length
    exact (h_map ν).1 h_row
  · intro h_row
    obtain ⟨ν, rfl⟩ := exists_valuation h_t.nodup (h_t.length_eq h_row.1)
    exact (h_map ν).2 h_row

/-! ## Projections -/

/-- A projection is the table of the restricted rows. -/
theorem project_eq {t : Table} (h : t.WellFormed) (wanted : List Synonym) :
    t.project wanted = ofRows (wanted.filter (· ∈ t.columns))
      (t.contents.map fun row => restrict t.columns row wanted) := by
  cases t with
  | unit => simp [project, ofRows]
  | bindings columns rows =>
    have h_kept : wanted.filter (fun s => (position? columns s).isSome) =
        wanted.filter (· ∈ columns) := by
      refine List.filter_congr fun s _ => ?_
      rw [Bool.eq_iff_iff, isSome_position?, decide_eq_true_iff]
    rw [project_bindings rows h_kept, columns_bindings]
    congr 1
    refine List.map_congr_left fun row h_row => ?_
    obtain ⟨ν, rfl⟩ := exists_valuation h.nodup (h.length_eq h_row)
    have h_there : ∀ s ∈ wanted.filter (· ∈ columns), s ∈ columns :=
      fun s hs => by simpa using List.of_mem_filter hs
    rw [columns_bindings, pick_wanted h_there, restrict_map]

/-- A restriction has a value for each column that is wanted and there. -/
theorem WellFormed.length_restrict {t : Table} (h : t.WellFormed) (wanted : List Synonym)
    {row : Row} (h_row : row ∈ t.contents) :
    (restrict t.columns row wanted).length = (wanted.filter (· ∈ t.columns)).length := by
  obtain ⟨ν, rfl⟩ := exists_valuation h.nodup (h.length_eq h_row)
  rw [restrict_map, List.length_map]

theorem WellFormed.length_of_restricted {t : Table} (h : t.WellFormed) (wanted : List Synonym) :
    ∀ row ∈ t.contents.map fun row => restrict t.columns row wanted,
      row.length = (wanted.filter (· ∈ t.columns)).length := by
  intro row h_row
  obtain ⟨full, h_full, rfl⟩ := List.mem_map.1 h_row
  exact h.length_restrict wanted h_full

theorem columns_project {t : Table} (h : t.WellFormed) (wanted : List Synonym) :
    (t.project wanted).columns = wanted.filter (· ∈ t.columns) := by
  rw [project_eq h, columns_ofRows]

theorem normal_project {t : Table} (h : t.WellFormed) {wanted : List Synonym}
    (h_nodup : wanted.Nodup) : (t.project wanted).Normal := by
  rw [project_eq h]
  exact normal_ofRows (h_nodup.filter _) (h.length_of_restricted wanted)

/-- The rows of a projection are the restrictions of the rows. -/
theorem mem_contents_project {t : Table} (h : t.WellFormed) (wanted : List Synonym) {row : Row} :
    row ∈ (t.project wanted).contents ↔
      ∃ full ∈ t.contents, row = restrict t.columns full wanted := by
  rw [project_eq h, mem_contents_ofRows (h.length_of_restricted wanted), List.mem_map]
  simp only [@eq_comm _ row]

/-- Joining, subtracting and projecting are the operations of relational algebra.  A join has the
    columns of the first table and then those that only the second one has, and as rows those
    whose restrictions to the columns of either table are rows there.  A difference from which
    no column is missing has the rows of the first table whose restriction is not a row of the
    second.  A projection has the wanted columns that are there, in the wanted order, and the
    restrictions of all rows. -/
theorem operations_are_relational_algebra {t u : Table} (h_t : t.Normal) (h_u : u.Normal) :
    ((t.join u).Normal ∧
      (t.join u).columns = t.columns ++ u.columns.filter (· ∉ t.columns) ∧
      ∀ row, row ∈ (t.join u).contents ↔ row.length = (t.join u).columns.length ∧
        restrict (t.join u).columns row t.columns ∈ t.contents ∧
        restrict (t.join u).columns row u.columns ∈ u.contents) ∧
    ((∀ s ∈ u.columns, s ∈ t.columns) →
      (t.subtract u).Normal ∧ (t.subtract u).columns = t.columns ∧
      ∀ row, row ∈ (t.subtract u).contents ↔
        row ∈ t.contents ∧ restrict t.columns row u.columns ∉ u.contents) ∧
    ∀ wanted : List Synonym, wanted.Nodup →
      (t.project wanted).Normal ∧
      (t.project wanted).columns = wanted.filter (· ∈ t.columns) ∧
      ∀ row, row ∈ (t.project wanted).contents ↔
        ∃ full ∈ t.contents, row = restrict t.columns full wanted := by
  have h_left := h_t.toWellFormed
  have h_right := h_u.toWellFormed
  refine ⟨⟨h_t.join h_u, columns_join t h_right, fun row => mem_contents_join h_left h_right⟩,
    fun h_columns => ?_, fun wanted h_nodup => ?_⟩
  · exact ⟨h_t.subtract h_right h_columns, columns_subtract t u,
      fun row => mem_contents_subtract h_left h_right h_columns⟩
  · exact ⟨normal_project h_left h_nodup, columns_project h_left wanted,
      fun row => mem_contents_project h_left wanted⟩

/-- A table of pairs of statements, with two names for its columns. -/
def ofNumberPairs (x y : String) (pairs : List (StatementNumber × StatementNumber)) : Table :=
  ofRows [⟨x, .stmt⟩, ⟨y, .stmt⟩] (pairs.map fun p => [.number p.1, .number p.2])

theorem normal_ofNumberPairs {x y : String} (h : x ≠ y)
    (pairs : List (StatementNumber × StatementNumber)) : (ofNumberPairs x y pairs).Normal := by
  refine normal_ofRows (by simp [h]) fun row h_row => ?_
  obtain ⟨p, -, rfl⟩ := List.mem_map.1 h_row
  rfl

/-- Columns are matched by name, not by place, and a row without columns is `unit`. -/
theorem algebra_of_swapped_columns :
    (∀ s ∈ (ofNumberPairs "b" "a" [(2, 1)]).columns,
        s ∈ (ofNumberPairs "a" "b" [(1, 2), (2, 3)]).columns) ∧
      [.number 1, .number 2] ∈
        ((ofNumberPairs "a" "b" [(1, 2), (2, 3)]).join (ofNumberPairs "b" "a" [(2, 1)])).contents ∧
      [.number 1, .number 2] ∉
        ((ofNumberPairs "a" "b" [(1, 2), (2, 3)]).subtract
          (ofNumberPairs "b" "a" [(2, 1)])).contents ∧
      [.number 2, .number 3] ∈
        ((ofNumberPairs "a" "b" [(1, 2), (2, 3)]).subtract
          (ofNumberPairs "b" "a" [(2, 1)])).contents ∧
      [.number 3, .number 2] ∈ ((ofNumberPairs "a" "b" [(1, 2), (2, 3)]).project
        [⟨"b", .stmt⟩, ⟨"c", .stmt⟩, ⟨"a", .stmt⟩]).contents ∧
      (ofNumberPairs "a" "b" [(1, 2), (2, 3)]).project [] = .unit := by
  have h_columns : ∀ s ∈ (ofNumberPairs "b" "a" [(2, 1)]).columns,
      s ∈ (ofNumberPairs "a" "b" [(1, 2), (2, 3)]).columns := by decide +kernel
  obtain ⟨⟨-, -, h_join⟩, h_subtract, h_project⟩ := operations_are_relational_algebra
    (normal_ofNumberPairs (x := "a") (y := "b") (by decide) [(1, 2), (2, 3)])
    (normal_ofNumberPairs (x := "b") (y := "a") (by decide) [(2, 1)])
  obtain ⟨-, -, h_subtract⟩ := h_subtract h_columns
  obtain ⟨-, -, h_swapped⟩ := h_project [⟨"b", .stmt⟩, ⟨"c", .stmt⟩, ⟨"a", .stmt⟩] (by decide)
  obtain ⟨h_normal, h_none, -⟩ := h_project [] (by decide)
  rw [h_join, h_subtract, h_subtract, h_swapped]
  refine ⟨h_columns, by decide +kernel, by decide +kernel, by decide +kernel, by decide +kernel,
    h_normal.unit_of_row h_none ?_⟩
  decide +kernel

/-! ## Laws of joins -/

/-- The order and the number of the given rows make no difference. -/
theorem ofRows_congr {columns : List Synonym} {rows others : List Row}
    (h : ∀ row, row ∈ rows ↔ row ∈ others) : ofRows columns rows = ofRows columns others := by
  have h_isEmpty : rows.isEmpty = others.isEmpty := by
    rw [Bool.eq_iff_iff, List.isEmpty_iff, List.isEmpty_iff, List.eq_nil_iff_forall_not_mem,
      List.eq_nil_iff_forall_not_mem]
    exact forall_congr' fun row => not_congr (h row)
  have h_set : (Std.ExtTreeSet.ofList rows : RowSet) = .ofList others :=
    Std.ExtTreeSet.ext_mem fun row => by simp [h]
  rw [ofRows, ofRows, h_isEmpty, h_set]

theorem WellFormed.mem_restricted {t : Table} (h : t.WellFormed) {order : List Synonym}
    {row : Row} :
    row ∈ (t.contents.map fun row => restrict t.columns row order) ↔
      ∃ ν, t.Holds ν ∧ row = (order.filter (· ∈ t.columns)).map ν := by
  rw [List.mem_map]
  constructor
  · rintro ⟨full, h_full, rfl⟩
    obtain ⟨ν, h_ν, rfl⟩ := h.mem_contents.1 h_full
    exact ⟨ν, h_ν, restrict_map ..⟩
  · rintro ⟨ν, h_ν, rfl⟩
    exact ⟨_, map_mem_contents.2 h_ν, restrict_map ..⟩

/-- Tables with the same columns, in whatever order, and the same bindings have the same
    projections. -/
theorem project_congr {t u : Table} (h_t : t.WellFormed) (h_u : u.WellFormed)
    (h_columns : ∀ s, s ∈ t.columns ↔ s ∈ u.columns) (h_holds : ∀ ν, t.Holds ν ↔ u.Holds ν)
    (order : List Synonym) : t.project order = u.project order := by
  have h_kept : order.filter (· ∈ t.columns) = order.filter (· ∈ u.columns) :=
    List.filter_congr fun s _ => by simp only [h_columns]
  rw [project_eq h_t, project_eq h_u, h_kept]
  apply ofRows_congr
  intro row
  rw [h_t.mem_restricted, h_u.mem_restricted, h_kept]
  simp only [h_holds]

/-- A table is its own projection to all its columns. -/
theorem Normal.project_columns {t : Table} (h : t.Normal) : t.project t.columns = t := by
  have h_wf := h.toWellFormed
  have h_all : t.columns.filter (· ∈ t.columns) = t.columns :=
    List.filter_eq_self.2 fun s hs => by simpa using hs
  have h_columns : (t.project t.columns).columns = t.columns := by
    rw [columns_project h_wf, h_all]
  refine (normal_project h_wf h.nodup).ext h h_columns fun ν => ?_
  rw [← map_mem_contents, h_columns, project_eq h_wf,
    mem_contents_ofRows (h_wf.length_of_restricted _), h_wf.mem_restricted, h_all,
    ← h_wf.mem_contents, map_mem_contents]

theorem join_self {t : Table} (h : t.Normal) : t.join t = t := by
  have h_wf := h.toWellFormed
  refine (h.join h).ext h ?_ fun ν => ?_
  · have h_none : t.columns.filter (· ∉ t.columns) = [] := by simp
    rw [columns_join t h_wf, h_none, List.append_nil]
  · rw [holds_join h_wf h_wf, and_self]

@[simp] theorem unit_join (t : Table) : join .unit t = t := by
  cases t <;> rfl

@[simp] theorem join_unit (t : Table) : t.join .unit = t := by
  cases t <;> rfl

/-- Joins are associative as they stand: the columns come in one order. -/
theorem join_assoc {t u v : Table} (h_t : t.Normal) (h_u : u.Normal) (h_v : v.Normal) :
    (t.join u).join v = t.join (u.join v) := by
  have h_left := h_t.toWellFormed
  have h_mid := h_u.toWellFormed
  have h_right := h_v.toWellFormed
  refine ((h_t.join h_u).join h_v).ext (h_t.join (h_u.join h_v)) ?_ fun ν => ?_
  · rw [columns_join _ h_right, columns_join _ h_mid, columns_join _ (h_mid.join h_right),
      columns_join _ h_right, List.filter_append, List.filter_filter, List.append_assoc]
    congr 2
    -- A column of the last table is new if neither of the others has it.
    refine List.filter_congr fun s _ => ?_
    simp only [List.mem_append, List.mem_filter, decide_eq_true_eq]
    by_cases h_s : s ∈ t.columns <;> simp [h_s]
  · rw [holds_join (h_left.join h_mid) h_right, holds_join h_left h_mid,
      holds_join h_left (h_mid.join h_right), holds_join h_mid h_right, and_assoc]

theorem isEmpty_join {t u : Table} (h_t : t.WellFormed) (h_u : u.WellFormed)
    (h : t.isEmpty = true ∨ u.isEmpty = true) : (t.join u).isEmpty = true := by
  by_contra h_row
  rw [Bool.not_eq_true, (h_t.join h_u).isEmpty_eq_false] at h_row
  obtain ⟨ν, h_ν⟩ := h_row
  rw [holds_join h_t h_u] at h_ν
  rcases h with h | h
  · rw [h_t.isEmpty_eq_false.2 ⟨ν, h_ν.1⟩] at h
    cases h
  · rw [h_u.isEmpty_eq_false.2 ⟨ν, h_ν.2⟩] at h
    cases h

/-- Joins obey the laws of a conjunction.  They commute up to the order of the columns: with the
    same columns, they have the same rows in whatever order of these, so that either join is the
    other one with its columns rearranged.  They are associative and idempotent, `unit` is
    neutral on both sides, and a table without rows leaves no rows. -/
theorem joins_obey_laws {t u v : Table} (h_t : t.Normal) (h_u : u.Normal) (h_v : v.Normal) :
    ((∀ s, s ∈ (t.join u).columns ↔ s ∈ (u.join t).columns) ∧
      (∀ order, (t.join u).project order = (u.join t).project order) ∧
      (t.join u).project (u.join t).columns = u.join t) ∧
    (t.join u).join v = t.join (u.join v) ∧
    t.join t = t ∧
    (join .unit t = t ∧ t.join .unit = t) ∧
    (u.isEmpty = true → (t.join u).isEmpty = true ∧ (u.join t).isEmpty = true) := by
  have h_left := h_t.toWellFormed
  have h_right := h_u.toWellFormed
  have h_columns : ∀ s, s ∈ (t.join u).columns ↔ s ∈ (u.join t).columns := by
    intro s
    rw [mem_columns_join h_right, mem_columns_join h_left, or_comm]
  have h_holds : ∀ ν, (t.join u).Holds ν ↔ (u.join t).Holds ν := by
    intro ν
    rw [holds_join h_left h_right, holds_join h_right h_left, and_comm]
  have h_project : ∀ order, (t.join u).project order = (u.join t).project order :=
    project_congr (h_left.join h_right) (h_right.join h_left) h_columns h_holds
  refine ⟨⟨h_columns, h_project, ?_⟩, join_assoc h_t h_u h_v, join_self h_t,
    ⟨unit_join t, join_unit t⟩, fun h_empty => ⟨?_, ?_⟩⟩
  · rw [h_project, (h_u.join h_t).project_columns]
  · exact isEmpty_join h_left h_right (.inr h_empty)
  · exact isEmpty_join h_right h_left (.inl h_empty)

/-- One row goes around a triangle of tables.  The first two join to different tables from the
    left and from the right, which are the same with their columns rearranged. -/
theorem joins_around_triangle :
    ((ofNumberPairs "a" "b" [(1, 2), (2, 3)]).join
          (ofNumberPairs "b" "c" [(2, 5), (3, 6)])).columns ≠
        ((ofNumberPairs "b" "c" [(2, 5), (3, 6)]).join
          (ofNumberPairs "a" "b" [(1, 2), (2, 3)])).columns ∧
      ((ofNumberPairs "a" "b" [(1, 2), (2, 3)]).join
          (ofNumberPairs "b" "c" [(2, 5), (3, 6)])).project
        ((ofNumberPairs "b" "c" [(2, 5), (3, 6)]).join
          (ofNumberPairs "a" "b" [(1, 2), (2, 3)])).columns =
        (ofNumberPairs "b" "c" [(2, 5), (3, 6)]).join (ofNumberPairs "a" "b" [(1, 2), (2, 3)]) ∧
      ((ofNumberPairs "a" "b" [(1, 2), (2, 3)]).join ((ofNumberPairs "b" "c" [(2, 5), (3, 6)]).join
          (ofNumberPairs "c" "a" [(5, 1), (6, 9)]))).contents =
        [[.number 1, .number 2, .number 5]] := by
  obtain ⟨⟨-, -, h_swapped⟩, h_assoc, -⟩ := joins_obey_laws
    (normal_ofNumberPairs (x := "a") (y := "b") (by decide) [(1, 2), (2, 3)])
    (normal_ofNumberPairs (x := "b") (y := "c") (by decide) [(2, 5), (3, 6)])
    (normal_ofNumberPairs (x := "c") (y := "a") (by decide) [(5, 1), (6, 9)])
  refine ⟨by decide +kernel, h_swapped, ?_⟩
  rw [← h_assoc]
  decide +kernel

end ProgramQuery.Table
