/-
  ProgramQuery.Proofs.Answer.Table

  What tables mean.

  A table is a condition on the values of its columns: it holds of a valuation if the
  values of its columns are one of its rows (`Holds`).  Joining is conjunction,
  subtracting is conjunction with a negation, and a table is empty if no
  valuation satisfies it.  All this needs rows that are as long as the list of
  columns, and no column listed twice (`WellFormed`).
-/

import Mathlib.Data.List.Nodup
import Mathlib.Logic.Function.Basic
import ProgramQuery.Answer.Table

namespace ProgramQuery

/-- A choice of values for synonyms. -/
abbrev Valuation := Synonym → Value

namespace Table

/-! ## Meaning -/

/-- The values of the columns are a row. -/
def Holds : Table → Valuation → Prop
  | .unit, _ => True
  | .bindings columns rows, ν => columns.map ν ∈ rows

/-- No column is listed twice, and rows have a value for each column. -/
structure WellFormed (t : Table) : Prop where
  nodup : t.columns.Nodup
  length : ∀ row ∈ t.rowList, row.length = t.columns.length

@[simp] theorem columns_unit : columns .unit = [] := rfl

@[simp] theorem columns_bindings (columns : List Synonym) (rows : RowSet) :
    (Table.bindings columns rows).columns = columns := rfl

@[simp] theorem holds_unit (ν : Valuation) : Holds .unit ν := trivial

@[simp] theorem holds_bindings {columns : List Synonym} {rows : RowSet} {ν : Valuation} :
    Holds (.bindings columns rows) ν ↔ columns.map ν ∈ rows := Iff.rfl

theorem wellFormed_unit : WellFormed .unit := ⟨List.nodup_nil, by simp [rowList]⟩

theorem wellFormed_bindings {columns : List Synonym} {rows : RowSet} :
    WellFormed (.bindings columns rows) ↔
      columns.Nodup ∧ ∀ row ∈ rows, row.length = columns.length := by
  constructor
  · intro h
    exact ⟨h.nodup, fun row h_row => h.length row (Std.ExtTreeSet.mem_toList.2 h_row)⟩
  · intro h
    exact ⟨h.1, fun row h_row => h.2 row (Std.ExtTreeSet.mem_toList.1 h_row)⟩

/-- A table only looks at its columns. -/
theorem Holds.congr {t : Table} {ν μ : Valuation} (h : t.Holds ν)
    (h_eq : ∀ s ∈ t.columns, ν s = μ s) : t.Holds μ := by
  cases t with
  | unit => trivial
  | bindings columns rows =>
    have h_map : columns.map ν = columns.map μ := List.map_congr_left h_eq
    rwa [holds_bindings, ← h_map]

/-- A row gives values to columns that are listed once. -/
theorem exists_valuation {columns : List Synonym} (h_nodup : columns.Nodup) {row : Row}
    (h_length : row.length = columns.length) : ∃ ν : Valuation, columns.map ν = row := by
  induction columns generalizing row with
  | nil => exact ⟨fun _ => .number 0, (List.length_eq_zero_iff.1 h_length).symm⟩
  | cons s rest ih =>
    obtain ⟨v, values, rfl⟩ := List.exists_cons_of_length_eq_add_one h_length
    rw [List.nodup_cons] at h_nodup
    obtain ⟨ν, h_ν⟩ := ih h_nodup.2 (by simpa using h_length)
    refine ⟨Function.update ν s v, ?_⟩
    have h_rest : rest.map (Function.update ν s v) = rest.map ν :=
      List.map_congr_left fun t ht =>
        Function.update_of_ne (fun (h : t = s) => h_nodup.1 (h ▸ ht)) ..
    rw [List.map_cons, Function.update_self, h_rest, h_ν]

/-- A table is not empty if something satisfies it. -/
theorem WellFormed.isEmpty_eq_false {t : Table} (h : t.WellFormed) :
    t.isEmpty = false ↔ ∃ ν, t.Holds ν := by
  cases t with
  | unit => exact ⟨fun _ => ⟨fun _ => .number 0, trivial⟩, fun _ => rfl⟩
  | bindings columns rows =>
    rw [wellFormed_bindings] at h
    rw [isEmpty, ← Std.ExtTreeSet.isEmpty_toList, List.isEmpty_eq_false_iff_exists_mem]
    simp only [Std.ExtTreeSet.mem_toList]
    constructor
    · rintro ⟨row, h_row⟩
      obtain ⟨ν, rfl⟩ := exists_valuation h.1 (h.2 row h_row)
      exact ⟨ν, h_row⟩
    · rintro ⟨ν, h_ν⟩
      exact ⟨_, h_ν⟩

/-! ## Making tables -/

@[simp] theorem not_holds_empty (columns : List Synonym) (ν : Valuation) :
    ¬ (empty columns).Holds ν := by
  simp [empty]

theorem wellFormed_empty {columns : List Synonym} (h : columns.Nodup) :
    (empty columns).WellFormed :=
  wellFormed_bindings.2 ⟨h, by simp⟩

@[simp] theorem holds_truth {holds : Bool} {ν : Valuation} :
    (truth holds).Holds ν ↔ holds = true := by
  cases holds <;> simp [truth]

theorem wellFormed_truth (holds : Bool) : (truth holds).WellFormed := by
  cases holds
  · exact wellFormed_empty List.nodup_nil
  · exact wellFormed_unit

@[simp] theorem columns_truth (holds : Bool) : (truth holds).columns = [] := by
  cases holds <;> rfl

theorem holds_ofRows {columns : List Synonym} {rows : List Row} (h : columns ≠ []) {ν : Valuation} :
    (ofRows columns rows).Holds ν ↔ columns.map ν ∈ rows := by
  simp [ofRows, h]

@[simp] theorem columns_ofRows (columns : List Synonym) (rows : List Row) :
    (ofRows columns rows).columns = columns := by
  unfold ofRows
  split
  · rename_i h
    simp only [Bool.and_eq_true, List.isEmpty_iff] at h
    rw [h.1]
    rfl
  · rfl

theorem wellFormed_ofRows {columns : List Synonym} {rows : List Row} (h_nodup : columns.Nodup)
    (h_length : ∀ row ∈ rows, row.length = columns.length) : (ofRows columns rows).WellFormed := by
  unfold ofRows
  split
  · exact wellFormed_unit
  · exact wellFormed_bindings.2 ⟨h_nodup, by simpa using h_length⟩

@[simp] theorem holds_column {s : Synonym} {values : List Value} {ν : Valuation} :
    (column s values).Holds ν ↔ ν s ∈ values := by
  rw [column, holds_ofRows (List.cons_ne_nil s [])]
  simp

@[simp] theorem columns_column (s : Synonym) (values : List Value) :
    (column s values).columns = [s] :=
  columns_ofRows ..

/-! ## Places of columns -/

theorem position?_eq_some {columns : List Synonym} {s : Synonym} {i : Nat}
    (h : position? columns s = some i) : columns[i]? = some s := by
  obtain ⟨h_i, h_eq, -⟩ := List.findIdx?_eq_some_iff_getElem.1 h
  rw [List.getElem?_eq_getElem h_i, beq_iff_eq.1 h_eq]

theorem position?_getElem {columns : List Synonym} (h : columns.Nodup) {i : Nat}
    (h_i : i < columns.length) : position? columns columns[i] = some i := by
  refine List.findIdx?_eq_some_iff_getElem.2 ⟨h_i, by simp, fun j h_j h_eq => ?_⟩
  rw [beq_iff_eq, h.getElem_inj_iff] at h_eq
  exact Nat.ne_of_lt h_j h_eq

theorem isSome_position? {columns : List Synonym} {s : Synonym} :
    (position? columns s).isSome ↔ s ∈ columns := by
  simp [position?]

/-- Picking the places of some columns gives the values of those that are there. -/
theorem pick_positions (columns wanted : List Synonym) (ν : Valuation) :
    pick (wanted.filterMap (position? columns)) (columns.map ν) =
      (wanted.filter (· ∈ columns)).map ν := by
  induction wanted with
  | nil => rfl
  | cons s rest ih =>
    cases h_s : position? columns s with
    | none =>
      have h_out : s ∉ columns := by rw [← isSome_position?, h_s]; simp
      simpa [h_s, h_out] using ih
    | some i =>
      have h_in : s ∈ columns := by rw [← isSome_position?, h_s]; rfl
      simp only [pick, List.getElem?_map] at ih
      simp [pick, h_s, h_in, position?_eq_some h_s, ih]

/-- Picking the places of columns that are all there gives their values. -/
theorem pick_wanted {columns wanted : List Synonym} (h : ∀ s ∈ wanted, s ∈ columns)
    (ν : Valuation) :
    pick (wanted.filterMap (position? columns)) (columns.map ν) = wanted.map ν := by
  rw [pick_positions, List.filter_eq_self.2]
  exact fun s hs => by simpa using h s hs

/-! ## Joins -/

/-- Rows are found by their values at the places of the index. -/
theorem mem_index {positions : List Nat} {rows : List Row} {key row : Row} :
    row ∈ (index positions rows).getD key [] ↔ row ∈ rows ∧ pick positions row = key := by
  induction rows with
  | nil => simp [index]
  | cons first rest ih =>
    rw [index, List.foldr_cons, ← index]
    simp only [Std.ExtTreeMap.getD_insert]
    split
    · rename_i h_key
      obtain rfl := Std.LawfulEqOrd.eq_of_compare h_key
      simp only [List.mem_cons, ih]
      constructor
      · rintro (rfl | ⟨h_row, h_pick⟩)
        · exact ⟨.inl rfl, rfl⟩
        · exact ⟨.inr h_row, h_pick⟩
      · rintro ⟨rfl | h_row, h_pick⟩
        · exact .inl rfl
        · exact .inr ⟨h_row, h_pick⟩
    · rename_i h_key
      rw [ih, List.mem_cons]
      constructor
      · rintro ⟨h_row, h_pick⟩
        exact ⟨.inr h_row, h_pick⟩
      · rintro ⟨rfl | h_row, h_pick⟩
        · exact absurd (h_pick ▸ Std.ReflOrd.compare_self) h_key
        · exact ⟨h_row, h_pick⟩

/-- A map over the members of a list that passes a test, with their places at hand. -/
theorem filterMap_zipIdx_fst {α β : Type} (l : List α) (f : α → Option β) :
    l.zipIdx.filterMap (fun x => f x.1) = l.filterMap f := by
  have h := List.filterMap_map (f := Prod.fst) (g := f) (l := l.zipIdx)
  rw [List.zipIdx_map_fst] at h
  exact h.symm

theorem shared_snd (left right : List Synonym) :
    (shared left right).map Prod.snd = left.filterMap (position? right) := by
  rw [← filterMap_zipIdx_fst, shared, List.map_filterMap]
  refine List.filterMap_congr fun x _ => ?_
  obtain ⟨c, i⟩ := x
  cases h_c : position? right c <;> simp [h_c]

theorem pick_shared_fst (left right : List Synonym) (ν : Valuation) :
    pick ((shared left right).map Prod.fst) (left.map ν) = (left.filter (· ∈ right)).map ν := by
  have h_filter : (left.filter (· ∈ right)).map ν =
      left.filterMap fun c => if c ∈ right then some (ν c) else none := by
    rw [← List.filterMap_eq_map, List.filterMap_filter]
    simp
  rw [h_filter, ← filterMap_zipIdx_fst, pick, List.filterMap_map, shared, List.filterMap_filterMap]
  refine List.filterMap_congr fun x hx => ?_
  have h_get : left[x.2]? = some x.1 := List.mk_mem_zipIdx_iff_getElem?.1 hx
  by_cases h_in : x.1 ∈ right
  · obtain ⟨j, h_j⟩ := Option.isSome_iff_exists.1 (isSome_position?.2 h_in)
    simp [h_j, h_in, h_get]
  · have h_none : position? right x.1 = none := by
      simpa using mt isSome_position?.1 h_in
    simp [h_none, h_in]

/-- The places of the second table that are left over are those of its own columns. -/
theorem extra_columns (left : List Synonym) {right : List Synonym} (h : right.Nodup) :
    (extra left right).filterMap (right[·]?) = right.filter (· ∉ left) := by
  have h_all : (List.range right.length).filterMap (right[·]?) = right := by
    have h_map : (List.range right.length).map (right[·]?) = right.map some :=
      List.ext_getElem (by simp) fun i _ _ => by simp
    calc (List.range right.length).filterMap (right[·]?)
        = ((List.range right.length).map (right[·]?)).filterMap id := by simp
      _ = right := by rw [h_map]; simp
  conv_rhs => rw [← h_all]
  rw [extra, List.filterMap_filter, List.filter_filterMap]
  refine List.filterMap_congr fun i hi => ?_
  have h_i : i < right.length := List.mem_range.1 hi
  have h_mem : (shared left right).any (·.2 == i) = true ↔ right[i] ∈ left := by
    have h_snd : (shared left right).any (·.2 == i) = true ↔
        i ∈ (shared left right).map Prod.snd := by
      simp [List.any_eq_true]
    rw [h_snd, shared_snd, List.mem_filterMap]
    constructor
    · rintro ⟨c, hc, h_c⟩
      have h_get := position?_eq_some h_c
      rw [List.getElem?_eq_getElem h_i, Option.some.injEq] at h_get
      rwa [h_get]
    · exact fun h_in => ⟨_, h_in, position?_getElem h h_i⟩
  by_cases h_in : right[i] ∈ left
  · simp [h_mem.2 h_in, h_i, h_in, Option.filter_some]
  · simp [Bool.eq_false_iff.2 (mt h_mem.1 h_in), h_i, h_in, Option.filter_some]

theorem joinColumns_eq (left : List Synonym) {right : List Synonym} (h : right.Nodup) :
    joinColumns left right = left ++ right.filter (· ∉ left) := by
  rw [joinColumns, extra_columns left h]

theorem pick_extra (left : List Synonym) {right : List Synonym} (h : right.Nodup) (ν : Valuation) :
    pick (extra left right) (right.map ν) = (right.filter (· ∉ left)).map ν := by
  rw [← extra_columns left h, pick, List.map_filterMap]
  refine List.filterMap_congr fun i _ => ?_
  simp

/-- A table without rows leaves nothing to combine, so the rows of a join are those that the index
    finds in this case too. -/
theorem join_bindings (left right : List Synonym) (leftRows rightRows : RowSet) :
    join (.bindings left leftRows) (.bindings right rightRows) =
      .bindings (joinColumns left right)
        (.ofList (joinRows left right leftRows.toList rightRows.toList)) := by
  rw [join]
  split
  · rename_i h_none
    rw [Bool.or_eq_true, ← Std.ExtTreeSet.isEmpty_toList, ← Std.ExtTreeSet.isEmpty_toList,
      List.isEmpty_iff, List.isEmpty_iff] at h_none
    rcases h_none with h_left | h_right
    · simp [joinRows, empty, h_left]
    · simp [joinRows, index, empty, h_right]
  · rfl

/-- The rows of a join, in terms of valuations. -/
theorem mem_joinRows {left right : List Synonym} {leftRows rightRows : RowSet}
    (h_left : WellFormed (.bindings left leftRows))
    (h_right : WellFormed (.bindings right rightRows)) {row : Row} :
    row ∈ joinRows left right leftRows.toList rightRows.toList ↔
      ∃ ν, left.map ν ∈ leftRows ∧ right.map ν ∈ rightRows ∧
        row = (joinColumns left right).map ν := by
  rw [wellFormed_bindings] at h_left h_right
  simp only [joinRows, List.mem_flatMap, List.mem_map, mem_index, Std.ExtTreeSet.mem_toList,
    joinColumns_eq left h_right.1, shared_snd]
  constructor
  · rintro ⟨first, h_first, second, ⟨h_second, h_agree⟩, rfl⟩
    obtain ⟨ν, rfl⟩ := exists_valuation h_left.1 (h_left.2 first h_first)
    obtain ⟨μ, rfl⟩ := exists_valuation h_right.1 (h_right.2 second h_second)
    rw [pick_positions, pick_shared_fst] at h_agree
    -- The two rows agree on the shared columns, so one valuation gives both.
    have h_eq : ∀ s ∈ right, s ∈ left → μ s = ν s := by
      intro s hs h_in
      exact List.map_inj_left.1 h_agree s (List.mem_filter.2 ⟨h_in, by simpa using hs⟩)
    have h_both : ∀ s ∈ right, (if s ∈ left then ν s else μ s) = μ s := by
      intro s hs
      split
      · rename_i h_in
        exact (h_eq s hs h_in).symm
      · rfl
    have h_own : left.map (fun s => if s ∈ left then ν s else μ s) = left.map ν :=
      List.map_congr_left fun s hs => if_pos hs
    refine ⟨fun s => if s ∈ left then ν s else μ s, ?_, ?_, ?_⟩
    · rwa [h_own]
    · rwa [List.map_congr_left h_both]
    · rw [pick_extra left h_right.1, List.map_append, h_own]
      congr 1
      exact (List.map_congr_left fun s hs => h_both s (List.mem_of_mem_filter hs)).symm
  · rintro ⟨ν, h_left_row, h_right_row, rfl⟩
    refine ⟨_, h_left_row, _, ⟨h_right_row, ?_⟩, ?_⟩
    · rw [pick_positions, pick_shared_fst]
    · rw [pick_extra left h_right.1, List.map_append]

/-- The columns of a join are those of its two tables. -/
theorem mem_columns_join {t u : Table} (h : u.WellFormed) {s : Synonym} :
    s ∈ (t.join u).columns ↔ s ∈ t.columns ∨ s ∈ u.columns := by
  cases t with
  | unit => simp [join]
  | bindings left leftRows =>
    cases u with
    | unit => simp [join]
    | bindings right rightRows =>
      simp only [join_bindings, columns, joinColumns_eq left (wellFormed_bindings.1 h).1,
        List.mem_append, List.mem_filter, decide_eq_true_eq]
      tauto

theorem WellFormed.join {t u : Table} (h_t : t.WellFormed) (h_u : u.WellFormed) :
    (t.join u).WellFormed := by
  cases t with
  | unit => exact h_u
  | bindings left leftRows =>
    cases u with
    | unit => exact h_t
    | bindings right rightRows =>
      rw [join_bindings]
      refine wellFormed_bindings.2 ⟨?_, fun row h_row => ?_⟩
      · rw [joinColumns_eq left (wellFormed_bindings.1 h_u).1, List.nodup_append']
        refine ⟨h_t.nodup, List.Nodup.filter _ h_u.nodup, fun s hs h_in => ?_⟩
        simpa [hs] using List.of_mem_filter h_in
      · rw [Std.ExtTreeSet.mem_ofList, List.contains_iff_mem, mem_joinRows h_t h_u] at h_row
        obtain ⟨ν, -, -, rfl⟩ := h_row
        rw [List.length_map]

/-- Joining is conjunction. -/
theorem holds_join {t u : Table} (h_t : t.WellFormed) (h_u : u.WellFormed) {ν : Valuation} :
    (t.join u).Holds ν ↔ t.Holds ν ∧ u.Holds ν := by
  cases t with
  | unit => simp [join]
  | bindings left leftRows =>
    cases u with
    | unit => simp [join]
    | bindings right rightRows =>
      simp only [join_bindings, holds_bindings, Std.ExtTreeSet.mem_ofList, List.contains_iff_mem,
        mem_joinRows h_t h_u]
      constructor
      · rintro ⟨μ, h_left, h_right, h_eq⟩
        have h_agree : ∀ s ∈ joinColumns left right, ν s = μ s := List.map_inj_left.1 h_eq
        have h_in : ∀ s, s ∈ joinColumns left right ↔ s ∈ left ∨ s ∈ right := by
          intro s
          simpa [join_bindings] using mem_columns_join (t := .bindings left leftRows) h_u
        constructor
        · rwa [List.map_congr_left fun s hs => h_agree s ((h_in s).2 (.inl hs))]
        · rwa [List.map_congr_left fun s hs => h_agree s ((h_in s).2 (.inr hs))]
      · rintro ⟨h_left, h_right⟩
        exact ⟨ν, h_left, h_right, rfl⟩

/-! ## Many tables -/

/-- Joining tables to a table adds their columns and their conditions. -/
theorem foldl_join {tables : List Table} (h : ∀ t ∈ tables, t.WellFormed) {start : Table}
    (h_start : start.WellFormed) :
    (tables.foldl join start).WellFormed ∧
      (∀ s, s ∈ (tables.foldl join start).columns ↔
        s ∈ start.columns ∨ ∃ t ∈ tables, s ∈ t.columns) ∧
      ∀ ν, (tables.foldl join start).Holds ν ↔ start.Holds ν ∧ ∀ t ∈ tables, t.Holds ν := by
  induction tables generalizing start with
  | nil => simp [h_start]
  | cons t rest ih =>
    have h_t := h t (List.mem_cons_self ..)
    obtain ⟨h_wf, h_columns, h_holds⟩ :=
      ih (fun u hu => h u (List.mem_cons_of_mem _ hu)) (h_start.join h_t)
    refine ⟨h_wf, fun s => ?_, fun ν => ?_⟩
    · rw [List.foldl_cons, h_columns, mem_columns_join h_t, List.exists_mem_cons_iff, or_assoc]
    · rw [List.foldl_cons, h_holds, holds_join h_start h_t, List.forall_mem_cons, and_assoc]

theorem wellFormed_joinAll {tables : List Table} (h : ∀ t ∈ tables, t.WellFormed) :
    (joinAll tables).WellFormed :=
  (foldl_join h wellFormed_unit).1

theorem mem_columns_joinAll {tables : List Table} (h : ∀ t ∈ tables, t.WellFormed) {s : Synonym} :
    s ∈ (joinAll tables).columns ↔ ∃ t ∈ tables, s ∈ t.columns := by
  rw [joinAll, (foldl_join h wellFormed_unit).2.1]
  simp [columns]

theorem holds_joinAll {tables : List Table} (h : ∀ t ∈ tables, t.WellFormed) {ν : Valuation} :
    (joinAll tables).Holds ν ↔ ∀ t ∈ tables, t.Holds ν := by
  rw [joinAll, (foldl_join h wellFormed_unit).2.2]
  simp

/-! ## Differences and projections -/

theorem wellFormed_subtract {t u : Table} (h : t.WellFormed) : (t.subtract u).WellFormed := by
  cases t with
  | unit => exact wellFormed_truth _
  | bindings columns rows =>
    cases u with
    | unit => exact wellFormed_empty h.nodup
    | bindings other removed =>
      rw [subtract]
      split
      · exact h
      · rw [wellFormed_bindings] at h ⊢
        exact ⟨h.1, fun row h_row => h.2 row (Std.ExtTreeSet.mem_of_mem_filter h_row)⟩

@[simp] theorem columns_subtract (t u : Table) : (t.subtract u).columns = t.columns := by
  cases t with
  | unit => simp [subtract]
  | bindings columns rows =>
    cases u with
    | unit => rfl
    | bindings other removed =>
      rw [subtract]
      split <;> rfl

/-- Subtracting a table with no other columns is conjunction with its negation. -/
theorem holds_subtract {t u : Table} (h_u : u.WellFormed) (h : ∀ s ∈ u.columns, s ∈ t.columns)
    {ν : Valuation} : (t.subtract u).Holds ν ↔ t.Holds ν ∧ ¬ u.Holds ν := by
  cases t with
  | unit =>
    have h_none : u.columns = [] :=
      List.eq_nil_iff_forall_not_mem.2 fun s hs => by simpa using h s hs
    -- Without columns a table holds of all valuations or of none.
    have h_any : u.Holds ν ↔ ∃ μ, u.Holds μ :=
      ⟨fun h => ⟨ν, h⟩, fun ⟨_, h⟩ => h.congr (by simp [h_none])⟩
    rw [h_any, ← h_u.isEmpty_eq_false]
    simp [subtract]
  | bindings columns rows =>
    cases u with
    | unit => simp [subtract]
    | bindings other removed =>
      simp only [columns_bindings] at h
      rw [subtract]
      split
      · rename_i h_empty
        rw [Std.ExtTreeSet.isEmpty_iff] at h_empty
        simp [h_empty]
      · rw [holds_bindings, ← Std.ExtTreeSet.mem_toList, Std.ExtTreeSet.toList_filter,
          List.mem_filter, Std.ExtTreeSet.mem_toList, pick_wanted h]
        simp only [Bool.not_eq_true', ← Bool.not_eq_true, Std.ExtTreeSet.contains_iff_mem,
          holds_bindings]

/-- A table without rows has the same rows on any columns: none. -/
theorem project_bindings {columns : List Synonym} (rows : RowSet) {wanted kept : List Synonym}
    (h_kept : wanted.filter (position? columns · |>.isSome) = kept) :
    project (.bindings columns rows) wanted =
      ofRows kept (rows.toList.map (pick (kept.filterMap (position? columns)))) := by
  rw [project, h_kept]
  split
  · rename_i h_none
    rw [← Std.ExtTreeSet.isEmpty_toList, List.isEmpty_iff] at h_none
    simp [h_none, ofRows, empty]
  · rfl

/-- The rows of a projection to columns of the table. -/
theorem mem_rowList_project {t : Table} (h : t.WellFormed) {wanted : List Synonym}
    (h_some : wanted ≠ []) (h_wanted : ∀ s ∈ wanted, s ∈ t.columns) {row : Row} :
    row ∈ (t.project wanted).rowList ↔ ∃ ν, t.Holds ν ∧ row = wanted.map ν := by
  cases t with
  | unit =>
    -- The unit table has no column that could be wanted.
    obtain ⟨s, hs⟩ := List.exists_mem_of_ne_nil wanted h_some
    exact absurd (h_wanted s hs) (by simp)
  | bindings columns rows =>
    have h_kept : wanted.filter (fun s => (position? columns s).isSome) = wanted :=
      List.filter_eq_self.2 fun s hs => isSome_position?.2 (h_wanted s hs)
    rw [wellFormed_bindings] at h
    simp only [project_bindings rows h_kept, ofRows, List.isEmpty_eq_false_iff.2 h_some,
      Bool.false_and, Bool.false_eq_true, if_false, rowList, Std.ExtTreeSet.mem_toList,
      Std.ExtTreeSet.mem_ofList, List.contains_iff_mem, List.mem_map, holds_bindings]
    constructor
    · rintro ⟨full, h_full, rfl⟩
      obtain ⟨ν, rfl⟩ := exists_valuation h.1 (h.2 full h_full)
      exact ⟨ν, h_full, pick_wanted h_wanted ν⟩
    · rintro ⟨ν, h_ν, rfl⟩
      exact ⟨_, h_ν, pick_wanted h_wanted ν⟩

end Table

end ProgramQuery
