/-
  ProgramQuery.Proofs.Answer.Checked

  Evaluation with every access checked.

  Tables are combined by reading rows at the places of their columns, and a
  place that a row does not have is passed over there.  Here the same evaluation
  is written so that such a place is a fault, like an argument that a clause cannot
  take (`EvaluationFault`).  Over well-formed tables every operation of this
  kind succeeds with the result of the plain one, and all tables that arise from
  a query that was read are well-formed.  So its evaluation never fails, over
  whatever fact base and under every strategy.
-/

import ProgramQuery.Proofs.Answer.Evaluate

namespace ProgramQuery

open Std (ExtTreeMap ExtTreeSet)

/-- Why an evaluation has no result: a clause cannot take an argument, or a row is read at a
    place that it does not have. -/
inductive EvaluationFault where
  | clause (fault : ClauseFault)
  | outOfRange (place length : Nat)
  deriving DecidableEq, Repr

/-! ## Checked operations -/

namespace Table

/-- The value at a place of a row, which has to be there. -/
def valueAt (row : Row) (place : Nat) : Except EvaluationFault Value :=
  match row[place]? with
  | some v => .ok v
  | none => .error (.outOfRange place row.length)

/-- The values of a row at some places, which have to be there. -/
def pickChecked (positions : List Nat) (row : Row) : Except EvaluationFault Row :=
  positions.mapM (valueAt row)

/-- Rows by their values at some places. -/
def indexChecked (positions : List Nat) (rows : List Row) :
    Except EvaluationFault (ExtTreeMap Row (List Row)) :=
  rows.foldrM (fun row found => do
    let key ← pickChecked positions row
    .ok (found.insert key (row :: found.getD key []))) ∅

/-- A row of the first table, extended by the rows of the second that were found for it. -/
def extendChecked (left right : List Synonym) (found : ExtTreeMap Row (List Row)) (row : Row) :
    Except EvaluationFault (List Row) := do
  let key ← pickChecked ((shared left right).map Prod.fst) row
  (found.getD key []).mapM fun other => do
    let more ← pickChecked (extra left right) other
    .ok (row ++ more)

/-- The rows of a join. -/
def joinRowsChecked (left right : List Synonym) (leftRows rightRows : List Row) :
    Except EvaluationFault (List Row) := do
  let found ← indexChecked ((shared left right).map Prod.snd) rightRows
  let joined ← leftRows.mapM (extendChecked left right found)
  .ok joined.flatten

/-- All combinations of rows that agree on the shared columns. -/
def joinChecked : Table → Table → Except EvaluationFault Table
  | .unit, t => .ok t
  | t, .unit => .ok t
  | .bindings left leftRows, .bindings right rightRows =>
    let columns := joinColumns left right
    if leftRows.isEmpty || rightRows.isEmpty then
      .ok (empty columns)
    else do
      let rows ← joinRowsChecked left right leftRows.toList rightRows.toList
      .ok (.bindings columns (.ofList rows))

/-- The join of some tables to a table. -/
def joinOntoChecked (start : Table) (tables : List Table) : Except EvaluationFault Table :=
  tables.foldlM joinChecked start

/-- The rows whose values on the columns of the other table are not a row of it. -/
def subtractChecked : Table → Table → Except EvaluationFault Table
  | .unit, other => .ok (truth other.isEmpty)
  | .bindings columns _, .unit => .ok (empty columns)
  | .bindings columns rows, .bindings otherColumns removed =>
    if removed.isEmpty then
      .ok (.bindings columns rows)
    else do
      let keyed ← rows.toList.mapM fun row => do
        let key ← pickChecked (otherColumns.filterMap (position? columns)) row
        .ok (row, key)
      let kept := keyed.filter fun (_, key) => !removed.contains key
      .ok (.bindings columns (.ofList (kept.map Prod.fst)))

/-- The rows on some columns, in this order. -/
def projectChecked (t : Table) (wanted : List Synonym) : Except EvaluationFault Table :=
  match t with
  | .unit => .ok .unit
  | .bindings columns rows =>
    let kept := wanted.filter (position? columns · |>.isSome)
    if rows.isEmpty then
      .ok (empty kept)
    else do
      let picked ← rows.toList.mapM (pickChecked (kept.filterMap (position? columns)))
      .ok (ofRows kept picked)

end Table

namespace FactBase

/-- The table of a clause. -/
def clauseTableChecked (b : FactBase) (c : Clause) : Except EvaluationFault Table := do
  let table ← (b.conditionTable c.condition).mapError .clause
  if c.negated then do
    let all ← Table.joinOntoChecked .unit (c.synonyms.map b.domainTable)
    all.subtractChecked table
  else
    .ok table

/-- Joins the tables of some clauses to a table, as long as this has rows. -/
def joinClausesChecked (b : FactBase) (table : Table) :
    List Clause → Except EvaluationFault Table
  | [] => .ok table
  | c :: rest => do
    let more ← b.clauseTableChecked c
    let joined ← table.joinChecked more
    if joined.isEmpty then .ok joined else b.joinClausesChecked joined rest

/-- The tables of some groups, up to the first empty one. -/
def tablesUntilEmptyChecked (b : FactBase) :
    List ClauseGroup → Except EvaluationFault (List Table)
  | [] => .ok []
  | g :: rest => do
    let table ← b.joinClausesChecked .unit g.clauses
    if table.isEmpty then
      .ok [table]
    else do
      let more ← b.tablesUntilEmptyChecked rest
      .ok (table :: more)

/-- The tables of the groups. -/
def groupTablesChecked (b : FactBase) (strategy : Strategy) (groups : List ClauseGroup) :
    Except EvaluationFault (List Table) :=
  if strategy.parallel && 1 < groups.length then
    groups.mapM fun g => b.joinClausesChecked .unit g.clauses
  else
    b.tablesUntilEmptyChecked groups

/-- An element of an answer, if there is one. -/
def elementTextChecked (b : FactBase) (columns : List Synonym) (row : Row) (e : Element) :
    Except EvaluationFault (Option String) :=
  match Table.position? columns e.base with
  | none => .ok none
  | some i => do
    let v ← Table.valueAt row i
    match e with
    | .synonym _ => .ok (some v.text)
    | .attr a => .ok (b.attrValue a v)

/-- The answer of a row, if it has one. -/
def rowTextChecked (b : FactBase) (columns : List Synonym) (elements : List Element) (row : Row) :
    Except EvaluationFault (Option String) := do
  let texts ← elements.mapM (b.elementTextChecked columns row)
  .ok ((texts.mapM id).map (String.intercalate " "))

/-- The distinct answers of the rows of a table, in order. -/
def tupleAnswersChecked (b : FactBase) (q : Query) (table : Table) :
    Except EvaluationFault (List String) := do
  let unbound := q.selected.filter (!table.columns.contains ·)
  let completed ← Table.joinOntoChecked table (unbound.map b.domainTable)
  let projected ← completed.projectChecked q.selected
  let texts ← projected.rowList.mapM (b.rowTextChecked q.selected q.selection.elements)
  .ok (Answer.sort (ExtTreeSet.ofList (texts.filterMap id)).toList)

/-- The answers of a query, given its groups and their tables. -/
def answersChecked (b : FactBase) (q : Query) (groups : List ClauseGroup) (tables : List Table) :
    Except EvaluationFault (List String) :=
  let holds := tables.all (!·.isEmpty)
  match q.selection with
  | .boolean => .ok [if holds then "TRUE" else "FALSE"]
  | .tuple _ =>
    if holds then do
      let needed := (groups.zip tables).filter (·.1.selected)
      let table ← Table.joinOntoChecked .unit (needed.map Prod.snd)
      b.tupleAnswersChecked q table
    else
      .ok []

/-- Evaluates a query. -/
def evaluateChecked (b : FactBase) (strategy : Strategy) (q : Query) :
    Except EvaluationFault Evaluation :=
  if strategy.optimise && q.contradicts then
    .ok (refuted q)
  else do
    let groups := if strategy.optimise then q.plan strategy.finder else q.unplanned
    let tables ← b.groupTablesChecked strategy groups
    let answers ← b.answersChecked q groups tables
    .ok {
      answers
      groups := groups.length
      clauses := (groups.map (·.clauses.length)).foldl (· + ·) 0
      maxRows := (tables.map Table.size).foldl max 0 }

end FactBase

/-! ## Rows -/

/-- Steps that all succeed succeed together. -/
theorem mapM_eq_ok_map {ε α β : Type} {f : α → Except ε β} {g : α → β} {l : List α}
    (h : ∀ x ∈ l, f x = .ok (g x)) : l.mapM f = .ok (l.map g) := by
  induction l with
  | nil => rfl
  | cons x rest ih =>
    rw [List.forall_mem_cons] at h
    rw [List.mapM_cons, h.1, ih h.2]
    rfl

namespace Table

theorem valueAt_eq_ok {row : Row} {i : Nat} {v : Value} (h : row[i]? = some v) :
    valueAt row i = .ok v := by
  rw [valueAt, h]

/-- Picking succeeds at places that the row has. -/
theorem pickChecked_eq {positions : List Nat} {row : Row} (h : ∀ i ∈ positions, i < row.length) :
    pickChecked positions row = .ok (pick positions row) := by
  unfold pickChecked pick
  induction positions with
  | nil => rfl
  | cons i rest ih =>
    rw [List.forall_mem_cons] at h
    have h_get : row[i]? = some row[i] := List.getElem?_eq_getElem h.1
    rw [List.mapM_cons, valueAt_eq_ok h_get, ih h.2, List.filterMap_cons, h_get]
    rfl

/-! ## Places of columns -/

theorem lt_of_position? {columns : List Synonym} {s : Synonym} {i : Nat}
    (h : position? columns s = some i) : i < columns.length := by
  obtain ⟨h_lt, -⟩ := List.findIdx?_eq_some_iff_getElem.1 h
  exact h_lt

theorem lt_of_mem_positions {columns wanted : List Synonym} {i : Nat}
    (h : i ∈ wanted.filterMap (position? columns)) : i < columns.length := by
  obtain ⟨s, -, h_s⟩ := List.mem_filterMap.1 h
  exact lt_of_position? h_s

theorem lt_of_mem_shared_fst {left right : List Synonym} {i : Nat}
    (h : i ∈ (shared left right).map Prod.fst) : i < left.length := by
  obtain ⟨⟨_, j⟩, h_pair, rfl⟩ := List.mem_map.1 h
  obtain ⟨⟨c, k⟩, h_c, h_eq⟩ := List.mem_filterMap.1 h_pair
  obtain ⟨j', -, h_eq⟩ := Option.map_eq_some_iff.1 h_eq
  cases h_eq
  exact (List.mem_zipIdx' h_c).1

theorem lt_of_mem_shared_snd {left right : List Synonym} {i : Nat}
    (h : i ∈ (shared left right).map Prod.snd) : i < right.length := by
  rw [shared_snd] at h
  exact lt_of_mem_positions h

theorem lt_of_mem_extra {left right : List Synonym} {i : Nat} (h : i ∈ extra left right) :
    i < right.length :=
  List.mem_range.1 (List.mem_of_mem_filter h)

/-! ## Joins -/

theorem indexChecked_eq {positions : List Nat} {rows : List Row}
    (h : ∀ row ∈ rows, ∀ i ∈ positions, i < row.length) :
    indexChecked positions rows = .ok (index positions rows) := by
  unfold indexChecked index
  induction rows with
  | nil => rfl
  | cons row rest ih =>
    rw [List.forall_mem_cons] at h
    rw [List.foldrM_cons, ih h.2]
    show (pickChecked positions row >>= _) = _
    rw [pickChecked_eq h.1]
    rfl

theorem extendChecked_eq {left right : List Synonym} {found : ExtTreeMap Row (List Row)} {row : Row}
    (h_row : row.length = left.length)
    (h_found : ∀ key, ∀ other ∈ found.getD key [], other.length = right.length) :
    extendChecked left right found row =
      .ok ((found.getD (pick ((shared left right).map Prod.fst) row) []).map
        fun other => row ++ pick (extra left right) other) := by
  have h_key : pickChecked ((shared left right).map Prod.fst) row =
      .ok (pick ((shared left right).map Prod.fst) row) := by
    apply pickChecked_eq
    intro i h_i
    rw [h_row]
    exact lt_of_mem_shared_fst h_i
  rw [extendChecked, h_key]
  apply mapM_eq_ok_map
  intro other h_other
  have h_more : pickChecked (extra left right) other = .ok (pick (extra left right) other) := by
    apply pickChecked_eq
    intro i h_i
    rw [h_found _ other h_other]
    exact lt_of_mem_extra h_i
  rw [h_more]
  rfl

theorem joinRowsChecked_eq {left right : List Synonym} {leftRows rightRows : List Row}
    (h_left : ∀ row ∈ leftRows, row.length = left.length)
    (h_right : ∀ row ∈ rightRows, row.length = right.length) :
    joinRowsChecked left right leftRows rightRows =
      .ok (joinRows left right leftRows rightRows) := by
  have h_index : indexChecked ((shared left right).map Prod.snd) rightRows =
      .ok (index ((shared left right).map Prod.snd) rightRows) := by
    apply indexChecked_eq
    intro row h_row i h_i
    rw [h_right row h_row]
    exact lt_of_mem_shared_snd h_i
  -- The index finds rows of the second table only.
  have h_found : ∀ key, ∀ other ∈ (index ((shared left right).map Prod.snd) rightRows).getD key [],
      other.length = right.length :=
    fun key other h_other => h_right other (mem_index.1 h_other).1
  rw [joinRowsChecked, h_index]
  show (leftRows.mapM (extendChecked left right _) >>= _) = _
  rw [mapM_eq_ok_map fun row h_row => extendChecked_eq (h_left row h_row) h_found, joinRows,
    List.flatMap_def]
  rfl

/-- Joining well-formed tables reads rows only at places that they have. -/
theorem joinChecked_eq {t u : Table} (h_t : t.WellFormed) (h_u : u.WellFormed) :
    t.joinChecked u = .ok (t.join u) := by
  cases t with
  | unit => rfl
  | bindings left leftRows =>
    cases u with
    | unit => rfl
    | bindings right rightRows =>
      have h_rows : joinRowsChecked left right leftRows.toList rightRows.toList =
          .ok (joinRows left right leftRows.toList rightRows.toList) :=
        joinRowsChecked_eq h_t.length h_u.length
      rw [joinChecked, join, h_rows]
      split <;> rfl

theorem joinOntoChecked_eq {tables : List Table} (h : ∀ t ∈ tables, t.WellFormed) {start : Table}
    (h_start : start.WellFormed) :
    joinOntoChecked start tables = .ok (tables.foldl join start) := by
  unfold joinOntoChecked
  induction tables generalizing start with
  | nil => rfl
  | cons t rest ih =>
    rw [List.forall_mem_cons] at h
    rw [List.foldlM_cons, joinChecked_eq h_start h.1]
    exact ih h.2 (h_start.join h.1)

/-! ## Differences and projections -/

theorem subtractChecked_eq {t : Table} (h : t.WellFormed) (u : Table) :
    t.subtractChecked u = .ok (t.subtract u) := by
  cases t with
  | unit => rfl
  | bindings columns rows =>
    cases u with
    | unit => rfl
    | bindings other removed =>
      rw [subtractChecked, subtract]
      split
      · rfl
      · have h_keyed : ∀ row ∈ rows.toList, (do
            let key ← pickChecked (other.filterMap (position? columns)) row
            Except.ok (row, key)) = .ok (row, pick (other.filterMap (position? columns)) row) := by
          intro row h_row
          rw [pickChecked_eq]
          · rfl
          · intro i h_i
            rw [h.length row h_row]
            exact lt_of_mem_positions h_i
        rw [mapM_eq_ok_map h_keyed]
        show Except.ok (Table.bindings columns _) = _
        congr 2
        apply ExtTreeSet.ext_mem
        intro row
        rw [ExtTreeSet.mem_ofList, List.contains_iff_mem,
          ← ExtTreeSet.mem_toList (t := rows.filter _), ExtTreeSet.toList_filter]
        simp

theorem projectChecked_eq {t : Table} (h : t.WellFormed) (wanted : List Synonym) :
    t.projectChecked wanted = .ok (t.project wanted) := by
  cases t with
  | unit => rfl
  | bindings columns rows =>
    rw [projectChecked, project, mapM_eq_ok_map]
    · split <;> rfl
    · intro row h_row
      apply pickChecked_eq
      intro i h_i
      rw [h.length row h_row]
      exact lt_of_mem_positions h_i

end Table

namespace FactBase

variable {b : FactBase}

/-! ## Clauses and groups -/

/-- The table of a typed clause is found without a fault, and is well-formed. -/
theorem exists_clauseTableChecked (b : FactBase) {c : Clause} (h : c.condition.Typed) :
    ∃ t, b.clauseTableChecked c = .ok t ∧ b.clauseTable c = .ok t ∧ t.WellFormed := by
  obtain ⟨positive, t, h_positive, h_t, -, h_binds, -⟩ := b.exists_clauseTable h
  refine ⟨t, ?_, h_t, h_binds.wellFormed⟩
  have h_wf := b.wellFormed_domainTables c.synonyms
  have h_all : Table.joinOntoChecked .unit (c.synonyms.map b.domainTable) =
      .ok (b.allBindings c.synonyms) :=
    Table.joinOntoChecked_eq h_wf Table.wellFormed_unit
  rw [clauseTable, h_positive] at h_t
  rw [clauseTableChecked, h_positive]
  simp only [Except.mapError, bind, Except.bind] at h_t ⊢
  by_cases h_negated : c.negated = true
  · rw [if_pos h_negated] at h_t ⊢
    rw [h_all]
    show (b.allBindings c.synonyms).subtractChecked positive = _
    rw [Table.subtractChecked_eq (b.binds_allBindings c.synonyms).wellFormed, Except.ok.inj h_t]
  · rw [if_neg h_negated] at h_t ⊢
    cases h_t
    rfl

theorem exists_joinClausesChecked {cs : List Clause} (h : ∀ c ∈ cs, c.condition.Typed)
    {table : Table} (h_table : table.WellFormed) :
    ∃ t, b.joinClausesChecked table cs = .ok t ∧ b.joinClauses table cs = .ok t ∧
      t.WellFormed := by
  induction cs generalizing table with
  | nil => exact ⟨table, rfl, rfl, h_table⟩
  | cons c rest ih =>
    rw [List.forall_mem_cons] at h
    obtain ⟨more, h_checked, h_more, h_wf⟩ := b.exists_clauseTableChecked h.1
    have h_joined := h_table.join h_wf
    simp only [joinClausesChecked, joinClauses, h_checked, h_more, bind, Except.bind,
      Table.joinChecked_eq h_table h_wf]
    by_cases h_empty : (table.join more).isEmpty = true
    · rw [if_pos h_empty, if_pos h_empty]
      exact ⟨_, rfl, rfl, h_joined⟩
    · rw [if_neg h_empty, if_neg h_empty]
      exact ih h.2 h_joined

/-- The tables of some groups, found with and without checks, all of them well-formed. -/
def TablesAgree (checked : Except EvaluationFault (List Table))
    (plain : Except ClauseFault (List Table)) : Prop :=
  ∃ tables, checked = .ok tables ∧ plain = .ok tables ∧ ∀ t ∈ tables, t.WellFormed

theorem tablesUntilEmptyChecked_agrees {groups : List ClauseGroup}
    (h : ∀ g ∈ groups, ∀ c ∈ g.clauses, c.condition.Typed) :
    TablesAgree (b.tablesUntilEmptyChecked groups) (b.tablesUntilEmpty groups) := by
  induction groups with
  | nil => exact ⟨[], rfl, rfl, by simp⟩
  | cons g rest ih =>
    rw [List.forall_mem_cons] at h
    obtain ⟨table, h_checked, h_table, h_wf⟩ :=
      exists_joinClausesChecked (b := b) h.1 Table.wellFormed_unit
    obtain ⟨more, h_more_checked, h_more, h_more_wf⟩ := ih h.2
    simp only [tablesUntilEmptyChecked, tablesUntilEmpty, groupTable, h_checked, h_table, bind,
      Except.bind]
    by_cases h_empty : table.isEmpty = true
    · rw [if_pos h_empty, if_pos h_empty]
      exact ⟨[table], rfl, rfl, by simpa using h_wf⟩
    · rw [if_neg h_empty, if_neg h_empty, h_more_checked, h_more]
      exact ⟨table :: more, rfl, rfl, List.forall_mem_cons.2 ⟨h_wf, h_more_wf⟩⟩

theorem mapM_joinClausesChecked_agrees {groups : List ClauseGroup}
    (h : ∀ g ∈ groups, ∀ c ∈ g.clauses, c.condition.Typed) :
    TablesAgree (groups.mapM fun g => b.joinClausesChecked .unit g.clauses)
      (groups.mapM b.groupTable) := by
  induction groups with
  | nil => exact ⟨[], rfl, rfl, by simp⟩
  | cons g rest ih =>
    rw [List.forall_mem_cons] at h
    obtain ⟨table, h_checked, h_table, h_wf⟩ :=
      exists_joinClausesChecked (b := b) h.1 Table.wellFormed_unit
    obtain ⟨more, h_more_checked, h_more, h_more_wf⟩ := ih h.2
    refine ⟨table :: more, ?_, ?_, List.forall_mem_cons.2 ⟨h_wf, h_more_wf⟩⟩
    · rw [List.mapM_cons, h_checked, h_more_checked]
      rfl
    · rw [List.mapM_cons, groupTable, h_table, h_more]
      rfl

theorem groupTablesChecked_agrees (strategy : Strategy) {groups : List ClauseGroup}
    (h : ∀ g ∈ groups, ∀ c ∈ g.clauses, c.condition.Typed) :
    TablesAgree (b.groupTablesChecked strategy groups) (b.groupTables strategy groups) := by
  unfold groupTablesChecked groupTables
  split
  · exact mapM_joinClausesChecked_agrees h
  · exact tablesUntilEmptyChecked_agrees h

/-! ## Results -/

theorem elementTextChecked_eq {columns : List Synonym} {row : Row}
    (h : row.length = columns.length) (e : Element) :
    b.elementTextChecked columns row e = .ok (b.elementText columns row e) := by
  unfold elementTextChecked elementText
  cases h_i : Table.position? columns e.base with
  | none => rfl
  | some i =>
    have h_lt : i < row.length := by
      rw [h]
      exact Table.lt_of_position? h_i
    have h_get : row[i]? = some row[i] := List.getElem?_eq_getElem h_lt
    simp only [Table.valueAt_eq_ok h_get, h_get, bind, Except.bind, Option.bind]
    cases e <;> rfl

theorem rowTextChecked_eq {columns : List Synonym} {row : Row} (h : row.length = columns.length)
    (elements : List Element) :
    b.rowTextChecked columns elements row = .ok (b.rowText columns elements row) := by
  have h_mapM : ((elements.map (b.elementText columns row)).mapM id : Option (List String)) =
      elements.mapM (b.elementText columns row) := by
    rw [List.mapM_map]
    rfl
  rw [rowTextChecked, mapM_eq_ok_map fun e _ => elementTextChecked_eq h e, rowText, ← h_mapM]
  rfl

/-- The rows that are rendered have a value for each selected synonym. -/
theorem tupleAnswersChecked_eq {q : Query} (h_some : q.selected ≠ []) {t : Table}
    (h : t.WellFormed) : b.tupleAnswersChecked q t = .ok (b.tupleAnswers q t) := by
  have h_domains := b.wellFormed_domainTables (q.selected.filter (!t.columns.contains ·))
  obtain ⟨h_wf, h_columns, -⟩ := Table.foldl_join h_domains h
  -- A selected synonym is a column of the table, or its domain has been joined to it.
  have h_bound : ∀ s ∈ q.selected, s ∈ (((q.selected.filter (!t.columns.contains ·)).map
      b.domainTable).foldl Table.join t).columns := by
    intro s hs
    rw [h_columns]
    by_cases h_in : s ∈ t.columns
    · exact .inl h_in
    · have h_free : s ∈ q.selected.filter (!t.columns.contains ·) :=
        List.mem_filter.2 ⟨hs, by simpa using h_in⟩
      exact .inr ⟨b.domainTable s, List.mem_map_of_mem h_free, by simp [domainTable]⟩
  have h_length : ∀ row ∈ ((((q.selected.filter (!t.columns.contains ·)).map
      b.domainTable).foldl Table.join t).project q.selected).rowList,
        row.length = q.selected.length := by
    intro row h_row
    obtain ⟨ν, -, rfl⟩ := (Table.mem_rowList_project h_wf h_some h_bound).1 h_row
    rw [List.length_map]
  simp only [tupleAnswersChecked, Table.joinOntoChecked_eq h_domains h,
    Table.projectChecked_eq h_wf, bind, Except.bind]
  rw [mapM_eq_ok_map fun row h_row => rowTextChecked_eq (h_length row h_row) _]
  simp only [tupleAnswers, List.filterMap_map, Function.id_comp]

theorem answersChecked_eq {q : Query} (h : q.Typed) (groups : List ClauseGroup)
    {tables : List Table} (h_wf : ∀ t ∈ tables, t.WellFormed) :
    b.answersChecked q groups tables = .ok (b.answers q groups tables) := by
  unfold answersChecked answers
  cases h_selection : q.selection with
  | boolean => rfl
  | tuple elements =>
    have h_some := selected_ne_nil h_selection (h.elements elements h_selection)
    have h_needed : ∀ t ∈ ((groups.zip tables).filter (·.1.selected)).map Prod.snd,
        t.WellFormed := by
      intro t ht
      obtain ⟨g, h_zip, -⟩ := mem_needed.1 ht
      exact h_wf t (List.of_mem_zip h_zip).2
    simp only []
    by_cases h_holds : tables.all (!·.isEmpty) = true
    · rw [if_pos h_holds, if_pos h_holds, Table.joinOntoChecked_eq h_needed Table.wellFormed_unit]
      exact tupleAnswersChecked_eq h_some (Table.wellFormed_joinAll h_needed)
    · rw [if_neg h_holds, if_neg h_holds]

/-! ## Queries -/

/-- A typed query is evaluated without a fault, and with the plain result. -/
theorem exists_evaluateChecked (b : FactBase) (strategy : Strategy) {q : Query} (h : q.Typed) :
    ∃ e, b.evaluateChecked strategy q = .ok e ∧ b.evaluate strategy q = .ok e := by
  unfold evaluateChecked evaluate
  split
  · exact ⟨_, rfl, rfl⟩
  · have h_grouping : q.Grouping (if strategy.optimise then q.plan strategy.finder else
        q.unplanned) := by
      split
      · exact q.grouping_plan strategy.finder
      · exact q.grouping_unplanned
    obtain ⟨tables, h_checked, h_tables, h_wf⟩ :=
      groupTablesChecked_agrees (b := b) strategy (h_grouping.forall_clauses.1 h.conditions)
    simp only [h_checked, h_tables, bind, Except.bind, answersChecked_eq h _ h_wf]
    exact ⟨_, rfl, rfl⟩

/-- A query that was read never fails: over every fact base each of its clauses has a table, and
    under every strategy the query has a result.  No clause meets an argument that it cannot
    take, and no row is read at a place that it does not have. -/
theorem evaluate_never_fails (b : FactBase) (strategy : Strategy) {text : String} {q : Query}
    (h : Query.read text = .ok q) :
    (∀ c ∈ q.clauses, ∃ t, b.clauseTableChecked c = .ok t ∧ b.clauseTable c = .ok t) ∧
      ∃ e, b.evaluateChecked strategy q = .ok e ∧ b.evaluate strategy q = .ok e := by
  have h_typed := Query.typed_of_read h
  refine ⟨fun c hc => ?_, b.exists_evaluateChecked strategy h_typed⟩
  obtain ⟨t, h_checked, h_plain, -⟩ := b.exists_clauseTableChecked (h_typed.conditions c hc)
  exact ⟨t, h_checked, h_plain⟩

/-- Both forms of Modifies, a pattern and a negated comparison, over a base that knows of one
    statement only. -/
theorem evaluates_without_facts :
    ∃ q, Query.read ("assign a; procedure p; variable v; Select <v, a.stmt#> such that " ++
        "Modifies(a, v) and not Modifies(p, \"x\") pattern a(v, _\"x + 1\"_) " ++
        "with not p.procName = v.varName") = .ok q ∧ q.clauses.length = 4 ∧
      (∀ c ∈ q.clauses, ∃ t, (({} : FactBase).addAll [.statement 1 .assign]).clauseTableChecked c =
        .ok t ∧ (({} : FactBase).addAll [.statement 1 .assign]).clauseTable c = .ok t) ∧
      ∃ e, (({} : FactBase).addAll [.statement 1 .assign]).evaluateChecked {} q = .ok e ∧
        (({} : FactBase).addAll [.statement 1 .assign]).evaluate {} q = .ok e :=
  exists_ok_of_test (fun q => q.clauses.length = 4) (by decide +kernel) fun _ h_read h_test =>
    ⟨of_decide_eq_true h_test, evaluate_never_fails _ _ h_read⟩

end FactBase

end ProgramQuery
