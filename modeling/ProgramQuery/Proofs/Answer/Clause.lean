/-
  ProgramQuery.Proofs.Answer.Clause

  The tables of typed clauses.

  A typed clause has a table over every fact base, and the columns of this table are
  the synonyms of the clause (`Table.Binds`).  A negated clause has the bindings
  from the domains that its condition does not have, so a clause and its
  negation are never satisfied together.
-/

import ProgramQuery.Answer.Clause
import ProgramQuery.Proofs.Answer.Algebra
import ProgramQuery.Proofs.Query.Typed

namespace ProgramQuery

open Facts

/-- A table in normal form with some synonyms as its columns. -/
structure Table.Binds (t : Table) (synonyms : List Synonym) : Prop where
  normal : t.Normal
  mem_columns : ∀ s, s ∈ t.columns ↔ s ∈ synonyms

namespace Table

theorem Binds.wellFormed {t : Table} {synonyms : List Synonym} (h : t.Binds synonyms) :
    t.WellFormed :=
  h.normal.toWellFormed

theorem binds_truth (holds : Bool) : (truth holds).Binds [] :=
  ⟨normal_truth holds, by simp⟩

theorem binds_column (s : Synonym) (values : List Value) : (column s values).Binds [s] :=
  ⟨normal_column s values, by simp⟩

theorem binds_pair {s t : Synonym} (h : s ≠ t) {rows : List Row}
    (h_rows : ∀ row ∈ rows, row.length = 2) : (ofRows [s, t] rows).Binds [s, t] :=
  ⟨normal_ofRows (by simp [h]) h_rows, by simp⟩

/-- The same columns, listed in another way. -/
theorem Binds.congr {t : Table} {synonyms others : List Synonym} (h : t.Binds synonyms)
    (h_eq : ∀ s, s ∈ synonyms ↔ s ∈ others) : t.Binds others :=
  ⟨h.normal, fun s => (h.mem_columns s).trans (h_eq s)⟩

end Table

/-! ## Arguments -/

/-- The values that an argument can stand for under a valuation; a wildcard stands for all. -/
def Ref.Denotes (ν : Valuation) : Ref → Value → Prop
  | .synonym s, v => ν s = v
  | .ident name, v => v = .name name
  | .integer n, v => v = .number n
  | .wildcard, _ => True

namespace Argument

variable {α : Type} [Member α]

/-- The synonym of an argument. -/
def synonym? : Argument α → Option Synonym
  | .synonym s => some s
  | _ => none

/-- The values that an argument can stand for under a valuation. -/
def Denotes (ν : Valuation) : Argument α → Value → Prop
  | .synonym s, v => ν s = v
  | .literal a, v => v = Member.value a
  | .wildcard, _ => True

/-- An argument that fits its place is accepted there, with the same meaning. -/
structure Reads (r : Relationship) (ref : Ref) (a : Argument α) : Prop where
  accepted : ofRef r ref = .ok a
  synonym : a.synonym? = ref.synonym?
  denotes : ∀ ν v, a.Denotes ν v ↔ ref.Denotes ν v

theorem exists_reads_number (r : Relationship) {ref : Ref} (h : ref.Fits true) :
    ∃ a : Argument StatementNumber, Reads r ref a := by
  cases ref with
  | synonym s => exact ⟨.synonym s, rfl, rfl, fun _ _ => Iff.rfl⟩
  | ident name => cases h
  | integer n => exact ⟨.literal n, rfl, rfl, fun _ _ => Iff.rfl⟩
  | wildcard => exact ⟨.wildcard, rfl, rfl, fun _ _ => Iff.rfl⟩

theorem exists_reads_name (r : Relationship) {ref : Ref} (h : ref.Fits false) :
    ∃ a : Argument String, Reads r ref a := by
  cases ref with
  | synonym s => exact ⟨.synonym s, rfl, rfl, fun _ _ => Iff.rfl⟩
  | ident name => exact ⟨.literal name, rfl, rfl, fun _ _ => Iff.rfl⟩
  | integer n => cases h
  | wildcard => exact ⟨.wildcard, rfl, rfl, fun _ _ => Iff.rfl⟩

end Argument

namespace FactBase

variable (b : FactBase)

/-! ## Relationships -/

section

variable {α β : Type} [Member α] [Member β] [Ord α] [Std.TransOrd α] [Ord β] [Std.TransOrd β]

/-- The columns are the synonyms of the two arguments, in this order. -/
theorem columns_relationTable (reflexive : Bool) (store : PairStore α β) (lhs : Argument α)
    (rhs : Argument β) : (b.relationTable reflexive store lhs rhs).columns =
      (lhs.synonym?.toList ++ rhs.synonym?.toList).eraseDups := by
  cases lhs with
  | synonym s =>
    cases rhs with
    | synonym t =>
      by_cases h_eq : s = t
      · subst h_eq
        have h_one : [s, s].eraseDups = [s] := by simp [List.eraseDups_cons]
        cases reflexive <;> simp [relationTable, Argument.synonym?, h_one, Table.empty]
      · have h_ne : t ≠ s := Ne.symm h_eq
        simp [relationTable, Argument.synonym?, h_eq, h_ne, List.eraseDups_cons]
    | literal v => simp [relationTable, Argument.synonym?, List.eraseDups_cons]
    | wildcard => simp [relationTable, Argument.synonym?, List.eraseDups_cons]
  | literal k => cases rhs <;> simp [relationTable, Argument.synonym?, List.eraseDups_cons]
  | wildcard => cases rhs <;> simp [relationTable, Argument.synonym?, List.eraseDups_cons]

theorem normal_relationTable (reflexive : Bool) (store : PairStore α β) (lhs : Argument α)
    (rhs : Argument β) : (b.relationTable reflexive store lhs rhs).Normal := by
  cases lhs with
  | synonym s =>
    cases rhs with
    | synonym t =>
      simp only [relationTable]
      split
      · cases reflexive
        · exact Table.normal_empty (List.nodup_singleton s)
        · exact Table.normal_column ..
      · rename_i h_ne
        refine Table.normal_ofRows (by simp [h_ne]) fun row h_row => ?_
        obtain ⟨pair, -, rfl⟩ := List.mem_map.1 h_row
        rfl
    | literal v => exact Table.normal_column ..
    | wildcard => exact Table.normal_column ..
  | literal k =>
    cases rhs with
    | synonym t => exact Table.normal_column ..
    | literal v => exact Table.normal_truth _
    | wildcard => exact Table.normal_truth _
  | wildcard =>
    cases rhs with
    | synonym t => exact Table.normal_column ..
    | literal v => exact Table.normal_truth _
    | wildcard => exact Table.normal_truth _

theorem relate_eq {r : Relationship} (store : PairStore α β) {lhs rhs : Ref} {x : Argument α}
    {y : Argument β} (h_x : x.Reads r lhs) (h_y : y.Reads r rhs) :
    b.relate r store lhs rhs = .ok (b.relationTable r.mayBeReflexive store x y) := by
  rw [relate, h_x.accepted]
  change (Argument.ofRef r rhs >>= _) = _
  rw [h_y.accepted]
  rfl

theorem exists_normal_relate {r : Relationship} (store : PairStore α β) {lhs rhs : Ref}
    (h_lhs : ∃ x : Argument α, x.Reads r lhs) (h_rhs : ∃ y : Argument β, y.Reads r rhs) :
    ∃ t, b.relate r store lhs rhs = .ok t ∧ t.Normal ∧
      t.columns = (lhs.synonym?.toList ++ rhs.synonym?.toList).eraseDups := by
  obtain ⟨x, h_x⟩ := h_lhs
  obtain ⟨y, h_y⟩ := h_rhs
  refine ⟨_, b.relate_eq store h_x h_y, b.normal_relationTable .., ?_⟩
  rw [columns_relationTable, h_x.synonym, h_y.synonym]

end

/-- A relationship has a table for all arguments that fit their places. -/
theorem exists_normal_suchThatTable {r : Relationship} {lhs rhs : Ref}
    (h_lhs : lhs.Fits r.fromStatement) (h_rhs : rhs.Fits r.toStatement) :
    ∃ t, b.suchThatTable r lhs rhs = .ok t ∧ t.Normal ∧
      t.columns = (lhs.synonym?.toList ++ rhs.synonym?.toList).eraseDups := by
  cases r with
  | calls | callsStar | usesProc | modifiesProc =>
    exact b.exists_normal_relate _ (Argument.exists_reads_name _ h_lhs)
      (Argument.exists_reads_name _ h_rhs)
  | uses | modifies =>
    exact b.exists_normal_relate _ (Argument.exists_reads_number _ h_lhs)
      (Argument.exists_reads_name _ h_rhs)
  | _ =>
    exact b.exists_normal_relate _ (Argument.exists_reads_number _ h_lhs)
      (Argument.exists_reads_number _ h_rhs)

/-! ## Patterns and comparisons -/

theorem exists_patternCandidates {e : Entity} {expr : ExprSpec}
    (h : e = .assign ∨ (e = .whileLoop ∨ e = .ifElse) ∧ expr = .wildcard) :
    ∃ found, b.patternCandidates e expr = .ok found := by
  rcases h with rfl | ⟨rfl | rfl, rfl⟩
  · cases expr <;> exact ⟨_, rfl⟩
  · exact ⟨_, rfl⟩
  · exact ⟨_, rfl⟩

theorem exists_binds_patternTable {s : Synonym} {var : Ref} {expr : ExprSpec}
    (h : (Condition.pattern s var expr).Typed) :
    ∃ t, b.patternTable s var expr = .ok t ∧ t.Binds (s :: var.synonym?.toList) := by
  obtain ⟨h_entity, h_var, h_variable, -⟩ := h
  obtain ⟨⟨candidates, vars⟩, h_found⟩ := b.exists_patternCandidates h_entity
  simp only [patternTable, h_found, bind, Except.bind]
  cases var with
  | synonym v =>
    have h_ne : s ≠ v := by
      rintro rfl
      rw [h_variable s rfl] at h_entity
      simp at h_entity
    refine ⟨_, rfl, Table.binds_pair h_ne fun row h_row => ?_⟩
    simp only [List.mem_flatMap, List.mem_map] at h_row
    obtain ⟨n, -, name, -, rfl⟩ := h_row
    rfl
  | ident name => exact ⟨_, rfl, Table.binds_column ..⟩
  | integer n => cases h_var
  | wildcard => exact ⟨_, rfl, Table.binds_column ..⟩

theorem binds_compareTable {lhs rhs : WithRef} (h : lhs.kind = rhs.kind) :
    (b.compareTable lhs rhs).Binds (lhs.synonym?.toList ++ rhs.synonym?.toList) := by
  rw [compareTable.eq_def, if_pos h]
  cases lhs with
  | attr a =>
    cases rhs with
    | attr c =>
      simp only [compareAttributes, WithRef.synonym?, Option.toList_some, List.cons_append,
        List.nil_append]
      split
      · rename_i h_eq
        exact (Table.binds_column ..).congr (by simp [h_eq])
      · rename_i h_ne
        refine Table.binds_pair h_ne fun row h_row => ?_
        simp only [List.mem_flatMap, List.mem_map] at h_row
        obtain ⟨pair, -, w, -, rfl⟩ := h_row
        rfl
    | ident text => exact Table.binds_column ..
    | integer digits => exact Table.binds_column ..
  | ident text =>
    cases rhs with
    | attr a => exact Table.binds_column ..
    | ident other => exact Table.binds_truth _
    | integer digits => exact Table.binds_truth _
  | integer digits =>
    cases rhs with
    | attr a => exact Table.binds_column ..
    | ident text => exact Table.binds_truth _
    | integer other => exact Table.binds_truth _

/-! ## Clauses -/

theorem exists_binds_conditionTable {c : Condition} (h : c.Typed) :
    ∃ t, b.conditionTable c = .ok t ∧ t.Binds c.mentions := by
  cases c with
  | suchThat r lhs rhs =>
    obtain ⟨t, h_t, h_normal, h_columns⟩ := b.exists_normal_suchThatTable h.1 h.2.1
    refine ⟨t, h_t, h_normal, fun s => ?_⟩
    rw [h_columns, List.mem_eraseDups]
    rfl
  | pattern s var expr => exact b.exists_binds_patternTable h
  | compare lhs rhs => exact ⟨_, rfl, b.binds_compareTable h⟩

theorem normal_domainTables (synonyms : List Synonym) :
    ∀ t ∈ synonyms.map b.domainTable, t.Normal := by
  intro t ht
  obtain ⟨s, -, rfl⟩ := List.mem_map.1 ht
  exact Table.normal_column ..

theorem wellFormed_domainTables (synonyms : List Synonym) :
    ∀ t ∈ synonyms.map b.domainTable, t.WellFormed :=
  fun t ht => (b.normal_domainTables synonyms t ht).toWellFormed

/-- All bindings are those from the domains. -/
theorem binds_allBindings (synonyms : List Synonym) : (b.allBindings synonyms).Binds synonyms := by
  refine ⟨Table.normal_joinAll (b.normal_domainTables synonyms), fun s => ?_⟩
  rw [allBindings, Table.mem_columns_joinAll (b.wellFormed_domainTables synonyms)]
  simp [domainTable]

theorem holds_allBindings {synonyms : List Synonym} {ν : Valuation} :
    (b.allBindings synonyms).Holds ν ↔ ∀ s ∈ synonyms, ν s ∈ b.domain s := by
  rw [allBindings, Table.holds_joinAll (b.wellFormed_domainTables synonyms)]
  simp [domainTable]

theorem mem_synonyms {c : Clause} {s : Synonym} : s ∈ c.synonyms ↔ s ∈ c.condition.mentions := by
  rw [Clause.synonyms, List.mem_eraseDups]

/-- The table of a typed clause: that of its condition, or the bindings that the condition
    does not have. -/
theorem exists_clauseTable {c : Clause} (h : c.condition.Typed) :
    ∃ positive t, b.conditionTable c.condition = .ok positive ∧ b.clauseTable c = .ok t ∧
      positive.Binds c.synonyms ∧ t.Binds c.synonyms ∧
      ∀ ν, t.Holds ν ↔ if c.negated then
        (∀ s ∈ c.synonyms, ν s ∈ b.domain s) ∧ ¬ positive.Holds ν else positive.Holds ν := by
  obtain ⟨positive, h_positive, h_binds⟩ := b.exists_binds_conditionTable h
  replace h_binds : positive.Binds c.synonyms := h_binds.congr fun s => mem_synonyms.symm
  have h_all := b.binds_allBindings c.synonyms
  simp only [clauseTable, h_positive, bind, Except.bind]
  cases h_negated : c.negated with
  | false =>
    simp only [Bool.false_eq_true, if_false]
    exact ⟨positive, positive, rfl, rfl, h_binds, h_binds, fun _ => Iff.rfl⟩
  | true =>
    have h_columns : ∀ s ∈ positive.columns, s ∈ (b.allBindings c.synonyms).columns :=
      fun s hs => (h_all.mem_columns s).2 ((h_binds.mem_columns s).1 hs)
    simp only [if_true]
    refine ⟨positive, _, rfl, rfl, h_binds,
      ⟨h_all.normal.subtract h_binds.wellFormed h_columns, by simpa using h_all.mem_columns⟩,
      fun ν => ?_⟩
    rw [Table.holds_subtract h_binds.wellFormed h_columns, holds_allBindings]

end FactBase

end ProgramQuery
