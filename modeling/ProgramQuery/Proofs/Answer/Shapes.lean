/-
  ProgramQuery.Proofs.Answer.Shapes

  A relationship between arguments of all shapes, against one scan of its pairs.

  The table of a relationship clause is read from an index that its two arguments
  select: the pairs, the images or preimages of a literal, the keys, the values, or
  a single test.  `pairScan` uses none of these.  It goes through all stored
  pairs, drops those that an argument does not admit, and makes a row of what is
  left for the synonyms.  Over every base that writes can build, with one type for
  each statement, both are the same table.
-/

import ProgramQuery.Proofs.Answer.Domain
import ProgramQuery.Proofs.Answer.Meaning

namespace ProgramQuery

open Facts

/-! ## Bindings of single arguments -/

namespace Ref

/-- Whether an argument can stand for a value: a synonym for its values, a literal for itself. -/
def admits (b : FactBase) : Ref → Value → Bool
  | .synonym s, v => v ∈ b.domain s
  | .ident name, v => v = .name name
  | .integer n, v => v = .number n
  | .wildcard, _ => true

/-- What an argument binds when it stands for a value. -/
def bindings : Ref → Value → List (Synonym × Value)
  | .synonym s, v => [(s, v)]
  | _, _ => []

theorem map_fst_bindings (ref : Ref) (v : Value) :
    (ref.bindings v).map Prod.fst = ref.synonym?.toList := by
  cases ref <;> rfl

theorem bindings_eq_nil {ref : Ref} (h : ref.synonym? = none) (v : Value) :
    ref.bindings v = [] := by
  rw [← List.map_eq_nil_iff, map_fst_bindings, h, Option.toList_none]

/-- An argument stands for a value from its domain if it admits the value and the valuation has
    what it binds. -/
theorem denotes_iff_admits {b : FactBase} {ν : Valuation} (ref : Ref) (v : Value) :
    ((∀ s ∈ ref.synonym?.toList, ν s ∈ b.domain s) ∧ ref.Denotes ν v) ↔
      ref.admits b v = true ∧ ∀ x ∈ ref.bindings v, ν x.1 = x.2 := by
  cases ref with
  | synonym s =>
    simp only [synonym?, Option.toList_some, List.forall_mem_singleton, Denotes, admits, bindings,
      decide_eq_true_eq]
    exact and_congr_left fun h_v => by rw [h_v]
  | _ => simp [synonym?, Denotes, admits, bindings]

end Ref

/-! ## Rows from bindings -/

/-- The row that some bindings make of the columns that they name.  There is none if they give
    a synonym two values. -/
def rowOf? (bindings : List (Synonym × Value)) : Option Row :=
  if ∀ x ∈ bindings, bindings.lookup x.1 = some x.2 then
    some ((bindings.map Prod.fst).eraseDups.filterMap fun s => bindings.lookup s)
  else
    none

/-- Bindings that a valuation has are found in it by name. -/
theorem lookup_of_valuation {bindings : List (Synonym × Value)} {ν : Valuation}
    (h : ∀ x ∈ bindings, ν x.1 = x.2) {s : Synonym} (h_s : s ∈ bindings.map Prod.fst) :
    bindings.lookup s = some (ν s) := by
  induction bindings with
  | nil => cases h_s
  | cons x rest ih =>
    rw [List.lookup_cons]
    by_cases h_first : s = x.1
    · have h_value : ν s = x.2 := h_first ▸ h x (List.mem_cons_self ..)
      simp [h_first, ← h_value]
    · have h_beq : (s == x.1) = false := beq_eq_false_iff_ne.2 h_first
      have h_rest : s ∈ rest.map Prod.fst := by simpa [h_first] using h_s
      rw [h_beq]
      exact ih (fun y h_y => h y (List.mem_cons_of_mem _ h_y)) h_rest

/-- Bindings make the row of a valuation if this has all of them. -/
theorem rowOf?_eq_some_map {bindings : List (Synonym × Value)} {ν : Valuation} :
    rowOf? bindings = some ((bindings.map Prod.fst).eraseDups.map ν) ↔
      ∀ x ∈ bindings, ν x.1 = x.2 := by
  unfold rowOf?
  rw [Option.ite_none_right_eq_some, Option.some.injEq, List.filterMap_eq_map_iff_forall_eq_some]
  constructor
  · rintro ⟨h_first, h_row⟩ x h_x
    -- Both are what the lookup finds.
    have h_mem : x.1 ∈ (bindings.map Prod.fst).eraseDups :=
      List.mem_eraseDups.2 (List.mem_map_of_mem h_x)
    have h_found := h_row x.1 h_mem
    rw [h_first x h_x] at h_found
    exact (Option.some.inj h_found).symm
  · intro h_ν
    refine ⟨fun x h_x => ?_, fun s h_s => lookup_of_valuation h_ν (List.mem_eraseDups.1 h_s)⟩
    rw [lookup_of_valuation h_ν (List.mem_map_of_mem h_x), h_ν x h_x]

theorem length_of_rowOf? {bindings : List (Synonym × Value)} {row : Row}
    (h : rowOf? bindings = some row) :
    row.length = (bindings.map Prod.fst).eraseDups.length := by
  unfold rowOf? at h
  rw [Option.ite_none_right_eq_some, Option.some.injEq] at h
  obtain ⟨h_first, rfl⟩ := h
  apply List.filterMap_length_eq_length.2
  intro s h_s
  obtain ⟨x, h_x, rfl⟩ := List.mem_map.1 (List.mem_eraseDups.1 h_s)
  rw [h_first x h_x]
  rfl

/-! ## The scan -/

/-- The stored pairs, as values. -/
def Facts.PairStore.valuePairs {α β : Type} [Ord α] [Std.TransOrd α] [Ord β] [Std.TransOrd β]
    [Member α] [Member β] (store : PairStore α β) : List (Value × Value) :=
  store.pairs.map fun (k, l) => (Member.value k, Member.value l)

namespace FactBase

/-- All pairs that are stored for a relationship. -/
def storedPairs (b : FactBase) : Relationship → List (Value × Value)
  | .follows => b.follows.direct.valuePairs
  | .followsStar => b.follows.star.valuePairs
  | .parent => b.parent.direct.valuePairs
  | .parentStar => b.parent.star.valuePairs
  | .calls => b.calls.direct.valuePairs
  | .callsStar => b.calls.star.valuePairs
  | .next => b.next.direct.valuePairs
  | .nextStar => b.next.star.valuePairs
  | .affects => b.affects.valuePairs
  | .uses => b.uses.valuePairs
  | .usesProc => b.usesProc.valuePairs
  | .modifies => b.modifies.valuePairs
  | .modifiesProc => b.modifiesProc.valuePairs

/-- The row of a stored pair, if both arguments admit it and a synonym in both gets one value. -/
def scanPair (b : FactBase) (lhs rhs : Ref) (pair : Value × Value) : Option Row :=
  if lhs.admits b pair.1 && rhs.admits b pair.2 then
    rowOf? (lhs.bindings pair.1 ++ rhs.bindings pair.2)
  else
    none

/-- The table of a relationship, by one pass over all of its pairs. -/
def pairScan (b : FactBase) (r : Relationship) (lhs rhs : Ref) : Table :=
  .ofRows (lhs.synonym?.toList ++ rhs.synonym?.toList).eraseDups
    ((b.storedPairs r).filterMap (b.scanPair lhs rhs))

variable {b : FactBase} {r : Relationship} {lhs rhs : Ref}

theorem mem_storedPairs {v w : Value} : (v, w) ∈ b.storedPairs r ↔ b.Relates r v w := by
  cases r <;> exact mem_valuePairs

theorem map_fst_bindings_append (v w : Value) :
    (lhs.bindings v ++ rhs.bindings w).map Prod.fst =
      lhs.synonym?.toList ++ rhs.synonym?.toList := by
  rw [List.map_append, Ref.map_fst_bindings, Ref.map_fst_bindings]

/-- A pair has the row of a valuation if the arguments denote its members there. -/
theorem scanPair_eq_some_map {ν : Valuation} {v w : Value} :
    b.scanPair lhs rhs (v, w) =
        some ((lhs.synonym?.toList ++ rhs.synonym?.toList).eraseDups.map ν) ↔
      (∀ s ∈ lhs.synonym?.toList ++ rhs.synonym?.toList, ν s ∈ b.domain s) ∧
        lhs.Denotes ν v ∧ rhs.Denotes ν w := by
  have h_lhs := lhs.denotes_iff_admits (b := b) (ν := ν) v
  have h_rhs := rhs.denotes_iff_admits (b := b) (ν := ν) w
  rw [List.forall_mem_append, and_and_and_comm, h_lhs, h_rhs, and_and_and_comm,
    ← List.forall_mem_append, ← rowOf?_eq_some_map, map_fst_bindings_append, scanPair,
    Option.ite_none_right_eq_some, Bool.and_eq_true]

theorem length_of_mem_scan {row : Row}
    (h : row ∈ (b.storedPairs r).filterMap (b.scanPair lhs rhs)) :
    row.length = (lhs.synonym?.toList ++ rhs.synonym?.toList).eraseDups.length := by
  obtain ⟨pair, -, h_row⟩ := List.mem_filterMap.1 h
  rw [scanPair, Option.ite_none_right_eq_some] at h_row
  rw [length_of_rowOf? h_row.2, map_fst_bindings_append]

@[simp] theorem columns_pairScan :
    (b.pairScan r lhs rhs).columns =
      (lhs.synonym?.toList ++ rhs.synonym?.toList).eraseDups :=
  Table.columns_ofRows ..

theorem normal_pairScan : (b.pairScan r lhs rhs).Normal :=
  Table.normal_ofRows (nodup_eraseDups _) fun _ => length_of_mem_scan

/-- The scan has the bindings from the domains under which the arguments denote related values. -/
theorem holds_pairScan {ν : Valuation} : (b.pairScan r lhs rhs).Holds ν ↔
    (∀ s ∈ lhs.synonym?.toList ++ rhs.synonym?.toList, ν s ∈ b.domain s) ∧
      b.ConditionHolds ν (.suchThat r lhs rhs) := by
  rw [← Table.map_mem_contents, columns_pairScan, pairScan,
    Table.mem_contents_ofRows fun _ => length_of_mem_scan, List.mem_filterMap]
  simp only [Prod.exists, mem_storedPairs, scanPair_eq_some_map, ConditionHolds]
  constructor
  · rintro ⟨v, w, h_vw, h_domain, h_v, h_w⟩
    exact ⟨h_domain, v, w, h_v, h_w, h_vw⟩
  · rintro ⟨h_domain, v, w, h_v, h_w, h_vw⟩
    exact ⟨v, w, h_vw, h_domain, h_v, h_w⟩

/-! ## Agreement -/

/-- Index lookups find what the scan finds, whatever the shapes of the arguments. -/
theorem suchThatTable_eq_pairScan (h : ∀ s v, b.inDomain s v = true ↔ v ∈ b.domain s)
    (h_coherent : b.Coherent) (h_lhs : lhs.Fits r.fromStatement) (h_rhs : rhs.Fits r.toStatement)
    (h_same : ∀ s, lhs = .synonym s → rhs = .synonym s → r.mayBeReflexive = true) :
    b.suchThatTable r lhs rhs = .ok (b.pairScan r lhs rhs) := by
  obtain ⟨t, h_t, h_normal, h_columns⟩ := b.exists_normal_suchThatTable h_lhs h_rhs
  have h_never : ∀ s, lhs.synonym? = some s → rhs.synonym? = some s → r.mayBeReflexive = false →
      ∀ v, ¬ b.Relates r v v := by
    intro s h_l h_r h_reflexive
    have h_may := h_same s (Ref.eq_synonym h_l) (Ref.eq_synonym h_r)
    rw [h_reflexive] at h_may
    cases h_may
  have h_scan : t = b.pairScan r lhs rhs := by
    apply h_normal.ext normal_pairScan
    · rw [h_columns, columns_pairScan]
    · intro ν
      rw [holds_suchThatTable_of_fits h h_coherent h_lhs h_rhs h_never h_t, holds_pairScan]
  rw [h_t, h_scan]

/-- Without synonyms, the scan is `unit` if some pair is admitted. -/
theorem pairScan_eq_unit (h_lhs : lhs.synonym? = none) (h_rhs : rhs.synonym? = none) :
    b.pairScan r lhs rhs = .unit ↔
      ∃ pair ∈ b.storedPairs r, lhs.admits b pair.1 = true ∧ rhs.admits b pair.2 = true := by
  have h_row : ∀ pair, b.scanPair lhs rhs pair = some [] ↔
      lhs.admits b pair.1 = true ∧ rhs.admits b pair.2 = true := by
    intro pair
    rw [scanPair, Ref.bindings_eq_nil h_lhs, Ref.bindings_eq_nil h_rhs,
      Option.ite_none_right_eq_some, Bool.and_eq_true]
    exact and_iff_left rfl
  have h_columns : (b.pairScan r lhs rhs).columns = [] := by
    rw [columns_pairScan, h_lhs, h_rhs]
    rfl
  rw [normal_pairScan.eq_unit_iff h_columns, pairScan,
    Table.mem_contents_ofRows fun _ => length_of_mem_scan, List.mem_filterMap]
  simp only [h_row]

/-- Over every base that writes can build, with one type for each statement, a relationship has
    one meaning for arguments of all shapes.  The columns of its table are the synonyms in the
    order of the arguments, the rows are their bindings from the domains that some stored pair
    matches, and without synonyms the table is `unit` if some stored pair matches.  So the
    lookup that the arguments select finds what a scan of all pairs finds.  Only one synonym
    twice needs a relationship that may be reflexive. -/
theorem relationship_tables_scan_pairs (ws : List Write) (h_types : OneTypeEach ws)
    (r : Relationship) (lhs rhs : Ref) (h_lhs : lhs.Fits r.fromStatement)
    (h_rhs : rhs.Fits r.toStatement)
    (h_same : ∀ s, lhs = .synonym s → rhs = .synonym s → r.mayBeReflexive = true) :
    let b := ({} : FactBase).writeAll ws
    let synonyms := (lhs.synonym?.toList ++ rhs.synonym?.toList).eraseDups
    ∃ t, b.clauseTable ⟨.suchThat r lhs rhs, false⟩ = .ok t ∧ t.columns = synonyms ∧
      (∀ row, row ∈ t.contents ↔ ∃ ν : Valuation, row = synonyms.map ν ∧
        (∀ s ∈ synonyms, ν s ∈ b.domain s) ∧
        ∃ pair ∈ b.storedPairs r, lhs.Denotes ν pair.1 ∧ rhs.Denotes ν pair.2) ∧
      (synonyms = [] → (t = .unit ↔
        ∃ pair ∈ b.storedPairs r, lhs.admits b pair.1 = true ∧ rhs.admits b pair.2 = true)) ∧
      t = b.pairScan r lhs rhs := by
  intro b synonyms
  have h_table : b.clauseTable ⟨.suchThat r lhs rhs, false⟩ = .ok (b.pairScan r lhs rhs) := by
    rw [clauseTable, conditionTable, suchThatTable_eq_pairScan (inDomain_writeAll h_types)
      (coherent_empty.writeAll ws) h_lhs h_rhs h_same]
    rfl
  refine ⟨b.pairScan r lhs rhs, h_table, columns_pairScan, fun row => ?_, fun h_none => ?_, rfl⟩
  · rw [normal_pairScan.mem_contents, columns_pairScan]
    simp only [holds_pairScan, synonyms, List.mem_eraseDups, Prod.exists, mem_storedPairs,
      ConditionHolds]
    refine exists_congr fun ν => ?_
    constructor
    · rintro ⟨⟨h_domain, v, w, h_v, h_w, h_vw⟩, h_row⟩
      exact ⟨h_row, h_domain, v, w, h_vw, h_v, h_w⟩
    · rintro ⟨h_row, h_domain, v, w, h_vw, h_v, h_w⟩
      exact ⟨⟨h_domain, v, w, h_v, h_w, h_vw⟩, h_row⟩
  · -- Where nothing is listed, neither argument is a synonym.
    have h_neither : lhs.synonym?.toList ++ rhs.synonym?.toList = [] := by
      rw [List.eq_nil_iff_forall_not_mem] at h_none ⊢
      exact fun s h_s => h_none s (List.mem_eraseDups.2 h_s)
    rw [List.append_eq_nil_iff, Option.toList_eq_nil_iff, Option.toList_eq_nil_iff] at h_neither
    exact pairScan_eq_unit h_neither.1 h_neither.2

/-- A loop around an assignment. -/
def loopWrites : List Write :=
  [.add (.statement 1 .whileLoop), .add (.statement 2 .assign), .add (.next 1 2),
    .add (.next 2 1), .finalize]

/-- Both statements of the loop come after themselves, and one of them is an assignment. -/
theorem assignment_after_itself :
    let b := ({} : FactBase).writeAll loopWrites
    let a : Synonym := ⟨"a", .assign⟩
    OneTypeEach loopWrites ∧ b.storedPairs .nextStar =
        [(.number 1, .number 1), (.number 1, .number 2), (.number 2, .number 1),
          (.number 2, .number 2)] ∧
      ∃ t, b.clauseTable ⟨.suchThat .nextStar (.synonym a) (.synonym a), false⟩ = .ok t ∧
        t.columns = [a] ∧ [.number 2] ∈ t.contents ∧ [.number 1] ∉ t.contents := by
  intro b a
  have h_types : OneTypeEach loopWrites := by
    intro n t u h_t h_u
    simp only [loopWrites, List.mem_cons, Write.add.injEq, Fact.statement.injEq, reduceCtorEq,
      List.not_mem_nil, or_false] at h_t h_u
    grind
  have h_pairs : b.storedPairs .nextStar = [(.number 1, .number 1), (.number 1, .number 2),
      (.number 2, .number 1), (.number 2, .number 2)] := by decide +kernel
  have h_domain : b.domain a = [.number 2] := by decide +kernel
  obtain ⟨t, h_t, h_columns, h_rows, -, -⟩ := relationship_tables_scan_pairs loopWrites h_types
    .nextStar (.synonym a) (.synonym a) trivial trivial fun _ _ _ => rfl
  have h_one : ([a, a] : List Synonym).eraseDups = [a] := by decide
  refine ⟨h_types, h_pairs, t, h_t, h_columns.trans h_one, (h_rows _).2 ?_, fun h_row => ?_⟩
  · refine ⟨fun _ => .number 2, rfl, fun s h_s => ?_, (.number 2, .number 2), ?_, rfl, rfl⟩
    · obtain rfl : s = a := by simpa [Ref.synonym?] using h_s
      rw [h_domain]
      exact List.mem_singleton.2 rfl
    · rw [h_pairs]
      decide
  · obtain ⟨ν, h_row, h_ν, -⟩ := (h_rows _).1 h_row
    have h_a := h_ν a (by decide)
    rw [h_domain, List.mem_singleton] at h_a
    have h_value : [Value.number 1] = [ν a] := h_row
    rw [h_a] at h_value
    exact absurd h_value (by decide)

end FactBase

end ProgramQuery
