/-
  ProgramQuery.Proofs.Program.Numbers

  Numbers and ids belong to each other one to one.

  The reading order of a program that was read is a rearrangement of all its ids, so
  the two arrays of its numbering are inverse to each other.  The loop with a stack
  takes the statements of the procedures in the same order, so through the numbers
  it counts from one to the number of statements, and each procedure has a range of
  numbers of its own.
-/

import ProgramQuery.Proofs.Program.Descent

namespace ProgramQuery

/-! ## Rearrangements -/

namespace Stmt

variable {α : Type}

/-- The ids of placed trees are those from `base` on, in another order. -/
theorem perm_tags_place :
    (∀ (s : Stmt α) base, ((s.place base).preorder.map tag).Perm (List.range' base s.size)) ∧
    (∀ (ss : List (Stmt α)) base,
      ((preorderList (placeList base ss)).map tag).Perm (List.range' base (sizeList ss))) := by
  refine induction ?_ ?_ ?_ ?_ ?_
  · intro _ action base
    simp [place, preorder, tag, size]
  · intro _ cond body ih base
    simp only [place, preorder, size, List.map_cons, tag, List.range'_1_concat]
    exact (List.perm_append_singleton ..).symm.trans ((ih base).append_right _)
  · intro _ cond thenBranch elseBranch ih_then ih_else base
    have h_both := (ih_then base).append (ih_else (base + sizeList thenBranch))
    rw [List.range'_append_1] at h_both
    simp only [place, preorder, size, List.map_cons, List.map_append, tag, List.range'_1_concat,
      ← Nat.add_assoc]
    exact (List.perm_append_singleton ..).symm.trans (h_both.append_right _)
  · intro base
    simp [sizeList]
  · intro s rest ih_s ih_rest base
    simp only [placeList_cons, preorderList_cons, sizeList, List.map_append, ← List.range'_append_1]
    exact (ih_s base).append (ih_rest (base + s.size))

end Stmt

namespace Program

/-- The ids of placed procedures are those from `base` on, in another order. -/
theorem perm_tags_placedFrom (base : Nat) (ps : List ProcedureText) :
    (((placedFrom base ps).flatMap ProcedureTree.statements).map Stmt.tag).Perm
      (List.range' base (totalSize ps)) := by
  induction ps generalizing base with
  | nil => simp [placedFrom, totalSize]
  | cons p rest ih =>
    simp only [placedFrom, totalSize, List.flatMap_cons, List.map_append, ProcedureTree.statements,
      ← List.range'_append_1]
    exact (Stmt.perm_tags_place.2 p.body base).append (ih (base + Stmt.sizeList p.body))

/-- The reading order of a program that was read holds every id once. -/
theorem perm_tags_of_read {source : String} {p : Program} (h : read source = .ok p) :
    (p.procedureTrees.flatMap fun q => q.statements.map Stmt.tag).Perm
      (List.range p.statements.size) := by
  obtain ⟨ps, -, rfl, -⟩ := exists_texts_of_read h
  rw [procedureTrees_ofTexts, size_statements_ofTexts, List.range_eq_range', ← List.map_flatMap]
  exact perm_tags_placedFrom 0 ps

end Program

/-! ## Inverse arrays -/

namespace Numbering

/-- The numbers from one to `size` and the ids below `size` belong to each other one to one. -/
structure IsBijection (n : Numbering) (size : Nat) : Prop where
  /-- Every number belongs to an id that has it. -/
  number_id : ∀ k, 1 ≤ k → k ≤ size → ∃ id, id < size ∧ n.id? k = some id ∧ n.number id = k
  /-- Every id has a number that belongs to it. -/
  id_number : ∀ id, id < size → 1 ≤ n.number id ∧ n.number id ≤ size ∧ n.id? (n.number id) = some id
  zero : n.id? 0 = none
  beyond : ∀ k, size < k → n.id? k = none

/-- Visiting every statement once numbers them one to one. -/
theorem isBijection_ofVisits {size : Nat} {ids : List StatementId}
    (h : ids.Perm (List.range size)) : (ofVisits size ids).IsBijection size := by
  have h_nodup : ids.Nodup := h.nodup_iff.2 List.nodup_range
  have h_length : ids.length = size := by rw [h.length_eq, List.length_range]
  have h_mem : ∀ id, id ∈ ids ↔ id < size := fun id => by rw [h.mem_iff, List.mem_range]
  have h_number : ∀ id, id < size → (ofVisits size ids).number id = 1 + ids.idxOf id := by
    intro id h_id
    rw [number, ofVisits,
      getElem?_foldl_set ids 1 _ h_nodup (by simpa using fun id => (h_mem id).1) id,
      if_pos ((h_mem id).2 h_id)]
    rfl
  have h_id? : ∀ k, (ofVisits size ids).id? (k + 1) = ids[k]? := by
    intro k
    simp [id?, ofVisits]
  refine ⟨fun k h_one h_k => ?_, fun id h_id => ?_, rfl, fun k h_k => ?_⟩
  · obtain ⟨i, rfl⟩ : ∃ i, k = i + 1 := ⟨k - 1, by omega⟩
    have h_i : i < ids.length := by omega
    have h_range : ids[i] < size := (h_mem _).1 (List.getElem_mem h_i)
    refine ⟨ids[i], h_range, ?_, ?_⟩
    · rw [h_id?, List.getElem?_eq_getElem h_i]
    · rw [h_number _ h_range, List.Nodup.idxOf_getElem h_nodup, Nat.add_comm]
  · have h_i : ids.idxOf id < ids.length := List.idxOf_lt_length_iff.2 ((h_mem id).2 h_id)
    have h_le : 1 + ids.idxOf id ≤ size := by omega
    rw [h_number id h_id]
    refine ⟨Nat.le_add_right .., h_le, ?_⟩
    rw [Nat.add_comm, h_id?, List.getElem?_eq_getElem h_i, List.getElem_idxOf h_i]
  · obtain ⟨i, rfl⟩ : ∃ i, k = i + 1 := ⟨k - 1, by omega⟩
    rw [h_id?, List.getElem?_eq_none_iff]
    omega

end Numbering

/-! ## Counting by the loop -/

/-- A part of a run of successive numbers is such a run. -/
theorem eq_range'_of_append {start size : Nat} {before part after : List Nat}
    (h : before ++ (part ++ after) = List.range' start size) :
    part = List.range' (start + before.length) part.length := by
  obtain ⟨k, -, h_before, h_rest⟩ := List.range'_eq_append_iff.1 h.symm
  obtain ⟨m, -, h_part, -⟩ := List.range'_eq_append_iff.1 h_rest.symm
  have h_k : before.length = k := by rw [h_before, List.length_range']
  have h_m : part.length = m := by rw [h_part, List.length_range']
  rw [h_k, h_m, h_part, Nat.mul_one]

namespace Program

/-- Numbering and the loop with a stack agree.  The recursion over the procedures ends with the
    numbering of the program, which relates the ids of the arena to the numbers from one to the
    number of statements one to one.  The loop ends on the body of every procedure, and the
    numbers of what it finds, taken in the order of the procedures, count from one on; so the
    numbers of a procedure follow each other. -/
theorem numbering_counts_descendants {source : String} {p : Program} (h : read source = .ok p) :
    p.numberProcedures = some p.numbered.numbering ∧
    p.numbered.numbering.size = p.statements.size ∧
    p.numbered.numbering.IsBijection p.statements.size ∧
    ∃ walks, p.procedures.mapM (fun q => p.descendants p.statements.size q.body) = some walks ∧
      walks.flatten.map p.numbered.number = List.range' 1 p.statements.size ∧
      ∀ walk ∈ walks, ∃ first, walk.map p.numbered.number = List.range' first walk.length := by
  have h_trees := procedureTrees?_of_read h
  have h_perm := perm_tags_of_read h
  have h_length : (p.procedureTrees.flatMap fun q => q.statements.map Stmt.tag).length =
      p.statements.size := by
    rw [h_perm.length_eq, List.length_range]
  have h_counts : (p.procedureTrees.flatMap fun q => q.statements.map Stmt.tag).map
      p.numbered.number = List.range' 1 p.statements.size := by
    have h_map := Numbering.map_number_ofVisits p.statements.size _
      (h_perm.nodup_iff.2 List.nodup_range) fun id h_id => List.mem_range.1 (h_perm.subset h_id)
    rw [h_length] at h_map
    exact h_map
  refine ⟨numberProcedures_eq h_trees, ?_, Numbering.isBijection_ofVisits h_perm,
    p.procedureTrees.map fun q => q.statements.map Stmt.tag,
    mapM_map h_trees fun q t ht h_t => ?_, ?_, fun walk h_walk => ?_⟩
  · exact List.size_toArray.trans h_length
  · -- No procedure has more statements than there are in all.
    refine descendants_eq (procedureTree?_eq_some_iff.1 h_t).2 ?_
    obtain ⟨before, after, h_procedures⟩ := List.append_of_mem ht
    rw [← h_length, h_procedures]
    simp only [List.flatMap_append, List.flatMap_cons, List.length_append, Stmt.readingOrder,
      ProcedureTree.statements]
    omega
  · rw [← List.flatMap_def, h_counts]
  · obtain ⟨q, hq, rfl⟩ := List.mem_map.1 h_walk
    obtain ⟨before, after, h_procedures⟩ := List.append_of_mem hq
    rw [h_procedures, List.flatMap_append, List.flatMap_cons, List.map_append,
      List.map_append] at h_counts
    have h_part := eq_range'_of_append h_counts
    simp only [List.length_map] at h_part
    exact ⟨_, by simpa using h_part⟩

/-- A loop comes before its body in the loop's walk and in the numbers, though after it in the
    arena. -/
theorem numbering_of_two_procedures :
    ∃ p, read ("procedure a \x7b while (x > 0) \x7b read y; \x7d print y; \x7d " ++
        "procedure b \x7b call a; \x7d") = .ok p ∧
      p.numberProcedures = some p.numbered.numbering ∧ p.numbered.numbering.IsBijection 4 ∧
      p.procedures.mapM (fun q => p.descendants 4 q.body) = some [[1, 0, 2], [3]] ∧
      [1, 0, 2, 3].map p.numbered.number = [1, 2, 3, 4] := by
  refine exists_ok_of_test (fun p => p.statements.size = 4 ∧
    p.procedures.mapM (fun q => p.descendants 4 q.body) = some [[1, 0, 2], [3]])
    (by decide +kernel) fun p h_read h_test => ?_
  obtain ⟨h_size, h_mapM⟩ := of_decide_eq_true h_test
  obtain ⟨h_recursion, -, h_bijection, walks, h_walks, h_counts, -⟩ :=
    numbering_counts_descendants h_read
  rw [h_size] at h_bijection h_walks h_counts
  obtain rfl := Option.some.inj (h_mapM.symm.trans h_walks)
  exact ⟨h_recursion, h_bijection, h_mapM, h_counts⟩

end Program

end ProgramQuery
