/-
  ProgramQuery.Proofs.Facts.Nesting

  Follows and Parent as the text shows them.

  Every statement of a program stands in one statement list and at one place of
  it, because all lists together are the statements of the program in another
  order (`perm_children`).  So a path of Follows stays in a list, and Follows* is
  the order of the members of a list.  A path of Parent goes deeper into one
  statement, and what is nested in a statement stands right after it in reading
  order, so Parent* is an interval of numbers.
-/

import Mathlib.Data.List.Pairwise
import ProgramQuery.Proofs.Answer.Regular
import ProgramQuery.Proofs.Facts.Stars

namespace ProgramQuery

open Facts
open Relation (TransGen)

/-! ## Lists and nested statements -/

namespace Stmt

variable {α : Type}

/-- The statements that are nested in a statement, at any depth. -/
def nested (s : Stmt α) : List (Stmt α) :=
  preorderList s.children

theorem mem_nested_of_child {s c t : Stmt α} (h_c : c ∈ s.children) (h_t : t ∈ c.preorder) :
    t ∈ s.nested :=
  mem_preorderList_iff.2 ⟨c, h_c, h_t⟩

/-- What is nested in a nested statement is nested in the outer one. -/
theorem mem_nested_trans {s t u : Stmt α} (h_t : t ∈ s.nested) (h_u : u ∈ t.nested) :
    u ∈ s.nested := by
  refine mem_preorderList_trans h_t ?_
  rw [preorder_eq]
  exact List.mem_cons_of_mem _ h_u

/-- The statements below a list are its members and the children of all of them. -/
theorem perm_children (ss : List (Stmt α)) :
    (preorderList ss).Perm (ss ++ (preorderList ss).flatMap children) := by
  -- First for lists whose members have the property, then from the children of a statement to it.
  have h_list : ∀ ts : List (Stmt α),
      (∀ t ∈ ts, t.preorder.Perm (t :: t.preorder.flatMap children)) →
      (preorderList ts).Perm (ts ++ (preorderList ts).flatMap children) := by
    intro ts h_members
    induction ts with
    | nil => simp
    | cons t rest ih =>
      have h_t := h_members t (List.mem_cons_self ..)
      have h_rest := ih fun u hu => h_members u (List.mem_cons_of_mem _ hu)
      rw [preorderList_cons, List.flatMap_append, List.cons_append]
      refine (h_t.append h_rest).trans ?_
      rw [List.cons_append]
      exact (List.perm_append_comm_assoc _ _ _).cons t
  have h_one : ∀ s : Stmt α, s.preorder.Perm (s :: s.preorder.flatMap children) := by
    intro s
    induction s using childInduction with
    | h s ih =>
      rw [preorder_eq, List.flatMap_cons]
      exact (h_list s.children ih).cons s
  exact h_list ss fun s _ => h_one s

end Stmt

namespace NumberedProgram

variable {p : NumberedProgram}

/-- A statement list of the program: the body of a procedure or a block of a statement. -/
def IsList (p : NumberedProgram) (list : List (Stmt StatementId)) : Prop :=
  (∃ q ∈ p.procedures, list = q.body) ∨ ∃ s ∈ p.statements, list ∈ s.blocks

/-- The numbers of the statements of a list. -/
def numbersOf (p : NumberedProgram) (list : List (Stmt StatementId)) : List StatementNumber :=
  list.map fun s => p.number s.tag

theorem mem_lists_iff_isList {list : List (Stmt StatementId)} : list ∈ p.lists ↔ p.IsList list := by
  simp only [mem_lists, IsList, mem_statements, ProcedureTree.statements]
  constructor
  · rintro ⟨q, hq, rfl | ⟨s, hs, h_block⟩⟩
    · exact .inl ⟨q, hq, rfl⟩
    · exact .inr ⟨s, ⟨q, hq, hs⟩, h_block⟩
  · rintro (⟨q, hq, rfl⟩ | ⟨s, ⟨q, hq, hs⟩, h_block⟩)
    · exact ⟨q, hq, .inl rfl⟩
    · exact ⟨q, hq, .inr ⟨s, hs, h_block⟩⟩

/-- All lists together are the statements of the program in another order. -/
theorem perm_flatten_lists (p : NumberedProgram) : p.lists.flatten.Perm p.statements := by
  refine p.perm_lists.flatten.trans ?_
  rw [← List.flatMap_id', List.flatMap_assoc, statements]
  refine List.Perm.flatMap_left _ fun q _ => ?_
  have h_lists : (Stmt.lists q.body).flatMap (fun list => list) =
      q.body ++ (Stmt.preorderList q.body).flatMap Stmt.children := by
    rw [Stmt.lists, List.flatMap_cons, List.flatMap_assoc]
    simp only [List.flatMap_id']
    rfl
  rw [h_lists]
  exact (Stmt.perm_children q.body).symm

theorem mem_statements_of_isList {list : List (Stmt StatementId)} (h_list : p.IsList list)
    {s : Stmt StatementId} (hs : s ∈ list) : s ∈ p.statements :=
  p.perm_flatten_lists.subset (List.mem_flatten.2 ⟨list, mem_lists_iff_isList.2 h_list, hs⟩)

/-- A statement and what is nested in it stand together among all statements. -/
theorem preorder_infix_statements {s : Stmt StatementId} (hs : s ∈ p.statements) :
    s.preorder <:+: p.statements := by
  obtain ⟨q, hq, h_body⟩ := mem_statements.1 hs
  obtain ⟨l₁, l₂, h_eq⟩ := List.append_of_mem hq
  have h_procedure : q.statements <:+: p.statements :=
    ⟨l₁.flatMap ProcedureTree.statements, l₂.flatMap ProcedureTree.statements, by
      simp [statements, h_eq]⟩
  exact (Stmt.preorder_infix_list h_body).trans h_procedure

theorem mem_statements_of_nested {s t : Stmt StatementId} (hs : s ∈ p.statements)
    (ht : t ∈ s.nested) : t ∈ p.statements := by
  apply (preorder_infix_statements hs).subset
  rw [Stmt.preorder_eq]
  exact List.mem_cons_of_mem _ ht

namespace WellFormed

variable {list other : List (Stmt StatementId)}

theorem nodup_lists (h : p.WellFormed) : p.lists.flatten.Nodup := by
  rw [p.perm_flatten_lists.nodup_iff]
  refine List.Pairwise.imp (fun h_lt h_eq => ?_) h.pairwise_numbers
  rw [h_eq] at h_lt
  exact Nat.lt_irrefl _ h_lt

/-- A statement stands in one list. -/
theorem list_unique (h : p.WellFormed) (h_list : p.IsList list) (h_other : p.IsList other)
    {s : Stmt StatementId} (hs : s ∈ list) (hs' : s ∈ other) : list = other := by
  have h_disjoint := (List.nodup_flatten.1 h.nodup_lists).2
  have : Std.Symm (List.Disjoint (α := Stmt StatementId)) := ⟨fun _ _ => List.Disjoint.symm⟩
  by_contra h_ne
  exact h_disjoint.forall (mem_lists_iff_isList.2 h_list) (mem_lists_iff_isList.2 h_other) h_ne
    hs hs'

/-- A statement stands at one place of its list. -/
theorem place_unique (h : p.WellFormed) (h_list : p.IsList list) {i j : Nat} {s : Stmt StatementId}
    (h_i : list[i]? = some s) (h_j : list[j]? = some s) : i = j := by
  have h_nodup := (List.nodup_flatten.1 h.nodup_lists).1 list (mem_lists_iff_isList.2 h_list)
  obtain ⟨h_lt, -⟩ := List.getElem?_eq_some_iff.1 h_i
  exact (List.getElem?_inj h_lt h_nodup).1 (h_i.trans h_j.symm)

/-- A number stands at one place of one list. -/
theorem numbered_place_unique (h : p.WellFormed) (h_list : p.IsList list) (h_other : p.IsList other)
    {i j : Nat} {n : StatementNumber} (h_i : (p.numbersOf list)[i]? = some n)
    (h_j : (p.numbersOf other)[j]? = some n) : list = other ∧ i = j := by
  rw [numbersOf, List.getElem?_map, Option.map_eq_some_iff] at h_i h_j
  obtain ⟨s, h_s, rfl⟩ := h_i
  obtain ⟨t, h_t, h_number⟩ := h_j
  have hs := List.mem_of_getElem? h_s
  have ht := List.mem_of_getElem? h_t
  obtain rfl := h.eq_of_number (mem_statements_of_isList h_other ht)
    (mem_statements_of_isList h_list hs) h_number
  obtain rfl := h.list_unique h_list h_other hs ht
  exact ⟨rfl, h.place_unique h_list h_s h_t⟩

/-- What stands after a statement in reading order continues its numbers. -/
theorem map_number_infix (h : p.WellFormed) {s : Stmt StatementId} {rest : List (Stmt StatementId)}
    (h_part : s :: rest <:+: p.statements) :
    rest.map (fun t => p.number t.tag) = List.range' (p.number s.tag + 1) rest.length := by
  obtain ⟨before, after, h_eq⟩ := h_part
  have h_s : p.number s.tag = 1 + before.length := by
    apply h.number_of_getElem?
    rw [← h_eq]
    simp
  apply List.ext_getElem
  · simp
  · intro i h_i _
    rw [List.length_map] at h_i
    have h_get : p.statements[before.length + (i + 1)]? = some rest[i] := by
      rw [← h_eq, List.append_assoc, List.getElem?_append_right (Nat.le_add_right ..),
        Nat.add_sub_cancel_left, List.cons_append, List.getElem?_cons_succ,
        List.getElem?_append_left h_i, List.getElem?_eq_getElem h_i]
    have h_number := h.number_of_getElem? h_get
    rw [List.getElem_map, List.getElem_range', h_number, h_s]
    show (_ : Nat) = _
    omega

/-- What is nested in a statement has the numbers right after its own. -/
theorem map_number_nested (h : p.WellFormed) {s : Stmt StatementId} (hs : s ∈ p.statements) :
    p.numbersOf s.nested = List.range' (p.number s.tag + 1) s.nested.length := by
  have h_part := preorder_infix_statements hs
  rw [Stmt.preorder_eq] at h_part
  exact h.map_number_infix h_part

/-- A number belongs to a nested statement exactly if it is in the interval after the number of
    the outer one. -/
theorem exists_nested_iff (h : p.WellFormed) {s : Stmt StatementId} (hs : s ∈ p.statements)
    {b : StatementNumber} :
    (∃ t ∈ s.nested, p.number t.tag = b) ↔
      p.number s.tag < b ∧ b ≤ p.number s.tag + s.nested.length := by
  have h_mem : (∃ t ∈ s.nested, p.number t.tag = b) ↔ b ∈ p.numbersOf s.nested := by
    rw [numbersOf, List.mem_map]
  rw [h_mem, h.map_number_nested hs, List.mem_range'_1, Nat.succ_le_iff, Nat.add_right_comm,
    Nat.lt_succ_iff]

end WellFormed

end NumberedProgram

namespace FactBase

open NumberedProgram

variable {p : NumberedProgram} {a b : StatementNumber}

/-! ## Closures of programs -/

theorem Tracked.addAll {b : FactBase} (h : b.Tracked) (facts : List Fact) :
    (b.addAll facts).Tracked := by
  unfold FactBase.addAll
  induction facts generalizing b with
  | nil => exact h
  | cons f rest ih => exact ih (h.add f)

/-- Finalizing completes Follows* if Follows leads to larger numbers. -/
theorem Tracked.exact_follows {b : FactBase} (h : b.Tracked) (h_coherent : b.Coherent)
    (h_up : ∀ a c, b.finalize.follows.direct.contains a c → a < c) : b.finalize.follows.Exact :=
  h.follows.1.exact_extendStar fun _ _ =>
    PairStore.mem_ascendingPairs h_coherent.follows (ascends_of_lt h_up)

/-- Finalizing completes Parent* if Parent leads to larger numbers. -/
theorem Tracked.exact_parent {b : FactBase} (h : b.Tracked) (h_coherent : b.Coherent)
    (h_up : ∀ a c, b.finalize.parent.direct.contains a c → a < c) : b.finalize.parent.Exact :=
  h.parent.1.exact_extendStar fun _ _ =>
    PairStore.mem_ascendingPairs h_coherent.parent (ascends_of_lt h_up)

theorem exact_follows (h : p.WellFormed) : (ofProgram p).follows.Exact :=
  (tracked_empty.addAll p.facts).exact_follows (coherent_empty.addAll p.facts)
    fun _ _ => lt_of_follows h

theorem exact_parent (h : p.WellFormed) : (ofProgram p).parent.Exact :=
  (tracked_empty.addAll p.facts).exact_parent (coherent_empty.addAll p.facts)
    fun _ _ => lt_of_parent h

/-! ## Follows -/

/-- Follows leads from a statement to the next one of its list. -/
theorem contains_follows_iff :
    (ofProgram p).follows.direct.contains a b ↔ ∃ list, p.IsList list ∧ ∃ i,
      (p.numbersOf list)[i]? = some a ∧ (p.numbersOf list)[i + 1]? = some b := by
  have h_pair : ∀ (list : List (Stmt StatementId)) s t,
      (s, t) ∈ list.zip list.tail ↔ ∃ i, list[i]? = some s ∧ list[i + 1]? = some t := by
    intro list s t
    simp only [List.mem_iff_getElem?, List.getElem?_zip_eq_some, List.getElem?_tail]
  rw [contains_follows]
  simp only [mem_lists_iff_isList, h_pair, numbersOf, List.getElem?_map, Option.map_eq_some_iff]
  constructor
  · rintro ⟨list, h_list, s, t, ⟨i, h_s, h_t⟩, h_a, h_b⟩
    exact ⟨list, h_list, i, ⟨s, h_s, h_a⟩, ⟨t, h_t, h_b⟩⟩
  · rintro ⟨list, h_list, i, ⟨s, h_s, h_a⟩, ⟨t, h_t, h_b⟩⟩
    exact ⟨list, h_list, s, t, ⟨i, h_s, h_t⟩, h_a, h_b⟩

/-- A path of Follows stays in one list and goes on in it. -/
theorem before_of_joined (h : p.WellFormed) (h_path : (ofProgram p).follows.direct.Joined a b) :
    ∃ list, p.IsList list ∧ ∃ i j : Nat, i < j ∧
      (p.numbersOf list)[i]? = some a ∧ (p.numbersOf list)[j]? = some b := by
  induction h_path with
  | single h_step =>
    obtain ⟨list, h_list, i, h_a, h_b⟩ := contains_follows_iff.1 h_step
    exact ⟨list, h_list, i, i + 1, Nat.lt_succ_self i, h_a, h_b⟩
  | tail _ h_step ih =>
    obtain ⟨list, h_list, i, j, h_lt, h_a, h_j⟩ := ih
    obtain ⟨other, h_other, k, h_k, h_c⟩ := contains_follows_iff.1 h_step
    -- The number in the middle stands at one place only, so the last step goes on from there.
    obtain ⟨rfl, rfl⟩ := h.numbered_place_unique h_list h_other h_j h_k
    exact ⟨list, h_list, i, j + 1, Nat.lt_succ_of_lt h_lt, h_a, h_c⟩

/-- From a member of a list there is a path of Follows to every later one. -/
theorem joined_of_before {list : List (Stmt StatementId)} (h_list : p.IsList list) {i j : Nat}
    (h_lt : i < j) (h_a : (p.numbersOf list)[i]? = some a) (h_b : (p.numbersOf list)[j]? = some b) :
    (ofProgram p).follows.direct.Joined a b := by
  induction j, h_lt using Nat.le_induction generalizing b with
  | base => exact .single (contains_follows_iff.2 ⟨list, h_list, i, h_a, h_b⟩)
  | succ j h_lt ih =>
    obtain ⟨h_j, -⟩ := List.getElem?_eq_some_iff.1 h_b
    have h_last := List.getElem?_eq_getElem (Nat.lt_of_succ_lt h_j)
    exact .tail (ih h_last) (contains_follows_iff.2 ⟨list, h_list, j, h_last, h_b⟩)

/-- Follows* is the order of the members of a list. -/
theorem contains_followsStar_iff (h : p.WellFormed) :
    (ofProgram p).follows.star.contains a b ↔ ∃ list, p.IsList list ∧ ∃ i j : Nat, i < j ∧
      (p.numbersOf list)[i]? = some a ∧ (p.numbersOf list)[j]? = some b := by
  rw [exact_follows h a b]
  constructor
  · exact before_of_joined h
  · rintro ⟨list, h_list, i, j, h_lt, h_a, h_b⟩
    exact joined_of_before h_list h_lt h_a h_b

/-! ## Parent -/

/-- A path of Parent leads to a nested statement. -/
theorem nested_of_joined (h : p.WellFormed) (h_path : (ofProgram p).parent.direct.Joined a b) :
    ∃ s ∈ p.statements, p.number s.tag = a ∧ ∃ t ∈ s.nested, p.number t.tag = b := by
  induction h_path with
  | single h_step =>
    obtain ⟨s, hs, h_a, c, hc, h_b⟩ := (contains_parent h).1 h_step
    exact ⟨s, hs, h_a, c, Stmt.mem_nested_of_child hc (Stmt.mem_preorder_self c), h_b⟩
  | tail _ h_step ih =>
    obtain ⟨s, hs, h_a, t, ht, h_t⟩ := ih
    obtain ⟨u, hu, h_u, c, hc, h_c⟩ := (contains_parent h).1 h_step
    -- The container of the last step is the nested statement that was reached before it.
    obtain rfl := h.eq_of_number (mem_statements_of_nested hs ht) hu (h_t.trans h_u.symm)
    exact ⟨s, hs, h_a, c, Stmt.mem_nested_trans ht
      (Stmt.mem_nested_of_child hc (Stmt.mem_preorder_self c)), h_c⟩

/-- From a statement there is a path of Parent to everything nested in it. -/
theorem joined_of_nested (h : p.WellFormed) {s t : Stmt StatementId} (hs : s ∈ p.statements)
    (ht : t ∈ s.nested) : (ofProgram p).parent.direct.Joined (p.number s.tag) (p.number t.tag) := by
  induction s using Stmt.childInduction with
  | h s ih =>
    obtain ⟨c, hc, h_t⟩ := Stmt.mem_preorderList_iff.1 ht
    have h_step : (ofProgram p).parent.direct.contains (p.number s.tag) (p.number c.tag) :=
      (contains_parent h).2 ⟨s, hs, rfl, c, hc, rfl⟩
    rw [Stmt.preorder_eq, List.mem_cons] at h_t
    rcases h_t with rfl | h_t
    · exact .single h_step
    · have h_c := mem_statements_of_nested hs
        (Stmt.mem_nested_of_child hc (Stmt.mem_preorder_self c))
      exact .head h_step (ih c hc h_c h_t)

/-- Parent* leads from a statement to the numbers of the interval after it. -/
theorem contains_parentStar_iff (h : p.WellFormed) :
    (ofProgram p).parent.star.contains a b ↔ ∃ s ∈ p.statements, p.number s.tag = a ∧
      a < b ∧ b ≤ a + s.nested.length := by
  rw [exact_parent h a b]
  constructor
  · intro h_path
    obtain ⟨s, hs, rfl, h_nested⟩ := nested_of_joined h h_path
    exact ⟨s, hs, rfl, (h.exists_nested_iff hs).1 h_nested⟩
  · rintro ⟨s, hs, rfl, h_range⟩
    obtain ⟨t, ht, rfl⟩ := (h.exists_nested_iff hs).2 h_range
    exact joined_of_nested h hs ht

/-! ## Programs that were read -/

/-- In a program that was read, Follows joins neighbours in a statement list and Follows* all that
    stand in one list in this order; Parent joins a statement to the members of its blocks and
    Parent* to all that is nested in it, which is the interval of numbers after its own. -/
theorem follows_parent_iff_text {source : String} {p : Program}
    (h_read : Program.read source = .ok p) :
    (∀ a b, (ofProgram p.numbered).follows.direct.contains a b ↔
      ∃ list, p.numbered.IsList list ∧ ∃ i,
        (p.numbered.numbersOf list)[i]? = some a ∧ (p.numbered.numbersOf list)[i + 1]? = some b) ∧
    (∀ a b, (ofProgram p.numbered).follows.star.contains a b ↔
      ∃ list, p.numbered.IsList list ∧ ∃ i j : Nat, i < j ∧
        (p.numbered.numbersOf list)[i]? = some a ∧ (p.numbered.numbersOf list)[j]? = some b) ∧
    (∀ a b, (ofProgram p.numbered).parent.direct.contains a b ↔
      ∃ s ∈ p.numbered.statements, p.numbered.number s.tag = a ∧
        ∃ block ∈ s.blocks, ∃ t ∈ block, p.numbered.number t.tag = b) ∧
    (∀ a b, (ofProgram p.numbered).parent.star.contains a b ↔
      ∃ s ∈ p.numbered.statements, p.numbered.number s.tag = a ∧ a < b ∧ b ≤ a + s.nested.length) ∧
    (∀ s ∈ p.numbered.statements, p.numbered.numbersOf s.nested =
      List.range' (p.numbered.number s.tag + 1) s.nested.length) := by
  have h := Program.wellFormed_of_read h_read
  refine ⟨fun a b => contains_follows_iff, fun a b => contains_followsStar_iff h, fun a b => ?_,
    fun a b => contains_parentStar_iff h, fun s hs => h.map_number_nested hs⟩
  rw [contains_parent h]
  simp only [Stmt.children, List.mem_flatten]
  constructor
  · rintro ⟨s, hs, h_a, c, ⟨block, h_block, hc⟩, h_b⟩
    exact ⟨s, hs, h_a, block, h_block, c, hc, h_b⟩
  · rintro ⟨s, hs, h_a, block, h_block, c, hc, h_b⟩
    exact ⟨s, hs, h_a, c, ⟨block, h_block, hc⟩, h_b⟩

/-- A loop with an `if` in it: Follows* skips the numbers inside, and Parent* ends with them. -/
theorem nesting_of_loop :
    ∃ p, Program.read ("procedure main \x7b x = 1; while (x > 0) \x7b y = x; if (y == 1) then " ++
        "\x7b print y; \x7d else \x7b read y; \x7d \x7d print x; \x7d") = .ok p ∧
      (ofProgram p.numbered).follows.star.contains 1 7 ∧
      (ofProgram p.numbered).parent.star.contains 2 6 ∧
      ¬ (ofProgram p.numbered).parent.star.contains 2 7 := by
  refine exists_ok_of_test (fun p => decide (
    p.numbered.procedures.map (fun q => p.numbered.numbersOf q.body) = [[1, 2, 7]] ∧
    p.numbered.statements.map (fun s => (p.numbered.number s.tag, s.nested.length)) =
      [(1, 0), (2, 4), (3, 0), (4, 2), (5, 0), (6, 0), (7, 0)])) (by decide +kernel)
    fun p h_read h_test => ?_
  obtain ⟨h_body, h_nested⟩ := of_decide_eq_true h_test
  obtain ⟨-, h_followsStar, -, h_parentStar, -⟩ := follows_parent_iff_text h_read
  refine ⟨(h_followsStar 1 7).2 ?_, (h_parentStar 2 6).2 ?_, fun h_wrong => ?_⟩
  · obtain ⟨q, hq, h_numbers⟩ := List.mem_map.1 (h_body ▸ List.mem_singleton_self [1, 2, 7])
    exact ⟨q.body, .inl ⟨q, hq, rfl⟩, 0, 2, by decide, by rw [h_numbers]; rfl,
      by rw [h_numbers]; rfl⟩
  · have h_loop : (2, 4) ∈ p.numbered.statements.map
        fun s => (p.numbered.number s.tag, s.nested.length) := by simp [h_nested]
    obtain ⟨s, hs, h_s⟩ := List.mem_map.1 h_loop
    obtain ⟨h_number, h_length⟩ := Prod.mk.inj h_s
    exact ⟨s, hs, h_number, by decide, by rw [h_length]⟩
  · obtain ⟨s, hs, h_number, -, h_le⟩ := (h_parentStar 2 7).1 h_wrong
    have h_own : (p.numbered.number s.tag, s.nested.length) ∈ p.numbered.statements.map
        fun s => (p.numbered.number s.tag, s.nested.length) := List.mem_map_of_mem hs
    rw [h_nested, h_number] at h_own
    have h_length : s.nested.length = 4 := by simpa using h_own
    rw [h_length] at h_le
    exact absurd h_le (by decide)

end FactBase

end ProgramQuery
