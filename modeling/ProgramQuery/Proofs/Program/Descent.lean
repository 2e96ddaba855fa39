/-
  ProgramQuery.Proofs.Program.Descent

  Going down through the arena.

  Wherever ids have trees, every way down from them ends and agrees with the trees
  (`levelInduction`).  Here are two ways down: a loop with a stack of its own, and the
  recursion that hands out numbers.  In a forest ids shrink on the way down, so all its ids
  have trees (`IsForest.exists_trees`).
-/

import ProgramQuery.Proofs.Program.Forest

namespace ProgramQuery

open Relation (ReflTransGen)

namespace Program

variable {p : Program}

/-! ## Trees of a forest -/

/-- Ids that shrink on the way down make it end. -/
theorem ends_of_below
    (h : ∀ outer s, p.statement? outer = some s → ∀ inner ∈ s.kind.children, inner < outer)
    (root : StatementId) : p.Ends root := by
  have h_sub : Subrelation (fun inner outer => p.Encloses outer inner) (· < ·) := by
    rintro inner outer ⟨s, h_s, h_inner⟩
    exact h outer s h_s inner h_inner
  exact h_sub.accessible (Nat.lt_wfRel.wf.apply root)

theorem IsForest.staysInside (h : p.IsForest) {root : StatementId}
    (h_root : root < p.statements.size) : p.StaysInside root := by
  intro id h_path
  induction h_path with
  | refl => exact h_root
  | tail _ h_edge ih =>
    obtain ⟨s, h_s, h_inner⟩ := h_edge
    exact Nat.lt_trans (h.below _ s h_s _ h_inner) ih

/-- In a forest all ids of the arena have trees. -/
theorem IsForest.exists_trees (h : p.IsForest) {list : List StatementId}
    (h_list : ∀ id ∈ list, id < p.statements.size) : ∃ ts, p.trees list = some ts :=
  exists_trees_iff.2 fun root h_root =>
    ⟨ends_of_below h.below root, h.staysInside (h_list root h_root)⟩

/-- Induction along a list of standing trees and down into them, where each level of the trees takes
    one of `depth` levels. -/
theorem levelInduction {Q : Nat → List (Stmt StatementId) → Prop} (nil : ∀ depth, Q depth [])
    (cons : ∀ depth t s rest, p.statement? t.tag = some s → s.kind = t.kind →
      (∀ ts, ts ⊆ t.children → Q depth ts) → Q (depth + 1) rest → Q (depth + 1) (t :: rest))
    {depth : Nat} {ts : List (Stmt StatementId)} (h_ts : ∀ t ∈ ts, p.Stands t)
    (h_depth : ∀ t ∈ ts, t.height ≤ depth) : Q depth ts := by
  induction depth generalizing ts with
  | zero =>
    cases ts with
    | nil => exact nil 0
    | cons t rest =>
      exact absurd (h_depth t (List.mem_cons_self ..)) (Nat.not_le_of_lt t.height_pos)
  | succ depth ih_depth =>
    induction ts with
    | nil => exact nil _
    | cons t rest ih_rest =>
      obtain ⟨h_t, h_ts⟩ := List.forall_mem_cons.1 h_ts
      obtain ⟨h_height, h_depth⟩ := List.forall_mem_cons.1 h_depth
      obtain ⟨⟨s, h_s, h_kind⟩, h_children⟩ := stands_iff.1 h_t
      refine cons depth t s rest h_s h_kind (fun us h_us => ?_) (ih_rest h_ts h_depth)
      exact ih_depth (fun u hu => h_children u (h_us hu)) fun u hu =>
        Stmt.height_le_succ_iff.1 h_height u (h_us hu)

end Program

/-- The tags of trees and of all that is nested in them, in reading order. -/
def Stmt.readingOrder (ts : List (Stmt StatementId)) : List StatementId :=
  (Stmt.preorderList ts).map Stmt.tag

/-- A statement is read before what is inside it, and that before what follows. -/
theorem Stmt.readingOrder_cons (t : Stmt StatementId) (rest : List (Stmt StatementId)) :
    readingOrder (t :: rest) = t.tag :: (readingOrder t.children ++ readingOrder rest) := by
  rw [readingOrder, preorderList_cons, preorder_eq]
  simp [readingOrder]

namespace Program

/-! ## The loop with a stack -/

/-- Takes ids off the end of a stack until it is empty, in at most `rounds` rounds.  The ids
    inside each go onto the stack in reverse, so that the first of them is the next to be
    taken.  There is no result if an id is not in the arena. -/
def walk (p : Program) : Nat → List StatementId → List StatementId → Option (List StatementId)
  | 0, found, stack => if stack.isEmpty then some found else none
  | rounds + 1, found, stack =>
    match stack.getLast? with
    | none => some found
    | some id => do
      let s ← p.statement? id
      p.walk rounds (found ++ [id]) (stack.dropLast ++ s.kind.children.reverse)

/-- The statements of a list and all that is nested in them, found by the loop. -/
def descendants (p : Program) (rounds : Nat) (list : List StatementId) :
    Option (List StatementId) :=
  p.walk rounds [] list.reverse

theorem walk_empty (p : Program) (rounds : Nat) (found : List StatementId) :
    p.walk rounds found [] = some found := by
  cases rounds <;> rfl

theorem walk_concat {p : Program} {id : StatementId} {s : Statement}
    (h_s : p.statement? id = some s) (rounds : Nat) (found stack : List StatementId) :
    p.walk (rounds + 1) found (stack ++ [id]) =
      p.walk rounds (found ++ [id]) (stack ++ s.kind.children.reverse) := by
  simp [walk, h_s]

variable {p : Program} {ts : List (Stmt StatementId)}

/-- The loop takes the tags of trees off the stack with all that is nested in them, in reading
    order, and then goes on with what is below. -/
theorem walk_reverse (h : ∀ t ∈ ts, p.Stands t) (rounds : Nat) (found stack : List StatementId) :
    p.walk (rounds + (Stmt.readingOrder ts).length) found (stack ++ (ts.map Stmt.tag).reverse) =
      p.walk rounds (found ++ Stmt.readingOrder ts) stack := by
  refine levelInduction (Q := fun _ ts => ∀ rounds found stack,
    p.walk (rounds + (Stmt.readingOrder ts).length) found (stack ++ (ts.map Stmt.tag).reverse) =
      p.walk rounds (found ++ Stmt.readingOrder ts) stack) (by simp [Stmt.readingOrder])
    (fun _ t s rest h_s h_kind ih_inner ih_rest rounds found stack => ?_) h
    (fun t ht => (h t ht).height_le) rounds found stack
  have h_inner := ih_inner t.children (List.Subset.refl _)
  rw [← Stmt.children_kind, ← h_kind] at h_inner
  have h_length :
      rounds + (t.tag :: (Stmt.readingOrder t.children ++ Stmt.readingOrder rest)).length =
        rounds + (Stmt.readingOrder rest).length + (Stmt.readingOrder t.children).length + 1 := by
    simp only [List.length_cons, List.length_append]
    omega
  rw [Stmt.readingOrder_cons, h_length, List.map_cons, List.reverse_cons, ← List.append_assoc,
    walk_concat h_s, h_inner, ih_rest]
  simp only [List.append_assoc, List.cons_append, List.nil_append]

/-- The loop ends after as many rounds as there are statements in the trees, and it finds them in
    reading order. -/
theorem descendants_eq {list : List StatementId} (h : p.trees list = some ts) {rounds : Nat}
    (h_rounds : (Stmt.readingOrder ts).length ≤ rounds) :
    p.descendants rounds list = some (Stmt.readingOrder ts) := by
  obtain ⟨rfl, h_stand⟩ := trees_eq_some_iff.1 h
  obtain ⟨more, rfl⟩ := Nat.exists_eq_add_of_le' h_rounds
  have h_walk := walk_reverse h_stand more [] []
  rw [List.nil_append, List.nil_append, walk_empty] at h_walk
  exact h_walk

end Program

/-! ## The recursion that numbers -/

namespace Numbering

/-- Gives a statement the next number. -/
def visit (n : Numbering) (id : StatementId) : Numbering where
  byNumber := n.byNumber.push id
  byId := n.byId.setIfInBounds id (n.byNumber.size + 1)

@[simp] theorem size_byId_visit (n : Numbering) (id : StatementId) :
    (n.visit id).byId.size = n.byId.size :=
  Array.size_setIfInBounds

theorem size_byId_foldl_visit (ids : List StatementId) (n : Numbering) :
    (ids.foldl visit n).byId.size = n.byId.size := by
  induction ids generalizing n with
  | nil => rfl
  | cons id rest ih => rw [List.foldl_cons, ih, size_byId_visit]

/-- Numbers that are given out one by one are the numbers of the visits. -/
theorem foldl_visit (size : Nat) (ids : List StatementId) :
    ids.foldl visit ⟨#[], Array.replicate size 0⟩ = ofVisits size ids := by
  have h_from : ∀ byNumber byId, ids.foldl visit ⟨byNumber, byId⟩ =
      ⟨byNumber ++ ids.toArray, (ids.zipIdx (byNumber.size + 1)).foldl
        (fun numbers visit => numbers.setIfInBounds visit.1 visit.2) byId⟩ := by
    induction ids with
    | nil => simp
    | cons id rest ih =>
      intro byNumber byId
      rw [List.foldl_cons, visit, ih, List.zipIdx_cons, List.foldl_cons]
      simp
  rw [h_from, ofVisits, Array.empty_append]
  rfl

end Numbering

namespace Program

/-- Gives a statement its number and goes through the lists inside it, down to `depth` levels.
    There is no result if an id is not in the arena or has no place for its number. -/
def numberAt (p : Program) : Nat → Numbering → StatementId → Option Numbering
  | 0, _, _ => none
  | depth + 1, n, id => do
    let s ← p.statement? id
    if id < n.byId.size then
      s.kind.blocks.foldlM (fun n block => block.foldlM (p.numberAt depth) n) (n.visit id)
    else none

/-- Numbers the statements of a list and all that is nested in them. -/
def numberList (p : Program) (depth : Nat) (n : Numbering) (list : List StatementId) :
    Option Numbering :=
  list.foldlM (p.numberAt depth) n

/-- Numbers the procedures one after the other. -/
def numberProcedures (p : Program) : Option Numbering :=
  p.procedures.foldlM (fun n q => p.numberList p.statements.size n q.body)
    ⟨#[], Array.replicate p.statements.size 0⟩

/-- Going through lists one by one is going through what they hold. -/
theorem foldlM_blocks {α β : Type} (step : β → α → Option β) (lists : List (List α)) (start : β) :
    lists.foldlM (fun b list => list.foldlM step b) start = lists.flatten.foldlM step start := by
  induction lists generalizing start with
  | nil => rfl
  | cons list rest ih =>
    rw [List.foldlM_cons, List.flatten_cons, List.foldlM_append]
    exact bind_congr fun b => ih b

variable {p : Program} {ts : List (Stmt StatementId)}

/-- The recursion gives out numbers in reading order. -/
theorem numberList_eq (h : ∀ t ∈ ts, p.Stands t) {depth : Nat}
    (h_depth : ∀ t ∈ ts, t.height ≤ depth) {n : Numbering} (h_n : n.byId.size = p.statements.size) :
    p.numberList depth n (ts.map Stmt.tag) =
      some ((Stmt.readingOrder ts).foldl Numbering.visit n) := by
  refine levelInduction (Q := fun depth ts => ∀ n : Numbering, n.byId.size = p.statements.size →
    p.numberList depth n (ts.map Stmt.tag) =
      some ((Stmt.readingOrder ts).foldl Numbering.visit n)) (fun _ _ _ => rfl)
    (fun depth t s rest h_s h_kind ih_inner ih_rest n h_n => ?_) h h_depth n h_n
  have h_first : p.numberAt (depth + 1) n t.tag =
      some ((Stmt.readingOrder t.children).foldl Numbering.visit (n.visit t.tag)) := by
    have h_place : t.tag < n.byId.size := h_n ▸ lt_size_of_statement? h_s
    rw [numberAt, h_s, Option.bind_eq_bind, Option.bind_some, if_pos h_place, foldlM_blocks,
      h_kind]
    change p.numberList depth _ t.kind.children = _
    rw [Stmt.children_kind]
    exact ih_inner _ (List.Subset.refl _) _ (by rw [Numbering.size_byId_visit, h_n])
  have h_after : ((Stmt.readingOrder t.children).foldl Numbering.visit (n.visit t.tag)).byId.size =
      p.statements.size := by
    rw [Numbering.size_byId_foldl_visit, Numbering.size_byId_visit, h_n]
  rw [numberList, List.map_cons, List.foldlM_cons, h_first, Stmt.readingOrder_cons,
    List.foldl_cons, List.foldl_append]
  exact ih_rest _ h_after

/-- The recursion over all procedures gives the numbers of the program. -/
theorem numberProcedures_eq {qs : List ProcedureTree} (h : p.procedureTrees? = some qs) :
    p.numberProcedures = some (NumberedProgram.ofTrees p qs).numbering := by
  have h_from : ∀ (rs : List Procedure) (qs : List ProcedureTree),
      rs.mapM p.procedureTree? = some qs → ∀ n : Numbering, n.byId.size = p.statements.size →
      rs.foldlM (fun n r => p.numberList p.statements.size n r.body) n =
        some ((qs.flatMap fun q => q.statements.map Stmt.tag).foldl Numbering.visit n) := by
    intro rs
    induction rs with
    | nil =>
      intro qs h_qs n _
      cases h_qs
      rfl
    | cons r rest ih =>
      intro qs h_qs n h_n
      simp only [List.mapM_cons, Option.bind_eq_bind, Option.bind_eq_some_iff, Option.pure_def,
        Option.some.injEq] at h_qs
      obtain ⟨q, h_q, more, h_more, rfl⟩ := h_qs
      obtain ⟨h_tags, h_stand⟩ := trees_eq_some_iff.1 (procedureTree?_eq_some_iff.1 h_q).2
      have h_body := numberList_eq h_stand (fun t ht => (h_stand t ht).height_le) h_n
      rw [List.foldlM_cons, ← h_tags, h_body, List.flatMap_cons, List.foldl_append]
      refine ih more h_more _ ?_
      rw [Numbering.size_byId_foldl_visit, h_n]
  have h_all := h_from p.procedures qs h ⟨#[], Array.replicate p.statements.size 0⟩
    Array.size_replicate
  rw [Numbering.foldl_visit] at h_all
  exact h_all

end Program

end ProgramQuery
