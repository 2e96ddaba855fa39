/-
  ProgramQuery.Proofs.Facts.Recursion

  The ways down through the arena end and stay inside it.

  Flow and effects are read off the unfolded trees.  Here they are also recursions over
  the arena itself, which look every id and every number up and may fail to find it.
  Where ids have trees, the recursions find everything and agree with the trees, like the
  loop with a stack and the recursion that hands out numbers.  In a forest all ids have
  trees.
-/

import ProgramQuery.Proofs.Facts.Effects
import ProgramQuery.Proofs.Flow.Paths
import ProgramQuery.Proofs.Program.Descent

namespace ProgramQuery

open NumberedProgram (Effect ProcedureEffects ownEffect effectOf)

namespace Program

/-! ## Flow -/

/-- The flow through a list that control enters from `preds`, given the flow through statements. -/
def flowList (flow : List StatementNumber → StatementId → Option Flow.Passage) :
    List StatementNumber → List StatementId → Option Flow.Passage
  | preds, [] => some ⟨[], preds⟩
  | preds, id :: rest => do
    let first ← flow preds id
    let last ← flowList flow first.exits rest
    some ⟨first.edges ++ last.edges, last.exits⟩

/-- The flow through a statement that control enters from `preds`, down to `depth` levels.  There is
    no result if an id is not in the arena or has no number. -/
def flowAt (p : Program) (n : Numbering) :
    Nat → List StatementNumber → StatementId → Option Flow.Passage
  | 0, _, _ => none
  | depth + 1, preds, id => do
    let num ← n.byId[id]?
    let s ← p.statement? id
    match s.kind with
    | .simple _ => some ⟨preds.map (·, num), [num]⟩
    | .whileLoop _ body =>
      let inner ← flowList (p.flowAt n depth) [num] body
      some ⟨preds.map (·, num) ++ inner.edges ++ inner.exits.map (·, num), [num]⟩
    | .ifElse _ thenBranch elseBranch =>
      let yes ← flowList (p.flowAt n depth) [num] thenBranch
      let no ← flowList (p.flowAt n depth) [num] elseBranch
      some ⟨preds.map (·, num) ++ yes.edges ++ no.edges, yes.exits ++ no.exits⟩

theorem getElem?_byId {n : Numbering} {id : StatementId} (h : id < n.byId.size) :
    n.byId[id]? = some (n.number id) := by
  rw [Numbering.number, Array.getElem?_eq_getElem h, Option.getD_some]

/-- The recursion finds the flow through the trees. -/
theorem flowList_eq {p : Program} {n : Numbering} (h_n : n.byId.size = p.statements.size)
    {ts : List (Stmt StatementId)} (h : ∀ t ∈ ts, p.Stands t) {depth : Nat}
    (h_depth : ∀ t ∈ ts, t.height ≤ depth) (preds : List StatementNumber) :
    flowList (p.flowAt n depth) preds (ts.map Stmt.tag) =
      some (Flow.linkList n.number preds ts) := by
  refine levelInduction (Q := fun depth ts => ∀ preds,
    flowList (p.flowAt n depth) preds (ts.map Stmt.tag) =
      some (Flow.linkList n.number preds ts)) (fun _ _ => by simp [flowList])
    (fun depth t s rest h_s h_kind ih_inner ih_rest preds => ?_) h h_depth preds
  have h_first : p.flowAt n (depth + 1) preds t.tag = some (Flow.link n.number preds t) := by
    have h_num := getElem?_byId (n := n) (h_n ▸ lt_size_of_statement? h_s)
    have h_blocks : ∀ block ∈ t.blocks, ∀ preds,
        flowList (p.flowAt n depth) preds (block.map Stmt.tag) =
          some (Flow.linkList n.number preds block) := fun block h_block =>
      ih_inner block fun c hc => List.mem_flatten.2 ⟨block, h_block, hc⟩
    simp only [flowAt, h_num, h_s, h_kind, Option.bind_eq_bind, Option.bind_some]
    cases t with
    | simple tag action => simp only [Stmt.kind, Flow.link, Stmt.tag]
    | whileLoop tag cond body =>
      have h_body := h_blocks body (by simp [Stmt.blocks])
      simp only [Stmt.kind, h_body, Option.bind_some, Flow.link, Stmt.tag]
    | ifElse tag cond thenBranch elseBranch =>
      have h_then := h_blocks thenBranch (by simp [Stmt.blocks])
      have h_else := h_blocks elseBranch (by simp [Stmt.blocks])
      simp only [Stmt.kind, h_then, h_else, Option.bind_some, Flow.link, Stmt.tag]
  rw [List.map_cons, flowList, h_first, Flow.linkList_cons, Option.bind_eq_bind, Option.bind_some,
    ih_rest, Option.bind_some]

end Program

/-! ## Effects -/

/-- The statement alone, without what is nested in it. -/
def StatementKind.bare (id : StatementId) : StatementKind → Stmt StatementId
  | .simple action => .simple id action
  | .whileLoop cond _ => .whileLoop id cond []
  | .ifElse cond _ _ => .ifElse id cond [] []

namespace NumberedProgram

theorem effectOf_append (effect : Effect) (known : ProcedureEffects)
    (ss ts : List (Stmt StatementId)) :
    effectOf effect known (ss ++ ts) = effectOf effect known ss ∪ effectOf effect known ts := by
  refine Std.ExtTreeSet.ext_mem fun var => ?_
  simp only [Std.ExtTreeSet.mem_union_iff, mem_effectOf, List.mem_append, or_and_right, exists_or]

theorem effectOf_cons (effect : Effect) (known : ProcedureEffects) (s : Stmt StatementId)
    (ss : List (Stmt StatementId)) :
    effectOf effect known (s :: ss) = ownEffect effect known s ∪ effectOf effect known ss := by
  refine Std.ExtTreeSet.ext_mem fun var => ?_
  simp only [Std.ExtTreeSet.mem_union_iff, mem_effectOf, mem_ownEffect, List.exists_mem_cons_iff]

end NumberedProgram

/-- The facts about what a statement affects with all that is nested in it. -/
def Numbering.effectRow (n : Numbering) (effect : Effect) (known : ProcedureEffects)
    (s : Stmt StatementId) : List Fact :=
  (effectOf effect known s.preorder).toList.map (effect.statementFact (n.number s.tag))

namespace Program

/-- The variables that a list of statements affects and the facts about them, given those of
    the statements. -/
def effectList (found : StatementId → Option (NameSet × List Fact)) :
    List StatementId → Option (NameSet × List Fact)
  | [] => some (∅, [])
  | id :: rest => do
    let first ← found id
    let last ← effectList found rest
    some (first.1 ∪ last.1, first.2 ++ last.2)

/-- The variables that a statement affects with all that is nested in it, and the facts about
    them, down to `depth` levels.  There is no result if an id is not in the arena or has no
    number. -/
def effectAt (p : Program) (n : Numbering) (effect : Effect) (known : ProcedureEffects) :
    Nat → StatementId → Option (NameSet × List Fact)
  | 0, _ => none
  | depth + 1, id => do
    let s ← p.statement? id
    let inner ← effectList (p.effectAt n effect known depth) s.kind.children
    let vars := ownEffect effect known (s.kind.bare id) ∪ inner.1
    let num ← n.byId[id]?
    some (vars, inner.2 ++ vars.toList.map (effect.statementFact num))

/-- The recursion finds the effects of a statement if it finds those inside it. -/
theorem effectAt_succ {p : Program} {n : Numbering} {effect : Effect} {known : ProcedureEffects}
    {t : Stmt StatementId} {s : Statement} (h_s : p.statement? t.tag = some s)
    (h_kind : s.kind = t.kind) (h_tag : t.tag < n.byId.size) {depth : Nat} {inner : List Fact}
    (h_inner : effectList (p.effectAt n effect known depth) (t.children.map Stmt.tag) =
      some (effectOf effect known (Stmt.preorderList t.children), inner)) :
    p.effectAt n effect known (depth + 1) t.tag =
      some (effectOf effect known t.preorder, inner ++ n.effectRow effect known t) := by
  have h_own : ownEffect effect known (t.kind.bare t.tag) = ownEffect effect known t := by
    cases t <;> simp only [Stmt.kind, Stmt.tag, StatementKind.bare, ownEffect]
  have h_vars : ownEffect effect known (t.kind.bare t.tag) ∪
      effectOf effect known (Stmt.preorderList t.children) = effectOf effect known t.preorder := by
    rw [h_own, Stmt.preorder_eq, NumberedProgram.effectOf_cons]
  rw [← Stmt.children_kind] at h_inner
  simp only [effectAt, h_s, h_kind, h_inner, getElem?_byId h_tag, h_vars, Option.bind_eq_bind,
    Option.bind_some, Numbering.effectRow]

/-- The recursion finds the effects of the trees. -/
theorem exists_effectList {p : Program} {n : Numbering} (h_n : n.byId.size = p.statements.size)
    (effect : Effect) (known : ProcedureEffects) {ts : List (Stmt StatementId)}
    (h : ∀ t ∈ ts, p.Stands t) {depth : Nat} (h_depth : ∀ t ∈ ts, t.height ≤ depth) :
    ∃ rows, effectList (p.effectAt n effect known depth) (ts.map Stmt.tag) =
        some (effectOf effect known (Stmt.preorderList ts), rows) ∧
      rows.Perm ((Stmt.preorderList ts).flatMap (n.effectRow effect known)) := by
  refine levelInduction (Q := fun depth ts => ∃ rows,
    effectList (p.effectAt n effect known depth) (ts.map Stmt.tag) =
        some (effectOf effect known (Stmt.preorderList ts), rows) ∧
      rows.Perm ((Stmt.preorderList ts).flatMap (n.effectRow effect known)))
    (fun _ => ⟨[], by simp [effectList, effectOf], by simp⟩)
    (fun depth t s rest h_s h_kind ih_inner ih_rest => ?_) h h_depth
  obtain ⟨inner, h_inner, h_inner_rows⟩ := ih_inner _ (List.Subset.refl _)
  obtain ⟨last, h_last, h_last_rows⟩ := ih_rest
  have h_first := effectAt_succ h_s h_kind (h_n ▸ lt_size_of_statement? h_s) h_inner
  refine ⟨inner ++ n.effectRow effect known t ++ last, ?_, ?_⟩
  · rw [List.map_cons, effectList, h_first, h_last, Stmt.preorderList_cons,
      NumberedProgram.effectOf_append]
    rfl
  · -- The rows of a statement come after those inside it, but stand before them in the tree.
    rw [Stmt.preorderList_cons, List.flatMap_append, Stmt.preorder_eq, List.flatMap_cons]
    refine List.Perm.append ?_ h_last_rows
    exact (h_inner_rows.append_right _).trans List.perm_append_comm

/-! ## All ways down -/

/-- All ways down from a list end, find every id and every number, and agree with the trees: the
    loop with a stack, and the recursions for numbers, flow and effects. -/
structure DescentsEnd (p : Program) (list : List StatementId) (ts : List (Stmt StatementId)) :
    Prop where
  trees : p.trees list = some ts
  /-- No id of the list is missing among the trees. -/
  tags : ts.map Stmt.tag = list
  loop : ∀ rounds, (Stmt.readingOrder ts).length ≤ rounds →
    p.descendants rounds list = some (Stmt.readingOrder ts)
  numbers : ∀ depth, p.statements.size ≤ depth → ∀ n : Numbering,
    n.byId.size = p.statements.size →
      p.numberList depth n list = some ((Stmt.readingOrder ts).foldl Numbering.visit n)
  flow : ∀ depth, p.statements.size ≤ depth → ∀ n : Numbering, n.byId.size = p.statements.size →
    ∀ preds, flowList (p.flowAt n depth) preds list = some (Flow.linkList n.number preds ts)
  effects : ∀ depth, p.statements.size ≤ depth → ∀ n : Numbering, n.byId.size = p.statements.size →
    ∀ effect known, ∃ rows, effectList (p.effectAt n effect known depth) list =
        some (effectOf effect known (Stmt.preorderList ts), rows) ∧
      rows.Perm ((Stmt.preorderList ts).flatMap (n.effectRow effect known))

/-- Where ids have trees, all ways down from them end. -/
theorem descentsEnd_of_trees {p : Program} {list : List StatementId}
    {ts : List (Stmt StatementId)} (h : p.trees list = some ts) : p.DescentsEnd list ts := by
  obtain ⟨rfl, h_stand⟩ := trees_eq_some_iff.1 h
  have h_levels : ∀ depth, p.statements.size ≤ depth → ∀ t ∈ ts, t.height ≤ depth :=
    fun depth h_depth t ht => Nat.le_trans (h_stand t ht).height_le h_depth
  exact
    { trees := h
      tags := rfl
      loop := fun rounds h_rounds => descendants_eq h h_rounds
      numbers := fun depth h_depth n h_n => numberList_eq h_stand (h_levels depth h_depth) h_n
      flow := fun depth h_depth n h_n => flowList_eq h_n h_stand (h_levels depth h_depth)
      effects := fun depth h_depth n h_n effect known =>
        exists_effectList h_n effect known h_stand (h_levels depth h_depth) }

/-- A program that was read is a forest: pushing its statements one by one, while the blocks around
    them are still open, has left every id in one list, with its container as its parent.  So
    the program has its trees, every way down from any of its ids ends, and every id and number
    that is looked up on the way is there. -/
theorem forest_of_read {source : String} {p : Program} (h : read source = .ok p) :
    p.IsForest ∧ p.numbered? = some p.numbered ∧
      p.numbered.numbering.byId.size = p.statements.size ∧
      ∀ list, (∀ id ∈ list, id < p.statements.size) → ∃ ts, p.DescentsEnd list ts := by
  have h_forest := isForest_of_read h
  refine ⟨h_forest, ?_, ?_, fun list h_list => ?_⟩
  · rw [numbered?, procedureTrees?_of_read h]
    rfl
  · rw [numbered, NumberedProgram.ofTrees, ← Numbering.foldl_visit, Numbering.size_byId_foldl_visit,
      Array.size_replicate]
  · obtain ⟨ts, h_ts⟩ := h_forest.exists_trees h_list
    exact ⟨ts, descentsEnd_of_trees h_ts⟩

/-- A loop comes after its body in the arena, and going down from the body of the procedure it comes
    first. -/
theorem forest_of_loop :
    ∃ p, read "procedure a \x7b while (x > 0) \x7b read y; \x7d print y; \x7d" = .ok p ∧
      p.idLists = [[1, 2], [0]] ∧ p.statements.toList.map Statement.parent = [some 1, none, none] ∧
      p.IsForest ∧ p.descendants 3 [1, 2] = some [1, 0, 2] ∧ ∃ ts, p.DescentsEnd [1, 2] ts := by
  refine exists_ok_of_test (fun p => p.statements.size = 3 ∧ p.idLists = [[1, 2], [0]] ∧
    p.statements.toList.map Statement.parent = [some 1, none, none] ∧
    (p.trees [1, 2]).map Stmt.readingOrder = some [1, 0, 2]) (by decide +kernel)
    fun p h_read h_test => ?_
  obtain ⟨h_size, h_lists, h_parents, h_order⟩ := of_decide_eq_true h_test
  obtain ⟨h_forest, -, -, h_descents⟩ := forest_of_read h_read
  obtain ⟨ts, h_down⟩ := h_descents [1, 2] (by rw [h_size]; decide)
  rw [h_down.trees, Option.map_some, Option.some.injEq] at h_order
  refine ⟨h_lists, h_parents, h_forest, ?_, ts, h_down⟩
  rw [h_down.loop 3 (by rw [h_order]; decide), h_order]

end Program

end ProgramQuery
