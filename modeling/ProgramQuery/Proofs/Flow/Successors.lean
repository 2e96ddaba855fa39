/-
  ProgramQuery.Proofs.Flow.Successors

  The edges of a flow graph are the successors that the text shows.

  The flow graph is built from the inside out: a block is linked to the numbers
  control may come from, and hands on the numbers control may leave from.  The
  successors of a statement are said from the outside in: what comes after a
  statement is the next one of its list, or the loop around the list, or what comes
  after the `if` around the list.  Both agree because an exit of a statement
  is a place from which control goes on to whatever comes after the statement.
-/

import ProgramQuery.Proofs.Flow.NextStar

namespace ProgramQuery

namespace Stmt

variable {α : Type} {body : List (Stmt α)}

/-! ## Successors in the text -/

/-- `t` is where control goes on to when it is done with `s`. -/
inductive After (body : List (Stmt α)) : Stmt α → Stmt α → Prop where
  /-- The next statement of the list. -/
  | next {before after : List (Stmt α)} {s t : Stmt α}
      (h : before ++ s :: t :: after ∈ lists body) : After body s t
  /-- The last statement of a loop body goes back to the loop. -/
  | back {before : List (Stmt α)} {s w : Stmt α} (h_w : w ∈ preorderList body)
      (h_type : w.type = .whileLoop) (h_last : before ++ [s] ∈ w.blocks) : After body s w
  /-- The last statement of a branch goes on to what comes after the `if`. -/
  | out {before : List (Stmt α)} {s i t : Stmt α} (h_i : i ∈ preorderList body)
      (h_type : i.type = .ifElse) (h_last : before ++ [s] ∈ i.blocks) (h_after : After body i t) :
      After body s t

/-- `t` may be executed right after `s`. -/
inductive Successor (body : List (Stmt α)) : Stmt α → Stmt α → Prop where
  /-- A container is followed by the first statement of each of its blocks. -/
  | enter {s t : Stmt α} {rest : List (Stmt α)} (h_s : s ∈ preorderList body)
      (h_first : t :: rest ∈ s.blocks) : Successor body s t
  /-- All but an `if` are followed by what comes after them. -/
  | after {s t : Stmt α} (h_s : s ∈ preorderList body) (h_type : s.type ≠ .ifElse)
      (h_after : After body s t) : Successor body s t

theorem mem_lists_of_block {s : Stmt α} {block : List (Stmt α)} (h_s : s ∈ preorderList body)
    (h_block : block ∈ s.blocks) : block ∈ lists body :=
  List.mem_cons_of_mem _ (List.mem_flatMap.2 ⟨s, h_s, h_block⟩)

/-- A member of one of the lists is a statement of the body. -/
theorem mem_of_mem_lists {list : List (Stmt α)} (h : list ∈ lists body) {s : Stmt α}
    (h_s : s ∈ list) : s ∈ preorderList body := by
  have h_read : s ∈ preorderList list := mem_preorderList_iff.2 ⟨s, h_s, mem_preorder_self s⟩
  rcases List.mem_cons.1 h with rfl | h
  · exact h_read
  · obtain ⟨t, h_t, h_block⟩ := List.mem_flatMap.1 h
    exact mem_preorderList_trans h_t ((preorderList_infix_of_block h_block).subset h_read)

theorem filledList_iff {ss : List (Stmt α)} : FilledList ss ↔ ∀ s ∈ ss, s.Filled := by
  induction ss with
  | nil => simp [FilledList]
  | cons s rest ih => simp [FilledList, ih]

/-- The blocks of a filled statement are filled. -/
theorem Filled.block {s : Stmt α} (h : s.Filled) {block : List (Stmt α)}
    (h_block : block ∈ s.blocks) : block ≠ [] ∧ FilledList block := by
  cases s with
  | simple tag action => simp [blocks] at h_block
  | whileLoop tag cond body =>
    rw [blocks, List.mem_singleton] at h_block
    rw [h_block]
    simpa only [Filled] using h
  | ifElse tag cond thenBranch elseBranch =>
    simp only [Filled] at h
    simp only [blocks, List.mem_cons, List.not_mem_nil, or_false] at h_block
    rcases h_block with rfl | rfl
    · exact h.1
    · exact h.2

/-- A statement that is not an `if` and after which control goes on as after `s`. -/
structure EndOf (body : List (Stmt α)) (s x : Stmt α) : Prop where
  mem : x ∈ preorderList body
  type_ne : x.type ≠ .ifElse
  after : ∀ t, After body s t → After body x t

/-- An end of the last statement of a branch is an end of the `if`. -/
theorem EndOf.out {before : List (Stmt α)} {s i x : Stmt α} (h : EndOf body s x)
    (h_i : i ∈ preorderList body) (h_type : i.type = .ifElse) (h_last : before ++ [s] ∈ i.blocks) :
    EndOf body i x :=
  ⟨h.mem, h.type_ne, fun t h_after => h.after t (.out h_i h_type h_last h_after)⟩

theorem EndOf.successor {s x t : Stmt α} (h : EndOf body s x) (h_after : After body s t) :
    Successor body x t :=
  .after h.mem h.type_ne (h.after t h_after)

end Stmt

namespace Flow

open Stmt

variable {number : Nat → Nat} {body : List (Stmt Nat)}

/-! ## Exits -/

/-- Where control leaves a statement does not depend on where it came from. -/
theorem exits_link (preds preds' : List Nat) (s : Stmt Nat) :
    (link number preds s).exits = (link number preds' s).exits := by
  cases s <;> simp only [link]

/-- A list is left where its last statement is left. -/
theorem exits_linkList_concat (preds preds' : List Nat) (before : List (Stmt Nat)) (s : Stmt Nat) :
    (linkList number preds (before ++ [s])).exits = (link number preds' s).exits := by
  induction before generalizing preds with
  | nil =>
    rw [List.nil_append, linkList_cons, linkList_nil]
    exact exits_link preds preds' s
  | cons t rest ih =>
    rw [List.cons_append, linkList_cons]
    exact ih _

/-- An `if` is left where its branches are left. -/
theorem mem_exits_ifElse {preds : List Nat} {i : Stmt Nat} (h_type : i.type = .ifElse) {e : Nat} :
    e ∈ (link number preds i).exits ↔
      ∃ block ∈ i.blocks, e ∈ (linkList number [number i.tag] block).exits := by
  cases i with
  | simple tag action => cases action <;> cases h_type
  | whileLoop tag cond body => cases h_type
  | ifElse tag cond thenBranch elseBranch => simp [link, blocks, Stmt.tag]

/-- All other statements are left from themselves. -/
theorem exits_of_type_ne {preds : List Nat} {s : Stmt Nat} (h_type : s.type ≠ .ifElse) :
    (link number preds s).exits = [number s.tag] := by
  cases s with
  | simple tag action => simp only [link, Stmt.tag]
  | whileLoop tag cond body => simp only [link, Stmt.tag]
  | ifElse tag cond thenBranch elseBranch => exact absurd rfl h_type

/-- Every exit of a filled statement is the number of an end of it. -/
theorem exists_endOf {preds : List Nat} {s : Stmt Nat} (h_filled : s.Filled)
    (h_s : s ∈ preorderList body) {e : Nat} (h_e : e ∈ (link number preds s).exits) :
    ∃ x, EndOf body s x ∧ number x.tag = e := by
  induction s using childInduction generalizing preds with
  | h s ih =>
    by_cases h_type : s.type = .ifElse
    · -- The exit is one of the last statement of a branch, which is a child.
      obtain ⟨block, h_block, h_e⟩ := (mem_exits_ifElse h_type).1 h_e
      obtain ⟨h_some, h_filled⟩ := h_filled.block h_block
      obtain ⟨before, last, rfl⟩ := (List.eq_nil_or_concat' block).resolve_left h_some
      have h_last : last ∈ before ++ [last] := by simp
      rw [exits_linkList_concat _ []] at h_e
      obtain ⟨x, h_x, h_number⟩ := ih last (List.mem_flatten.2 ⟨_, h_block, h_last⟩)
        (filledList_iff.1 h_filled last h_last)
        (mem_of_mem_lists (mem_lists_of_block h_s h_block) h_last) h_e
      exact ⟨x, h_x.out h_s h_type h_block, h_number⟩
    · rw [exits_of_type_ne h_type, List.mem_singleton] at h_e
      exact ⟨s, ⟨h_s, h_type, fun t h_after => h_after⟩, h_e.symm⟩

/-! ## Edges are successors -/

/-- The numbers of a statement and of one that may be executed right after it. -/
def Follows (number : Nat → Nat) (body : List (Stmt Nat)) (a b : Nat) : Prop :=
  ∃ s t, Successor body s t ∧ number s.tag = a ∧ number t.tag = b

/-- An edge into the first statement of a block comes from its container. -/
theorem follows_of_entry {s : Stmt Nat} {block : List (Stmt Nat)} (h_s : s ∈ preorderList body)
    (h_block : block ∈ s.blocks) {a b : Nat}
    (h : a ∈ [number s.tag] ∧ ∃ t, block.head? = some t ∧ b = number t.tag) :
    Follows number body a b := by
  obtain ⟨h_a, t, h_t, rfl⟩ := h
  obtain ⟨rest, rfl⟩ := List.head?_eq_some_iff.1 h_t
  rw [List.mem_singleton] at h_a
  exact ⟨s, t, .enter h_s h_block, h_a.symm, rfl⟩

/-- An edge enters from a predecessor, or it joins a statement to a successor.  The lists are
    taken as rests of lists of the whole body, so that the next statement is known. -/
theorem edge_follows :
    (∀ s : Stmt Nat, s.Filled → s ∈ preorderList body → ∀ preds a b,
      (a, b) ∈ (link number preds s).edges →
      (a ∈ preds ∧ b = number s.tag) ∨ Follows number body a b) ∧
    (∀ ss : List (Stmt Nat), FilledList ss → (∃ before, before ++ ss ∈ lists body) → ∀ preds a b,
      (a, b) ∈ (linkList number preds ss).edges →
      (a ∈ preds ∧ ∃ s, ss.head? = some s ∧ b = number s.tag) ∨ Follows number body a b) := by
  refine Stmt.induction ?_ ?_ ?_ ?_ ?_
  · intro tag action _ _ preds a b h
    simp only [link, List.mem_map, Prod.mk.injEq] at h
    obtain ⟨x, h_x, rfl, rfl⟩ := h
    exact .inl ⟨h_x, rfl⟩
  · intro tag cond inner ih h_filled h_s preds a b h
    have h_block : inner ∈ (whileLoop tag cond inner).blocks := List.mem_singleton_self inner
    obtain ⟨h_some, h_inner⟩ := h_filled.block h_block
    simp only [link, List.mem_append, List.mem_map, Prod.mk.injEq] at h
    -- The edge enters the loop, is one of the body, or leads from its end back to the loop.
    rcases h with (⟨x, h_x, rfl, rfl⟩ | h) | ⟨e, h_e, rfl, rfl⟩
    · exact .inl ⟨h_x, rfl⟩
    · right
      rcases ih h_inner ⟨[], mem_lists_of_block h_s h_block⟩ _ a b h with h_entry | h
      · exact follows_of_entry h_s h_block h_entry
      · exact h
    · right
      obtain ⟨before, last, rfl⟩ := (List.eq_nil_or_concat' inner).resolve_left h_some
      have h_last : last ∈ before ++ [last] := by simp
      rw [exits_linkList_concat _ []] at h_e
      obtain ⟨x, h_x, h_number⟩ := exists_endOf (filledList_iff.1 h_inner last h_last)
        (mem_of_mem_lists (mem_lists_of_block h_s h_block) h_last) h_e
      exact ⟨x, _, h_x.successor (.back h_s rfl h_block), h_number, rfl⟩
  · intro tag cond thenBranch elseBranch ih_then ih_else h_filled h_s preds a b h
    have h_then : thenBranch ∈ (ifElse tag cond thenBranch elseBranch).blocks := by simp [blocks]
    have h_else : elseBranch ∈ (ifElse tag cond thenBranch elseBranch).blocks := by simp [blocks]
    simp only [link, List.mem_append, List.mem_map, Prod.mk.injEq] at h
    rcases h with (⟨x, h_x, rfl, rfl⟩ | h) | h
    · exact .inl ⟨h_x, rfl⟩
    · right
      have h_edge := ih_then (h_filled.block h_then).2 ⟨[], mem_lists_of_block h_s h_then⟩ _ a b h
      exact h_edge.elim (follows_of_entry h_s h_then) id
    · right
      have h_edge := ih_else (h_filled.block h_else).2 ⟨[], mem_lists_of_block h_s h_else⟩ _ a b h
      exact h_edge.elim (follows_of_entry h_s h_else) id
  · intro _ _ preds a b h
    simp at h
  · intro s rest ih_s ih_rest h_filled h_list preds a b h
    obtain ⟨before, h_list⟩ := h_list
    have h_s : s ∈ preorderList body := mem_of_mem_lists h_list (by simp)
    simp only [FilledList] at h_filled
    rw [linkList_cons, List.mem_append] at h
    rcases h with h | h
    · rcases ih_s h_filled.1 h_s preds a b h with ⟨h_a, rfl⟩ | h
      · exact .inl ⟨h_a, s, rfl, rfl⟩
      · exact .inr h
    · right
      have h_rest : (before ++ [s]) ++ rest ∈ lists body := by simpa using h_list
      rcases ih_rest h_filled.2 ⟨_, h_rest⟩ _ a b h with ⟨h_a, t, h_t, rfl⟩ | h
      · -- The rest is entered from the exits of the first statement.
        obtain ⟨more, rfl⟩ := List.head?_eq_some_iff.1 h_t
        obtain ⟨x, h_x, h_number⟩ := exists_endOf h_filled.1 h_s h_a
        exact ⟨x, t, h_x.successor (.next h_list), h_number, rfl⟩
      · exact h

/-! ## Successors are edges -/

section

variable {E : Nat → Nat → Prop}

theorem Covers.block {preds : List Nat} {s : Stmt Nat} (h : Covers E (link number preds s))
    {block : List (Stmt Nat)} (h_block : block ∈ s.blocks) :
    Covers E (linkList number [number s.tag] block) := by
  cases s with
  | simple tag action => simp [blocks] at h_block
  | whileLoop tag cond body =>
    rw [blocks, List.mem_singleton] at h_block
    rw [h_block]
    exact h.body
  | ifElse tag cond thenBranch elseBranch =>
    simp only [blocks, List.mem_cons, List.not_mem_nil, or_false] at h_block
    rcases h_block with rfl | rfl
    · exact h.thenBranch
    · exact h.elseBranch

/-- Every rest of a covered list is covered. -/
theorem Covers.drop {preds : List Nat} {before ss : List (Stmt Nat)}
    (h : Covers E (linkList number preds (before ++ ss))) :
    ∃ preds', Covers E (linkList number preds' ss) := by
  induction before generalizing preds with
  | nil => exact ⟨preds, h⟩
  | cons s rest ih => exact ih h.tail

/-- Every member of a covered list is covered. -/
theorem Covers.member {preds : List Nat} {ss : List (Stmt Nat)} {s : Stmt Nat} (h_s : s ∈ ss)
    (h : Covers E (linkList number preds ss)) : ∃ preds', Covers E (link number preds' s) := by
  obtain ⟨before, after, rfl⟩ := List.append_of_mem h_s
  obtain ⟨preds', h⟩ := h.drop
  exact ⟨preds', h.head⟩

/-- Every statement nested in a covered one is covered. -/
theorem Covers.nested {preds : List Nat} {s t : Stmt Nat} (h : Covers E (link number preds s))
    (h_t : t ∈ s.preorder) : ∃ preds', Covers E (link number preds' t) := by
  induction s using childInduction generalizing preds with
  | h s ih =>
    rcases mem_preorder_iff.1 h_t with rfl | ⟨c, h_c, h_t⟩
    · exact ⟨preds, h⟩
    · obtain ⟨block, h_block, h_in⟩ := List.mem_flatten.1 h_c
      obtain ⟨preds', h⟩ := (h.block h_block).member h_in
      exact ih c h_c h h_t

/-- Every statement of a covered body is covered. -/
theorem Covers.statement {preds : List Nat} {s : Stmt Nat}
    (h : Covers E (linkList number preds body)) (h_s : s ∈ preorderList body) :
    ∃ preds', Covers E (link number preds' s) := by
  obtain ⟨t, h_t, h_s⟩ := mem_preorderList_iff.1 h_s
  obtain ⟨preds', h⟩ := h.member h_t
  exact h.nested h_s

/-- Every list of a covered body is covered. -/
theorem Covers.list {preds : List Nat} {list : List (Stmt Nat)}
    (h : Covers E (linkList number preds body)) (h_list : list ∈ lists body) :
    ∃ preds', Covers E (linkList number preds' list) := by
  rcases List.mem_cons.1 h_list with rfl | h_list
  · exact ⟨preds, h⟩
  · obtain ⟨s, h_s, h_block⟩ := List.mem_flatMap.1 h_list
    obtain ⟨preds', h⟩ := h.statement h_s
    exact ⟨_, h.block h_block⟩

/-- All exits of a statement lead to what comes after it. -/
theorem Covers.after {preds : List Nat} (h : Covers E (linkList number preds body)) {s t : Stmt Nat}
    (h_after : After body s t) {e : Nat} (h_e : e ∈ (link number [] s).exits) :
    E e (number t.tag) := by
  induction h_after with
  | @next before after s t h_list =>
    obtain ⟨preds', h⟩ := h.list h_list
    obtain ⟨preds', h⟩ := h.drop
    rw [exits_link [] preds'] at h_e
    exact h.tail.head.enter h_e
  | @back before s w h_w h_type h_last =>
    obtain ⟨preds', h⟩ := h.statement h_w
    cases w with
    | simple tag action => cases action <;> cases h_type
    | ifElse tag cond thenBranch elseBranch => cases h_type
    | whileLoop tag cond inner =>
      rw [blocks, List.mem_singleton] at h_last
      subst h_last
      rw [← exits_linkList_concat [number tag] [] before] at h_e
      exact h.back h_e
  | @out before s i t h_i h_type h_last h_after ih =>
    -- The exits of the last statement of a branch are exits of the `if`.
    apply ih
    rw [mem_exits_ifElse h_type]
    refine ⟨_, h_last, ?_⟩
    rwa [exits_linkList_concat _ []]

theorem Covers.successor {preds : List Nat} (h : Covers E (linkList number preds body))
    {s t : Stmt Nat} (h_next : Successor body s t) : E (number s.tag) (number t.tag) := by
  cases h_next with
  | enter h_s h_first =>
    obtain ⟨preds', h⟩ := h.statement h_s
    exact (h.block h_first).head.enter (List.mem_singleton_self _)
  | after h_s h_type h_after =>
    apply h.after h_after
    rw [exits_of_type_ne h_type]
    exact List.mem_singleton_self _

end

/-- The edges of a filled body join the statements to their successors. -/
theorem mem_edges_iff_follows (h_filled : FilledList body) {a b : Nat} :
    (a, b) ∈ (linkList number [] body).edges ↔ Follows number body a b := by
  constructor
  · intro h_edge
    have h_list : [] ++ body ∈ lists body := List.mem_cons_self ..
    rcases edge_follows.2 body h_filled ⟨[], h_list⟩ [] a b h_edge with ⟨h_a, -⟩ | h
    · exact absurd h_a List.not_mem_nil
    · exact h
  · rintro ⟨s, t, h_next, rfl, rfl⟩
    have h_covers : Covers (fun a b => (a, b) ∈ (linkList number [] body).edges)
        (linkList number [] body) := fun a b h => h
    exact h_covers.successor h_next

/-! ## Graphs of procedures -/

/-- Edges in strictly ascending order. -/
def EdgeLt (e f : Edge) : Prop :=
  e.1 < f.1 ∨ (e.1 = f.1 ∧ e.2 < f.2)

theorem edgeLe_iff {a b c d : Nat} : edgeLe (a, b) (c, d) = true ↔ a < c ∨ (a = c ∧ b ≤ d) := by
  simp [edgeLe]

theorem edgeLt_iff {a b c d : Nat} : EdgeLt (a, b) (c, d) ↔ a < c ∨ (a = c ∧ b < d) :=
  Iff.rfl

theorem edgeLt_of_edgeLe {a b c d : Nat} (h_le : edgeLe (a, b) (c, d) = true)
    (h_ne : (a, b) ≠ (c, d)) : EdgeLt (a, b) (c, d) := by
  rw [edgeLe_iff] at h_le
  rw [Ne, Prod.mk.injEq] at h_ne
  rw [edgeLt_iff]
  omega

/-- Sorting and dropping repetitions leaves the edges strictly ascending. -/
theorem pairwise_sorted (edges : List Edge) :
    (edges.eraseDups.mergeSort edgeLe).Pairwise EdgeLt := by
  have h_sorted : (edges.eraseDups.mergeSort edgeLe).Pairwise fun e f => edgeLe e f = true := by
    apply List.pairwise_mergeSort
    · intro ⟨a, b⟩ ⟨c, d⟩ ⟨x, y⟩ h₁ h₂
      rw [edgeLe_iff] at *
      omega
    · intro ⟨a, b⟩ ⟨c, d⟩
      rw [Bool.or_eq_true, edgeLe_iff, edgeLe_iff]
      omega
  have h_nodup : (edges.eraseDups.mergeSort edgeLe).Nodup :=
    (List.mergeSort_perm _ _).nodup_iff.2 (Facts.nodup_eraseDups edges)
  exact h_sorted.imp₂ (fun _ _ => edgeLt_of_edgeLe) h_nodup

/-- The node shows the statement: its number, its line and its code. -/
def Node.Shows (p : NumberedProgram) (node : Node) (s : Stmt StatementId) : Prop :=
  node.id = p.number s.tag ∧ node.code = s.label ∧
    ∃ t, p.program.statement? s.tag = some t ∧ node.line = t.pos.line

/-- The graph says of a procedure what its text says: the statements in ascending order, and,
    in ascending order and each once, what may be executed right after what. -/
structure FlowGraph.Represents (g : FlowGraph) (p : NumberedProgram) (q : ProcedureTree) :
    Prop where
  procedure : g.procedure = q.name
  nodes : List.Forall₂ (Node.Shows p) g.nodes q.statements
  ascending : g.nodes.Pairwise fun m n => m.id < n.id
  sorted : g.edges.Pairwise EdgeLt
  edges : ∀ a b, (a, b) ∈ g.edges ↔ Follows p.number q.body a b

end Flow

/-- The tags of the trees of a program are ids of statements. -/
theorem Program.statement?_of_mem {p : Program} {q : ProcedureTree} (hq : q ∈ p.procedureTrees)
    {s : Stmt StatementId} (hs : s ∈ q.statements) : ∃ t, p.statement? s.tag = some t := by
  cases h_trees : p.procedureTrees? with
  | none => simp [procedureTrees, h_trees] at hq
  | some qs =>
    rw [procedureTrees, h_trees, Option.getD_some] at hq
    obtain ⟨i, h_i⟩ := List.getElem?_of_mem hq
    rw [getElem?_of_mapM h_trees, Option.bind_eq_some_iff] at h_i
    obtain ⟨r, -, h_tree⟩ := h_i
    obtain ⟨-, h_stand⟩ := trees_eq_some_iff.1 (procedureTree?_eq_some_iff.1 h_tree).2
    obtain ⟨root, h_root, h_s⟩ := Stmt.mem_preorderList_iff.1 hs
    obtain ⟨t, h_t, -⟩ := h_stand root h_root s h_s
    exact ⟨t, h_t⟩

namespace Flow

variable {p : Program}

/-- The statements of a procedure come in ascending order, so sorting leaves them as they are. -/
theorem nodesOf_statements (h : p.numbered.WellFormed) {q : ProcedureTree}
    (hq : q ∈ p.numbered.procedures) :
    List.Forall₂ (Node.Shows p.numbered) (nodesOf p.numbered q.statements) q.statements ∧
      (nodesOf p.numbered q.statements).Pairwise fun m n => m.id < n.id := by
  have h_ascending : q.statements.Pairwise
      fun s t => p.numbered.number s.tag < p.numbered.number t.tag := h.ascending hq
  rw [nodesOf, List.mergeSort_of_pairwise]
  · refine ⟨?_, List.pairwise_map.2 h_ascending⟩
    rw [List.forall₂_map_left_iff, List.forall₂_same]
    intro s hs
    obtain ⟨t, h_t⟩ := Program.statement?_of_mem hq hs
    have h_line : p.numbered.program.statement? s.tag = some t := h_t
    refine ⟨rfl, rfl, t, h_line, ?_⟩
    simp only [h_line]
  · rw [List.pairwise_map]
    exact h_ascending.imp fun h_lt => decide_eq_true (Nat.le_of_lt h_lt)

theorem represents_ofProcedure (h : p.numbered.WellFormed) {q : ProcedureTree}
    (hq : q ∈ p.numbered.procedures) :
    (FlowGraph.ofProcedure p.numbered q).Represents p.numbered q where
  procedure := rfl
  nodes := (nodesOf_statements h hq).1
  ascending := (nodesOf_statements h hq).2
  sorted := pairwise_sorted _
  edges a b := by
    rw [FlowGraph.ofProcedure, List.mem_mergeSort, List.mem_eraseDups]
    exact mem_edges_iff_follows (h.filled q hq).2

/-- The flow graph of every procedure of an accepted program has its statements as nodes and
    the pairs of a statement and a successor as edges, both strictly ascending; Next is made
    of the edges of all graphs. -/
theorem graphs_represent_successors {source : String} (h : Program.read source = .ok p) :
    List.Forall₂ (fun g q => g.Represents p.numbered q) (graphs p.numbered)
        p.numbered.procedures ∧
      ∀ a b, (FactBase.ofProgram p.numbered).next.direct.contains a b ↔
        ∃ g ∈ graphs p.numbered, (a, b) ∈ g.edges := by
  have h_wf := Program.wellFormed_of_read h
  constructor
  · rw [graphs, List.forall₂_map_left_iff, List.forall₂_same]
    exact fun q hq => represents_ofProcedure h_wf hq
  · intro a b
    rw [FactBase.contains_next]
    simp only [graphs, List.mem_map, exists_exists_and_eq_and, FlowGraph.ofProcedure,
      List.mem_mergeSort, List.mem_eraseDups]

/-- The branches of an `if` at the end of a loop go back to the loop and not past it. -/
theorem successors_of_branches_in_loop :
    ∃ p, Program.read ("procedure main \x7b while (x > 0) \x7b if (x == 1) " ++
        "then \x7b y = 1; \x7d else \x7b y = 2; \x7d \x7d print y; \x7d") = .ok p ∧
      (∃ q ∈ p.numbered.procedures, Follows p.numbered.number q.body 3 1 ∧
        Follows p.numbered.number q.body 4 1 ∧ ¬ Follows p.numbered.number q.body 4 5) ∧
      (FactBase.ofProgram p.numbered).next.direct.contains 1 5 := by
  refine exists_ok_of_test (fun p => ∃ q ∈ p.numbered.procedures,
    (3, 1) ∈ (linkList p.numbered.number [] q.body).edges ∧
      (4, 1) ∈ (linkList p.numbered.number [] q.body).edges ∧
      (4, 5) ∉ (linkList p.numbered.number [] q.body).edges ∧
      (1, 5) ∈ (linkList p.numbered.number [] q.body).edges) (by decide +kernel)
    fun p h_read h_test => ?_
  obtain ⟨q, hq, h_then, h_else, h_past, h_on⟩ := of_decide_eq_true h_test
  obtain ⟨h_graphs, h_next⟩ := graphs_represent_successors h_read
  rw [graphs, List.forall₂_map_left_iff, List.forall₂_same] at h_graphs
  have h_edges := (h_graphs q hq).edges
  simp only [FlowGraph.ofProcedure, List.mem_mergeSort, List.mem_eraseDups] at h_edges
  refine ⟨⟨q, hq, (h_edges 3 1).1 h_then, (h_edges 4 1).1 h_else, fun h => ?_⟩, ?_⟩
  · exact h_past ((h_edges 4 5).2 h)
  · refine (h_next 1 5).2 ⟨_, List.mem_map_of_mem hq, ?_⟩
    simpa [FlowGraph.ofProcedure] using h_on

end Flow

end ProgramQuery
