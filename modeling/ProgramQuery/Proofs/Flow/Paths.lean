/-
  ProgramQuery.Proofs.Flow.Paths

  Where control can get to inside a list of statements.

  Control gets from `a` to `b` if a loop contains both, or if `b` comes later and
  no `if` has them in opposite branches (`Leads`).  Every edge of the flow graph is
  of this kind and the relation is transitive, so paths stay in it.  In the other
  direction a statement reaches all that is nested in it and one of its exits,
  and the exits lead to whatever follows.
-/

import Mathlib.Logic.Relation
import ProgramQuery.Flow.Graph
import ProgramQuery.Proofs.Program.Read

namespace ProgramQuery

open Relation (ReflTransGen TransGen)

namespace Stmt

variable {α : Type} {number : α → Nat}

/-! ## Loops and branches -/

/-- Some loop contains both numbers, as itself or nested in it. -/
def ShareLoop (number : α → Nat) (ss : List (Stmt α)) (a b : Nat) : Prop :=
  ∃ w ∈ preorderList ss, w.type = .whileLoop ∧ HasNumber number [w] a ∧ HasNumber number [w] b

/-- Some `if` has the one number in its first branch and the other in its second. -/
def Separated (number : α → Nat) (ss : List (Stmt α)) (a b : Nat) : Prop :=
  ∃ tag cond thenBranch elseBranch, .ifElse tag cond thenBranch elseBranch ∈ preorderList ss ∧
    HasNumber number thenBranch a ∧ HasNumber number elseBranch b

/-- Control can get from one number to the other. -/
structure Leads (number : α → Nat) (ss : List (Stmt α)) (a b : Nat) : Prop where
  source : HasNumber number ss a
  target : HasNumber number ss b
  way : ShareLoop number ss a b ∨ (a < b ∧ ¬ Separated number ss a b)

theorem ShareLoop.mono {ss ts : List (Stmt α)} {a b : Nat} (h : ShareLoop number ss a b)
    (h_sub : ∀ s ∈ preorderList ss, s ∈ preorderList ts) : ShareLoop number ts a b := by
  obtain ⟨w, h_w, h⟩ := h
  exact ⟨w, h_sub w h_w, h⟩

theorem Separated.mono {ss ts : List (Stmt α)} {a b : Nat} (h : Separated number ss a b)
    (h_sub : ∀ s ∈ preorderList ss, s ∈ preorderList ts) : Separated number ts a b := by
  obtain ⟨tag, cond, thenBranch, elseBranch, h_i, h⟩ := h
  exact ⟨tag, cond, thenBranch, elseBranch, h_sub _ h_i, h⟩

/-- An `if` that separates two numbers contains both. -/
theorem Separated.exists_container {ss : List (Stmt α)} {a b : Nat} (h : Separated number ss a b) :
    ∃ i ∈ preorderList ss, HasNumber number i.children a ∧ HasNumber number i.children b := by
  obtain ⟨tag, cond, thenBranch, elseBranch, h_i, h_a, h_b⟩ := h
  refine ⟨_, h_i, ?_⟩
  simp only [children, blocks, List.flatten_cons, List.flatten_nil, List.append_nil,
    hasNumber_append]
  exact ⟨.inl h_a, .inr h_b⟩

theorem Separated.hasNumber {ss : List (Stmt α)} {a b : Nat} (h : Separated number ss a b) :
    HasNumber number ss a ∧ HasNumber number ss b := by
  obtain ⟨i, h_i, h_a, h_b⟩ := h.exists_container
  exact ⟨hasNumber_of_mem h_i (hasNumber_singleton.2 (.inr h_a)),
    hasNumber_of_mem h_i (hasNumber_singleton.2 (.inr h_b))⟩

theorem separated_cons {s : Stmt α} {rest : List (Stmt α)} {a b : Nat} :
    Separated number (s :: rest) a b ↔ Separated number [s] a b ∨ Separated number rest a b := by
  simp only [Separated, preorderList_cons, preorderList_nil, List.append_nil, List.mem_append,
    or_and_right, exists_or]

theorem hasNumber_tag (s : Stmt α) : HasNumber number [s] (number s.tag) :=
  hasNumber_singleton.2 (.inl rfl)

theorem hasNumber_head (number : α → Nat) (s : Stmt α) (rest : List (Stmt α)) :
    HasNumber number (s :: rest) (number s.tag) :=
  hasNumber_cons.2 (.inl (hasNumber_tag s))

theorem hasNumber_simple {tag : α} {action : Action} {n : Nat} :
    HasNumber number [simple tag action] n ↔ number tag = n := by
  simp [HasNumber, preorder, Stmt.tag]

theorem hasNumber_whileLoop {tag : α} {cond : Cond} {body : List (Stmt α)} {n : Nat} :
    HasNumber number [whileLoop tag cond body] n ↔ number tag = n ∨ HasNumber number body n := by
  simp [hasNumber_singleton, children, blocks, Stmt.tag]

theorem hasNumber_ifElse {tag : α} {cond : Cond} {thenBranch elseBranch : List (Stmt α)} {n : Nat} :
    HasNumber number [ifElse tag cond thenBranch elseBranch] n ↔
      number tag = n ∨ HasNumber number thenBranch n ∨ HasNumber number elseBranch n := by
  simp [hasNumber_singleton, children, blocks, Stmt.tag, hasNumber_append]

/-- A branch of an `if` is numbered upwards. -/
theorem Ascending.branch {tag : α} {cond : Cond} {thenBranch elseBranch block : List (Stmt α)}
    (h : Ascending number [ifElse tag cond thenBranch elseBranch])
    (h_block : block = thenBranch ∨ block = elseBranch) : Ascending number block :=
  h.part (by simpa using preorderList_infix_of_block (by simpa [blocks] using h_block))

theorem Leads.of_loop {ss : List (Stmt α)} {w : Stmt α} {a b : Nat} (h_w : w ∈ preorderList ss)
    (h_type : w.type = .whileLoop) (h_a : HasNumber number [w] a) (h_b : HasNumber number [w] b) :
    Leads number ss a b :=
  ⟨hasNumber_of_mem h_w h_a, hasNumber_of_mem h_w h_b, .inl ⟨w, h_w, h_type, h_a, h_b⟩⟩

/-! ## Transitivity -/

section

variable {ss : List (Stmt α)} {a b c : Nat}

/-- Two loops through a common number are nested, so the outer one contains all. -/
theorem ShareLoop.trans (h_asc : Ascending number ss) (h₁ : ShareLoop number ss a b)
    (h₂ : ShareLoop number ss b c) : ShareLoop number ss a c := by
  obtain ⟨v, h_v, h_v_type, h_va, h_vb⟩ := h₁
  obtain ⟨w, h_w, h_w_type, h_wb, h_wc⟩ := h₂
  rcases h_asc.nested h_v h_w h_vb h_wb with h_in | h_in
  · exact ⟨w, h_w, h_w_type, hasNumber_of_mem (by simpa using h_in) h_va, h_wc⟩
  · exact ⟨v, h_v, h_v_type, h_va, hasNumber_of_mem (by simpa using h_in) h_wc⟩

/-- A loop inside an `if` lies in one of its branches. -/
theorem loop_in_branch {w : Stmt α} {tag : α} {cond : Cond} {thenBranch elseBranch : List (Stmt α)}
    (h_type : w.type = .whileLoop) (h_w : w ∈ (ifElse tag cond thenBranch elseBranch).preorder) :
    w ∈ preorderList thenBranch ∨ w ∈ preorderList elseBranch := by
  rw [preorder, List.mem_cons, List.mem_append] at h_w
  rcases h_w with rfl | h_w
  · cases h_type
  · exact h_w

/-- All of the first branch of an `if` is numbered before all of the second. -/
theorem lt_of_branches (h_asc : Ascending number ss) {tag : α} {cond : Cond}
    {thenBranch elseBranch : List (Stmt α)}
    (h_i : ifElse tag cond thenBranch elseBranch ∈ preorderList ss) {n m : Nat}
    (h_then : HasNumber number thenBranch n) (h_else : HasNumber number elseBranch m) : n < m := by
  obtain ⟨x, h_x, rfl⟩ := h_then
  obtain ⟨y, h_y, rfl⟩ := h_else
  have h_own := (h_asc.mem h_i).children
  simp only [Ascending, children, blocks, List.flatten_cons, List.flatten_nil, List.append_nil,
    preorderList_append, List.pairwise_append] at h_own
  exact h_own.2.2 x h_x y h_y

/-- A loop and an `if` that separates one of its numbers from another: the loop lies
    in one branch, or it contains the `if`. -/
theorem loop_cases (h_asc : Ascending number ss) {w : Stmt α} (h_w : w ∈ preorderList ss)
    (h_type : w.type = .whileLoop) {tag : α} {cond : Cond} {thenBranch elseBranch : List (Stmt α)}
    (h_i : ifElse tag cond thenBranch elseBranch ∈ preorderList ss) {n : Nat}
    (h_wn : HasNumber number [w] n)
    (h_n : HasNumber number thenBranch n ∨ HasNumber number elseBranch n) :
    (w ∈ preorderList thenBranch ∨ w ∈ preorderList elseBranch) ∨
      ∀ m, HasNumber number thenBranch m ∨ HasNumber number elseBranch m →
        HasNumber number [w] m := by
  have h_in : ∀ m, HasNumber number thenBranch m ∨ HasNumber number elseBranch m →
      HasNumber number [ifElse tag cond thenBranch elseBranch] m := by
    intro m h_m
    rw [hasNumber_singleton]
    right
    simpa [children, blocks, hasNumber_append] using h_m
  rcases h_asc.nested h_w h_i h_wn (h_in n h_n) with h | h
  · exact .inl (loop_in_branch h_type h)
  · exact .inr fun m h_m => hasNumber_of_mem (by simpa using h) (h_in m h_m)

/-- Control that leaves a loop forward gets to what comes after the loop. -/
theorem Leads.trans_loop_left (h_asc : Ascending number ss) (h_c : HasNumber number ss c)
    (h_loop : ShareLoop number ss a b) (h_lt : b < c) (h_apart : ¬ Separated number ss b c) :
    ShareLoop number ss a c ∨ (a < c ∧ ¬ Separated number ss a c) := by
  obtain ⟨w, h_w, h_type, h_a, h_b⟩ := h_loop
  by_cases h_wc : HasNumber number [w] c
  · exact .inl ⟨w, h_w, h_type, h_a, h_wc⟩
  right
  have h_part : preorderList [w] <:+: preorderList ss := by simpa using preorder_infix_list h_w
  have h_after : ∀ m, HasNumber number [w] m → m < c := by
    rcases h_asc.outside h_part h_c h_wc with h | h
    · exact absurd (h b h_b) (Nat.not_lt.2 (Nat.le_of_lt h_lt))
    · exact h
  refine ⟨h_after a h_a, ?_⟩
  -- The loop is in the first branch with `a` and `b`, or contains the `if` and then `c` as well.
  rintro ⟨tag, cond, thenBranch, elseBranch, h_i, h_ia, h_ic⟩
  rcases loop_cases h_asc h_w h_type h_i h_a (.inl h_ia) with (h | h) | h
  · exact h_apart ⟨tag, cond, thenBranch, elseBranch, h_i, hasNumber_of_mem h h_b, h_ic⟩
  · exact Nat.lt_irrefl a (lt_of_branches h_asc h_i h_ia (hasNumber_of_mem h h_a))
  · exact h_wc (h c (.inr h_ic))

/-- Control that enters a loop gets to all of it. -/
theorem Leads.trans_loop_right (h_asc : Ascending number ss) (h_a : HasNumber number ss a)
    (h_lt : a < b) (h_apart : ¬ Separated number ss a b) (h_loop : ShareLoop number ss b c) :
    ShareLoop number ss a c ∨ (a < c ∧ ¬ Separated number ss a c) := by
  obtain ⟨w, h_w, h_type, h_b, h_c⟩ := h_loop
  by_cases h_wa : HasNumber number [w] a
  · exact .inl ⟨w, h_w, h_type, h_wa, h_c⟩
  right
  have h_part : preorderList [w] <:+: preorderList ss := by simpa using preorder_infix_list h_w
  have h_before : ∀ m, HasNumber number [w] m → a < m := by
    rcases h_asc.outside h_part h_a h_wa with h | h
    · exact h
    · exact absurd (h b h_b) (Nat.not_lt.2 (Nat.le_of_lt h_lt))
  refine ⟨h_before c h_c, ?_⟩
  -- The loop is in the second branch with `b` and `c`, or contains the `if` and then `a` as well.
  rintro ⟨tag, cond, thenBranch, elseBranch, h_i, h_ia, h_ic⟩
  rcases loop_cases h_asc h_w h_type h_i h_c (.inr h_ic) with (h | h) | h
  · exact Nat.lt_irrefl c (lt_of_branches h_asc h_i (hasNumber_of_mem h h_c) h_ic)
  · exact h_apart ⟨tag, cond, thenBranch, elseBranch, h_i, h_ia, hasNumber_of_mem h h_b⟩
  · exact h_wa (h a (.inl h_ia))

/-- What lies between two numbers in opposite branches is in one of the branches. -/
theorem separated_of_between (h_asc : Ascending number ss) (h_b : HasNumber number ss b)
    (h_ab : a < b) (h_bc : b < c) (h : Separated number ss a c) :
    Separated number ss a b ∨ Separated number ss b c := by
  obtain ⟨tag, cond, thenBranch, elseBranch, h_i, h_a, h_c⟩ := h
  have h_part : preorderList (thenBranch ++ elseBranch) <:+: preorderList ss := by
    have h_children := preorder_infix_list h_i
    rw [preorder, ← preorderList_append] at h_children
    exact (List.suffix_cons ..).isInfix.trans h_children
  -- The branches are one stretch of numbers, from before `b` to after it.
  have h_in : HasNumber number (thenBranch ++ elseBranch) b := by
    by_contra h_out
    rcases h_asc.outside h_part h_b h_out with h | h
    · have := h a (hasNumber_append.2 (.inl h_a))
      omega
    · have := h c (hasNumber_append.2 (.inr h_c))
      omega
  rcases hasNumber_append.1 h_in with h_b | h_b
  · exact .inr ⟨tag, cond, thenBranch, elseBranch, h_i, h_b, h_c⟩
  · exact .inl ⟨tag, cond, thenBranch, elseBranch, h_i, h_a, h_b⟩

theorem Leads.trans (h_asc : Ascending number ss) (h₁ : Leads number ss a b)
    (h₂ : Leads number ss b c) : Leads number ss a c := by
  refine ⟨h₁.source, h₂.target, ?_⟩
  rcases h₁.way with h_loop₁ | ⟨h_lt₁, h_apart₁⟩ <;> rcases h₂.way with h_loop₂ | ⟨h_lt₂, h_apart₂⟩
  · exact .inl (h_loop₁.trans h_asc h_loop₂)
  · exact Leads.trans_loop_left h_asc h₂.target h_loop₁ h_lt₂ h_apart₂
  · exact Leads.trans_loop_right h_asc h₁.source h_lt₁ h_apart₁ h_loop₂
  · refine .inr ⟨Nat.lt_trans h_lt₁ h_lt₂, fun h_sep => ?_⟩
    rcases separated_of_between h_asc h₁.target h_lt₁ h_lt₂ h_sep with h | h
    · exact h_apart₁ h
    · exact h_apart₂ h

end

end Stmt

namespace Flow

open Stmt

variable {number : Nat → Nat}

@[simp] theorem linkList_nil (preds : List Nat) :
    linkList number preds [] = ⟨[], preds⟩ := by
  simp only [linkList]

theorem linkList_cons (preds : List Nat) (s : Stmt Nat) (rest : List (Stmt Nat)) :
    linkList number preds (s :: rest) =
      ⟨(link number preds s).edges ++ (linkList number (link number preds s).exits rest).edges,
        (linkList number (link number preds s).exits rest).exits⟩ := by
  simp only [linkList]

/-! ## Edges stay inside -/

/-- Control leaves a filled statement from inside, and a list from inside or from where it came. -/
theorem exits_inside :
    (∀ s : Stmt Nat, s.Filled → ∀ preds, ∀ e ∈ (link number preds s).exits,
      HasNumber number [s] e) ∧
    (∀ ss : List (Stmt Nat), FilledList ss → ∀ preds, ∀ e ∈ (linkList number preds ss).exits,
      HasNumber number ss e ∨ (ss = [] ∧ e ∈ preds)) := by
  refine Stmt.induction ?_ ?_ ?_ ?_ ?_
  · intro tag action _ preds e he
    simp only [link, List.mem_singleton] at he
    exact hasNumber_singleton.2 (.inl he.symm)
  · intro tag cond body _ _ preds e he
    simp only [link, List.mem_singleton] at he
    exact hasNumber_singleton.2 (.inl he.symm)
  · intro tag cond thenBranch elseBranch ih_then ih_else h_filled preds e he
    simp only [Filled] at h_filled
    simp only [link, List.mem_append] at he
    simp only [hasNumber_singleton, children, blocks, List.flatten_cons, List.flatten_nil,
      List.append_nil, hasNumber_append]
    -- An empty branch would be left from the `if` itself; filled ones are not empty.
    rcases he with he | he
    · rcases ih_then h_filled.1.2 _ e he with h | h
      · exact .inr (.inl h)
      · exact absurd h.1 h_filled.1.1
    · rcases ih_else h_filled.2.2 _ e he with h | h
      · exact .inr (.inr h)
      · exact absurd h.1 h_filled.2.1
  · intro _ preds e he
    exact .inr ⟨rfl, by simpa using he⟩
  · intro s rest ih_s ih_rest h_filled preds e he
    simp only [FilledList] at h_filled
    rw [linkList_cons] at he
    left
    rw [hasNumber_cons]
    rcases ih_rest h_filled.2 _ e he with h | ⟨-, h⟩
    · exact .inr h
    · exact .inl (ih_s h_filled.1 _ e h)

/-- A lead inside one branch of an `if` is a lead of the whole. -/
theorem leads_ifElse {tag : Nat} {cond : Cond} {thenBranch elseBranch block : List (Stmt Nat)}
    (h_asc : Ascending number [ifElse tag cond thenBranch elseBranch])
    (h_block : block = thenBranch ∨ block = elseBranch) {a b : Nat} (h : Leads number block a b) :
    Leads number [ifElse tag cond thenBranch elseBranch] a b := by
  have h_own : ifElse tag cond thenBranch elseBranch ∈
      preorderList [ifElse tag cond thenBranch elseBranch] := by
    simpa using mem_preorder_self _
  have h_sub : ∀ s ∈ preorderList block,
      s ∈ preorderList [ifElse tag cond thenBranch elseBranch] := by
    intro s hs
    simp only [preorderList_cons, preorder, preorderList_nil, List.append_nil, List.mem_cons,
      List.mem_append]
    rcases h_block with rfl | rfl
    · exact .inr (.inl hs)
    · exact .inr (.inr hs)
  have h_in : ∀ n, HasNumber number block n →
      HasNumber number [ifElse tag cond thenBranch elseBranch] n := by
    rintro n ⟨s, hs, rfl⟩
    exact ⟨s, h_sub s hs, rfl⟩
  refine ⟨h_in a h.source, h_in b h.target, ?_⟩
  rcases h.way with h_loop | ⟨h_lt, h_apart⟩
  · exact .inl (h_loop.mono h_sub)
  refine .inr ⟨h_lt, ?_⟩
  -- The separating `if` is the whole, or inside this branch, or inside the other one.
  rintro ⟨tag', cond', then', else', h_i, h_ia, h_ib⟩
  have h_disjoint : ∀ n, HasNumber number thenBranch n → HasNumber number elseBranch n → False :=
    fun n h₁ h₂ => Nat.lt_irrefl n (lt_of_branches h_asc h_own h₁ h₂)
  simp only [preorderList_cons, preorder, preorderList_nil, List.append_nil, List.mem_cons,
    List.mem_append] at h_i
  rcases h_i with h_i | h_i | h_i
  · cases h_i
    rcases h_block with rfl | rfl
    · exact h_disjoint b h.target h_ib
    · exact h_disjoint a h_ia h.source
  · have h_sep : Separated number thenBranch a b := ⟨tag', cond', then', else', h_i, h_ia, h_ib⟩
    rcases h_block with rfl | rfl
    · exact h_apart h_sep
    · exact h_disjoint a h_sep.hasNumber.1 h.source
  · have h_sep : Separated number elseBranch a b := ⟨tag', cond', then', else', h_i, h_ia, h_ib⟩
    rcases h_block with rfl | rfl
    · exact h_disjoint a h.source h_sep.hasNumber.1
    · exact h_apart h_sep

/-- From a statement control gets to all that is nested in it. -/
theorem leads_nested {s : Stmt Nat} (h_asc : Ascending number [s]) {n : Nat}
    (h_n : HasNumber number s.children n) : Leads number [s] (number s.tag) n := by
  refine ⟨hasNumber_tag s, hasNumber_singleton.2 (.inr h_n), .inr ⟨h_asc.lt_of_child h_n, ?_⟩⟩
  intro h_sep
  obtain ⟨i, h_i, h_own, -⟩ := h_sep.exists_container
  -- Nothing in a statement is numbered before it.
  have h_below : number s.tag < number s.tag := by
    rw [preorderList_cons, preorderList_nil, List.append_nil, preorder_eq, List.mem_cons] at h_i
    rcases h_i with rfl | h_i
    · exact h_asc.lt_of_child h_own
    · exact h_asc.lt_of_child (hasNumber_of_mem h_i (hasNumber_singleton.2 (.inr h_own)))
  exact Nat.lt_irrefl _ h_below

/-- A lead inside the first statement of a list, or inside the rest, is a lead of the list. -/
theorem leads_cons {s : Stmt Nat} {rest : List (Stmt Nat)} (h_asc : Ascending number (s :: rest))
    {a b : Nat} (h : Leads number [s] a b ∨ Leads number rest a b) :
    Leads number (s :: rest) a b := by
  have h_disjoint : ∀ n, HasNumber number [s] n → HasNumber number rest n → False :=
    fun n h₁ h₂ => Nat.lt_irrefl n (h_asc.head_lt h₁ h₂)
  rcases h with h | h
  · refine ⟨hasNumber_cons.2 (.inl h.source), hasNumber_cons.2 (.inl h.target), ?_⟩
    rcases h.way with h_loop | ⟨h_lt, h_apart⟩
    · exact .inl (h_loop.mono fun t ht => by simp at ht; simp [ht])
    · refine .inr ⟨h_lt, fun h_sep => ?_⟩
      rcases separated_cons.1 h_sep with h_sep | h_sep
      · exact h_apart h_sep
      · exact h_disjoint a h.source h_sep.hasNumber.1
  · refine ⟨hasNumber_cons.2 (.inr h.source), hasNumber_cons.2 (.inr h.target), ?_⟩
    rcases h.way with h_loop | ⟨h_lt, h_apart⟩
    · exact .inl (h_loop.mono fun t ht => by simp [ht])
    · refine .inr ⟨h_lt, fun h_sep => ?_⟩
      rcases separated_cons.1 h_sep with h_sep | h_sep
      · exact h_disjoint a h_sep.hasNumber.1 h.source
      · exact h_apart h_sep

/-- From the first statement of a list control gets to the rest. -/
theorem leads_onward {s : Stmt Nat} {rest : List (Stmt Nat)} (h_asc : Ascending number (s :: rest))
    {a b : Nat} (h_a : HasNumber number [s] a) (h_b : HasNumber number rest b) :
    Leads number (s :: rest) a b := by
  have h_disjoint : ∀ n, HasNumber number [s] n → HasNumber number rest n → False :=
    fun n h₁ h₂ => Nat.lt_irrefl n (h_asc.head_lt h₁ h₂)
  refine ⟨hasNumber_cons.2 (.inl h_a), hasNumber_cons.2 (.inr h_b),
    .inr ⟨h_asc.head_lt h_a h_b, fun h_sep => ?_⟩⟩
  rcases separated_cons.1 h_sep with h_sep | h_sep
  · exact h_disjoint b h_sep.hasNumber.2 h_b
  · exact h_disjoint a h_a h_sep.hasNumber.1

/-- Anything inside a loop leads to anything inside it. -/
theorem leads_whileLoop {tag : Nat} {cond : Cond} {body : List (Stmt Nat)} {a b : Nat}
    (h_a : HasNumber number [whileLoop tag cond body] a)
    (h_b : HasNumber number [whileLoop tag cond body] b) :
    Leads number [whileLoop tag cond body] a b :=
  ⟨h_a, h_b, .inl ⟨_, by simpa using mem_preorder_self _, rfl, h_a, h_b⟩⟩

/-- An edge enters from a predecessor, or it is a lead between two different statements. -/
theorem edge_leads :
    (∀ s : Stmt Nat, s.Filled → Ascending number [s] → ∀ preds a b,
      (a, b) ∈ (link number preds s).edges →
      (a ∈ preds ∧ b = number s.tag) ∨ (Leads number [s] a b ∧ a ≠ b)) ∧
    (∀ ss : List (Stmt Nat), FilledList ss → Ascending number ss → ∀ preds a b,
      (a, b) ∈ (linkList number preds ss).edges →
      (a ∈ preds ∧ ∃ s, ss.head? = some s ∧ b = number s.tag) ∨ (Leads number ss a b ∧ a ≠ b)) := by
  refine Stmt.induction ?_ ?_ ?_ ?_ ?_
  · intro tag action _ _ preds a b h
    simp only [link, List.mem_map, Prod.mk.injEq] at h
    obtain ⟨x, hx, rfl, rfl⟩ := h
    exact .inl ⟨hx, rfl⟩
  · intro tag cond body ih h_filled h_asc preds a b h
    simp only [Filled] at h_filled
    have h_children : ∀ n, HasNumber number body n →
        HasNumber number (whileLoop tag cond body).children n := by
      intro n hn
      simpa [children, blocks] using hn
    have h_in : ∀ n, HasNumber number body n → HasNumber number [whileLoop tag cond body] n :=
      fun n hn => hasNumber_singleton.2 (.inr (h_children n hn))
    have h_lt : ∀ n, HasNumber number body n → number tag < n :=
      fun n hn => h_asc.lt_of_child (h_children n hn)
    have h_body : Ascending number body := by simpa [children, blocks] using h_asc.children
    simp only [link, List.mem_append, List.mem_map, Prod.mk.injEq] at h
    -- The edge enters the loop, is one of the body, or leads from its end back to the loop.
    rcases h with (⟨x, hx, rfl, rfl⟩ | h) | ⟨e, he, rfl, rfl⟩
    · exact .inl ⟨hx, rfl⟩
    · right
      rcases ih h_filled.2 h_body _ a b h with ⟨h_a, t, h_t, rfl⟩ | ⟨h_leads, h_ne⟩
      · rw [List.mem_singleton] at h_a
        obtain ⟨rest, rfl⟩ := List.head?_eq_some_iff.1 h_t
        have h_t := hasNumber_head number t rest
        rw [h_a]
        exact ⟨leads_whileLoop (hasNumber_tag _) (h_in _ h_t), Nat.ne_of_lt (h_lt _ h_t)⟩
      · exact ⟨leads_whileLoop (h_in _ h_leads.source) (h_in _ h_leads.target), h_ne⟩
    · right
      have h_e : HasNumber number body e :=
        (exits_inside.2 body h_filled.2 _ e he).resolve_right fun h => h_filled.1 h.1
      exact ⟨leads_whileLoop (h_in _ h_e) (hasNumber_tag _), (Nat.ne_of_lt (h_lt _ h_e)).symm⟩
  · intro tag cond thenBranch elseBranch ih_then ih_else h_filled h_asc preds a b h
    simp only [Filled] at h_filled
    have h_children : ∀ n, HasNumber number thenBranch n ∨ HasNumber number elseBranch n →
        HasNumber number (ifElse tag cond thenBranch elseBranch).children n := by
      intro n hn
      simpa [children, blocks, hasNumber_append] using hn
    -- Both branches are entered from the `if` itself and stay inside.
    have h_branch : ∀ block, block = thenBranch ∨ block = elseBranch →
        ((a ∈ [number tag] ∧ ∃ s, block.head? = some s ∧ b = number s.tag) ∨
          (Leads number block a b ∧ a ≠ b)) →
        Leads number [ifElse tag cond thenBranch elseBranch] a b ∧ a ≠ b := by
      intro block h_block h_edge
      rcases h_edge with ⟨h_a, t, h_t, rfl⟩ | ⟨h_leads, h_ne⟩
      · rw [List.mem_singleton] at h_a
        obtain ⟨rest, rfl⟩ := List.head?_eq_some_iff.1 h_t
        have h_t := hasNumber_head number t rest
        have h_child := h_children _ (h_block.imp (fun h => h ▸ h_t) (fun h => h ▸ h_t))
        rw [h_a]
        exact ⟨leads_nested h_asc h_child, Nat.ne_of_lt (h_asc.lt_of_child h_child)⟩
      · exact ⟨leads_ifElse h_asc h_block h_leads, h_ne⟩
    simp only [link, List.mem_append, List.mem_map, Prod.mk.injEq] at h
    rcases h with (⟨x, hx, rfl, rfl⟩ | h) | h
    · exact .inl ⟨hx, rfl⟩
    · exact .inr (h_branch thenBranch (.inl rfl)
        (ih_then h_filled.1.2 (h_asc.branch (.inl rfl)) _ a b h))
    · exact .inr (h_branch elseBranch (.inr rfl)
        (ih_else h_filled.2.2 (h_asc.branch (.inr rfl)) _ a b h))
  · intro _ _ preds a b h
    simp at h
  · intro s rest ih_s ih_rest h_filled h_asc preds a b h
    simp only [FilledList] at h_filled
    rw [linkList_cons, List.mem_append] at h
    rcases h with h | h
    · rcases ih_s h_filled.1 h_asc.singleton preds a b h with ⟨h_a, rfl⟩ | ⟨h_leads, h_ne⟩
      · exact .inl ⟨h_a, s, rfl, rfl⟩
      · exact .inr ⟨leads_cons h_asc (.inl h_leads), h_ne⟩
    · right
      rcases ih_rest h_filled.2 h_asc.tail _ a b h with ⟨h_a, t, h_t, rfl⟩ | ⟨h_leads, h_ne⟩
      · -- The rest is entered from the exits of the first statement.
        have h_s := exits_inside.1 s h_filled.1 preds a h_a
        obtain ⟨more, rfl⟩ := List.head?_eq_some_iff.1 h_t
        have h_t := hasNumber_head number t more
        exact ⟨leads_onward h_asc h_s h_t, Nat.ne_of_lt (h_asc.head_lt h_s h_t)⟩
      · exact ⟨leads_cons h_asc (.inr h_leads), h_ne⟩

/-! ## Leads are paths -/

section

variable {E : Nat → Nat → Prop}

/-- All edges of a passage are steps of `E`. -/
def Covers (E : Nat → Nat → Prop) (passage : Passage) : Prop :=
  ∀ a b, (a, b) ∈ passage.edges → E a b

theorem Covers.enter {preds : List Nat} {s : Stmt Nat} (h : Covers E (link number preds s))
    {a : Nat} (h_a : a ∈ preds) : E a (number s.tag) := by
  apply h
  cases s <;> simp only [link, Stmt.tag, List.mem_append, List.mem_map, Prod.mk.injEq]
  · exact ⟨a, h_a, rfl, trivial⟩
  · exact .inl (.inl ⟨a, h_a, rfl, trivial⟩)
  · exact .inl (.inl ⟨a, h_a, rfl, trivial⟩)

theorem Covers.head {preds : List Nat} {s : Stmt Nat} {rest : List (Stmt Nat)}
    (h : Covers E (linkList number preds (s :: rest))) : Covers E (link number preds s) := by
  intro a b h_edge
  apply h
  rw [linkList_cons]
  exact List.mem_append_left _ h_edge

theorem Covers.tail {preds : List Nat} {s : Stmt Nat} {rest : List (Stmt Nat)}
    (h : Covers E (linkList number preds (s :: rest))) :
    Covers E (linkList number (link number preds s).exits rest) := by
  intro a b h_edge
  apply h
  rw [linkList_cons]
  exact List.mem_append_right _ h_edge

theorem Covers.body {preds : List Nat} {tag : Nat} {cond : Cond} {body : List (Stmt Nat)}
    (h : Covers E (link number preds (whileLoop tag cond body))) :
    Covers E (linkList number [number tag] body) := by
  intro a b h_edge
  apply h
  simp only [link, List.mem_append]
  exact .inl (.inr h_edge)

/-- The end of a loop body leads back to the loop. -/
theorem Covers.back {preds : List Nat} {tag : Nat} {cond : Cond} {body : List (Stmt Nat)}
    (h : Covers E (link number preds (whileLoop tag cond body))) {e : Nat}
    (h_e : e ∈ (linkList number [number tag] body).exits) : E e (number tag) := by
  apply h
  simp only [link, List.mem_append, List.mem_map, Prod.mk.injEq]
  exact .inr ⟨e, h_e, rfl, trivial⟩

theorem Covers.thenBranch {preds : List Nat} {tag : Nat} {cond : Cond}
    {thenBranch elseBranch : List (Stmt Nat)}
    (h : Covers E (link number preds (ifElse tag cond thenBranch elseBranch))) :
    Covers E (linkList number [number tag] thenBranch) := by
  intro a b h_edge
  apply h
  simp only [link, List.mem_append]
  exact .inl (.inr h_edge)

theorem Covers.elseBranch {preds : List Nat} {tag : Nat} {cond : Cond}
    {thenBranch elseBranch : List (Stmt Nat)}
    (h : Covers E (link number preds (ifElse tag cond thenBranch elseBranch))) :
    Covers E (linkList number [number tag] elseBranch) := by
  intro a b h_edge
  apply h
  simp only [link, List.mem_append]
  exact .inr h_edge

/-- Every statement inside `ss` is reached from the first one, and reaches an exit. -/
structure Passable (E : Nat → Nat → Prop) (number : Nat → Nat) (exits : List Nat)
    (ss : List (Stmt Nat)) : Prop where
  reached : ∀ s rest, ss = s :: rest → ∀ n, HasNumber number ss n → ReflTransGen E (number s.tag) n
  leaves : ∀ n, HasNumber number ss n → ∃ e ∈ exits, ReflTransGen E n e

/-- What a block is entered from reaches all of the block. -/
theorem Passable.of_entry {preds exits : List Nat} {ss : List (Stmt Nat)}
    (h : Passable E number exits ss) (h_covers : Covers E (linkList number preds ss)) {a n : Nat}
    (h_a : a ∈ preds) (h_n : HasNumber number ss n) : TransGen E a n := by
  cases ss with
  | nil =>
    obtain ⟨s, hs, -⟩ := h_n
    simp at hs
  | cons s rest => exact .head' (h_covers.head.enter h_a) (h.reached s rest rfl n h_n)

/-- A block that is not empty is passed from where it is entered to an exit. -/
theorem Passable.through {preds exits : List Nat} {ss : List (Stmt Nat)}
    (h : Passable E number exits ss) (h_covers : Covers E (linkList number preds ss))
    (h_some : ss ≠ []) {a : Nat} (h_a : a ∈ preds) : ∃ e ∈ exits, TransGen E a e := by
  obtain ⟨s, rest, rfl⟩ := List.exists_cons_of_ne_nil h_some
  have h_s := hasNumber_head number s rest
  obtain ⟨e, h_e, h_path⟩ := h.leaves _ h_s
  exact ⟨e, h_e, (h.of_entry h_covers h_a h_s).trans_left h_path⟩

/-- Filled statements are passable: control gets through every block. -/
theorem passable :
    (∀ s : Stmt Nat, s.Filled → ∀ preds, Covers E (link number preds s) →
      Passable E number (link number preds s).exits [s]) ∧
    (∀ ss : List (Stmt Nat), FilledList ss → ∀ preds, Covers E (linkList number preds ss) →
      Passable E number (linkList number preds ss).exits ss) := by
  refine Stmt.induction ?_ ?_ ?_ ?_ ?_
  · intro tag action _ preds h
    constructor
    · rintro s rest h_eq n h_n
      cases h_eq
      rw [← hasNumber_simple.1 h_n]
      exact .refl
    · intro n h_n
      exact ⟨number tag, by simp [link], by rw [← hasNumber_simple.1 h_n]⟩
  · intro tag cond body ih h_filled preds h
    simp only [Filled] at h_filled
    have h_body := ih h_filled.2 _ h.body
    constructor
    · rintro s rest h_eq n h_n
      cases h_eq
      rcases hasNumber_whileLoop.1 h_n with rfl | h_n
      · exact .refl
      · exact (h_body.of_entry h.body (List.mem_singleton_self _) h_n).to_reflTransGen
    · intro n h_n
      refine ⟨number tag, by simp [link], ?_⟩
      rcases hasNumber_whileLoop.1 h_n with rfl | h_n
      · exact .refl
      · -- A loop is left from its head, which the end of the body leads back to.
        obtain ⟨e, h_e, h_path⟩ := h_body.leaves n h_n
        exact .tail h_path (h.back h_e)
  · intro tag cond thenBranch elseBranch ih_then ih_else h_filled preds h
    simp only [Filled] at h_filled
    have h_then := ih_then h_filled.1.2 _ h.thenBranch
    have h_else := ih_else h_filled.2.2 _ h.elseBranch
    constructor
    · rintro s rest h_eq n h_n
      cases h_eq
      rcases hasNumber_ifElse.1 h_n with rfl | h_n | h_n
      · exact .refl
      · exact (h_then.of_entry h.thenBranch (List.mem_singleton_self _) h_n).to_reflTransGen
      · exact (h_else.of_entry h.elseBranch (List.mem_singleton_self _) h_n).to_reflTransGen
    · intro n h_n
      simp only [link, List.mem_append]
      rcases hasNumber_ifElse.1 h_n with rfl | h_n | h_n
      · obtain ⟨e, h_e, h_path⟩ :=
          h_then.through h.thenBranch h_filled.1.1 (List.mem_singleton_self _)
        exact ⟨e, .inl h_e, h_path.to_reflTransGen⟩
      · obtain ⟨e, h_e, h_path⟩ := h_then.leaves n h_n
        exact ⟨e, .inl h_e, h_path⟩
      · obtain ⟨e, h_e, h_path⟩ := h_else.leaves n h_n
        exact ⟨e, .inr h_e, h_path⟩
  · intro _ preds _
    constructor
    · intro s rest h_eq
      cases h_eq
    · rintro n ⟨s, hs, -⟩
      simp at hs
  · intro s rest ih_s ih_rest h_filled preds h
    simp only [FilledList] at h_filled
    have h_s := ih_s h_filled.1 _ h.head
    have h_rest := ih_rest h_filled.2 _ h.tail
    constructor
    · rintro s' rest' h_eq n h_n
      cases h_eq
      rcases hasNumber_cons.1 h_n with h_n | h_n
      · exact h_s.reached s [] rfl n h_n
      · obtain ⟨e, h_e, h_path⟩ := h_s.leaves _ (hasNumber_tag s)
        exact h_path.trans (h_rest.of_entry h.tail h_e h_n).to_reflTransGen
    · intro n h_n
      rw [linkList_cons]
      rcases hasNumber_cons.1 h_n with h_n | h_n
      · obtain ⟨e, h_e, h_path⟩ := h_s.leaves n h_n
        -- The exits of the first statement are those of the list if nothing comes after it.
        rcases eq_or_ne rest [] with rfl | h_some
        · exact ⟨e, by simpa using h_e, h_path⟩
        · obtain ⟨x, h_x, h_more⟩ := h_rest.through h.tail h_some h_e
          exact ⟨x, h_x, h_path.trans h_more.to_reflTransGen⟩
      · exact h_rest.leaves n h_n

/-- Inside a loop control gets from everywhere to everywhere. -/
theorem path_in_loop {tag : Nat} {cond : Cond} {body : List (Stmt Nat)}
    (h_filled : (whileLoop tag cond body).Filled) {preds : List Nat}
    (h : Covers E (link number preds (whileLoop tag cond body))) {a b : Nat}
    (h_a : HasNumber number [whileLoop tag cond body] a)
    (h_b : HasNumber number [whileLoop tag cond body] b) : TransGen E a b := by
  -- All paths in a loop can go through its head.
  have h_to : ReflTransGen E a (number tag) := by
    obtain ⟨e, h_e, h_path⟩ := (passable.1 _ h_filled _ h).leaves a h_a
    simp only [link, List.mem_singleton] at h_e
    rwa [h_e] at h_path
  simp only [Filled] at h_filled
  have h_body := passable.2 body h_filled.2 _ h.body
  have h_from : TransGen E (number tag) b := by
    rcases hasNumber_whileLoop.1 h_b with rfl | h_b
    · obtain ⟨e, h_e, h_path⟩ := h_body.through h.body h_filled.1 (List.mem_singleton_self _)
      exact .tail h_path (h.back h_e)
    · exact h_body.of_entry h.body (List.mem_singleton_self _) h_b
  exact h_from.trans_right h_to

/-- Leads are paths, by going down to the innermost list that holds both numbers. -/
theorem path_of_leads :
    (∀ s : Stmt Nat, s.Filled → Ascending number [s] → ∀ preds, Covers E (link number preds s) →
      ∀ a b, Leads number [s] a b → TransGen E a b) ∧
    (∀ ss : List (Stmt Nat), FilledList ss → Ascending number ss → ∀ preds,
      Covers E (linkList number preds ss) → ∀ a b, Leads number ss a b → TransGen E a b) := by
  refine Stmt.induction ?_ ?_ ?_ ?_ ?_
  · intro tag action _ _ preds _ a b h
    rcases h.way with ⟨w, h_w, h_type, -⟩ | ⟨h_lt, -⟩
    · simp only [preorderList_cons, preorder, preorderList_nil, List.append_nil,
        List.mem_singleton] at h_w
      rw [h_w] at h_type
      cases action <;> cases h_type
    · have := hasNumber_simple.1 h.source
      have := hasNumber_simple.1 h.target
      omega
  · intro tag cond body _ h_filled _ preds h_covers a b h
    exact path_in_loop h_filled h_covers h.source h.target
  · intro tag cond thenBranch elseBranch ih_then ih_else h_filled h_asc preds h_covers a b h
    simp only [Filled] at h_filled
    have h_then := passable.2 thenBranch h_filled.1.2 _ h_covers.thenBranch
    have h_else := passable.2 elseBranch h_filled.2.2 _ h_covers.elseBranch
    have h_in_then := ih_then h_filled.1.2 (h_asc.branch (.inl rfl)) _ h_covers.thenBranch a b
    have h_in_else := ih_else h_filled.2.2 (h_asc.branch (.inr rfl)) _ h_covers.elseBranch a b
    have h_own : ifElse tag cond thenBranch elseBranch ∈
        preorderList [ifElse tag cond thenBranch elseBranch] := by
      simpa using mem_preorder_self _
    rcases h.way with ⟨w, h_w, h_type, h_a, h_b⟩ | ⟨h_lt, h_apart⟩
    · rcases loop_in_branch h_type (by simpa using h_w) with h_w | h_w
      · exact h_in_then (.of_loop h_w h_type h_a h_b)
      · exact h_in_else (.of_loop h_w h_type h_a h_b)
    have h_below : ∀ n, HasNumber number thenBranch n ∨ HasNumber number elseBranch n →
        number tag < n := by
      intro n h_n
      refine h_asc.lt_of_child ?_
      simpa [children, blocks, hasNumber_append] using h_n
    -- No path leads back to the `if` or from one branch to the other.
    rcases hasNumber_ifElse.1 h.source with rfl | h_a | h_a <;>
      rcases hasNumber_ifElse.1 h.target with h_b | h_b | h_b
    · omega
    · exact h_then.of_entry h_covers.thenBranch (List.mem_singleton_self _) h_b
    · exact h_else.of_entry h_covers.elseBranch (List.mem_singleton_self _) h_b
    · have := h_below a (.inl h_a)
      omega
    · refine h_in_then ⟨h_a, h_b, .inr ⟨h_lt, fun h_sep => h_apart (h_sep.mono ?_)⟩⟩
      simp only [preorderList_cons, preorder, List.mem_cons, List.mem_append]
      exact fun s hs => .inl (.inr (.inl hs))
    · exact absurd ⟨tag, cond, thenBranch, elseBranch, h_own, h_a, h_b⟩ h_apart
    · have := h_below a (.inr h_a)
      omega
    · have := lt_of_branches h_asc h_own h_b h_a
      omega
    · refine h_in_else ⟨h_a, h_b, .inr ⟨h_lt, fun h_sep => h_apart (h_sep.mono ?_)⟩⟩
      simp only [preorderList_cons, preorder, List.mem_cons, List.mem_append]
      exact fun s hs => .inl (.inr (.inr hs))
  · intro _ _ preds _ a b h
    obtain ⟨s, hs, -⟩ := h.source
    simp at hs
  · intro s rest ih_s ih_rest h_filled h_asc preds h_covers a b h
    simp only [FilledList] at h_filled
    have h_s := passable.1 s h_filled.1 _ h_covers.head
    have h_rest := passable.2 rest h_filled.2 _ h_covers.tail
    have h_in_s := ih_s h_filled.1 h_asc.singleton _ h_covers.head a b
    have h_in_rest := ih_rest h_filled.2 h_asc.tail _ h_covers.tail a b
    rcases h.way with ⟨w, h_w, h_type, h_a, h_b⟩ | ⟨h_lt, h_apart⟩
    · rw [preorderList_cons, List.mem_append] at h_w
      rcases h_w with h_w | h_w
      · exact h_in_s (.of_loop (by simpa using h_w) h_type h_a h_b)
      · exact h_in_rest (.of_loop h_w h_type h_a h_b)
    rw [separated_cons, not_or] at h_apart
    rcases hasNumber_cons.1 h.source with h_a | h_a <;>
      rcases hasNumber_cons.1 h.target with h_b | h_b
    · exact h_in_s ⟨h_a, h_b, .inr ⟨h_lt, h_apart.1⟩⟩
    · -- From the first statement the way leads over one of its exits.
      obtain ⟨e, h_e, h_path⟩ := h_s.leaves a h_a
      exact (h_rest.of_entry h_covers.tail h_e h_b).trans_right h_path
    · exact absurd (h_asc.head_lt h_b h_a) (Nat.lt_asymm h_lt)
    · exact h_in_rest ⟨h_a, h_b, .inr ⟨h_lt, h_apart.2⟩⟩

/-- The paths along the edges of a block are its leads. -/
theorem transGen_edges_iff {ss : List (Stmt Nat)} (h_filled : FilledList ss)
    (h_asc : Ascending number ss) {a b : Nat} :
    TransGen (fun x y => (x, y) ∈ (linkList number [] ss).edges) a b ↔ Leads number ss a b := by
  constructor
  · intro h_path
    have h_edge : ∀ x y, (x, y) ∈ (linkList number [] ss).edges → Leads number ss x y := by
      intro x y h
      rcases edge_leads.2 ss h_filled h_asc [] x y h with ⟨h_none, -⟩ | ⟨h, -⟩
      · simp at h_none
      · exact h
    induction h_path with
    | single h => exact h_edge _ _ h
    | tail _ h ih => exact ih.trans h_asc (h_edge _ _ h)
  · exact path_of_leads.2 ss h_filled h_asc [] (fun _ _ h => h) a b

end

end Flow

end ProgramQuery
