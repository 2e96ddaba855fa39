/-
  ProgramQuery.Proofs.Program.Tree

  The shape of statement trees.

  The reading order of a statement is the statement itself followed by that of
  its children, so everything about nesting goes through `preorder_eq`.  A
  statement and all that is nested in it stand together in the reading order, and of
  two statements that have a statement in common one is nested in the other.
-/

import Mathlib.Data.List.Infix
import Mathlib.Data.List.Nodup
import Mathlib.Data.List.Perm.Basic
import ProgramQuery.Program.Statement

namespace ProgramQuery

/-- In a list with growing keys, a key belongs to one member. -/
theorem eq_of_key_eq {β : Type} {key : β → Nat} {l : List β}
    (h : l.Pairwise fun x y => key x < key y) {x y : β} (h_x : x ∈ l) (h_y : y ∈ l)
    (h_eq : key x = key y) : x = y := by
  obtain ⟨i, h_i, rfl⟩ := List.getElem_of_mem h_x
  obtain ⟨j, h_j, rfl⟩ := List.getElem_of_mem h_y
  have h_pair := List.pairwise_iff_getElem.1 h
  rcases Nat.lt_trichotomy i j with h_lt | rfl | h_lt
  · exact absurd h_eq (Nat.ne_of_lt (h_pair i j h_i h_j h_lt))
  · rfl
  · exact absurd h_eq.symm (Nat.ne_of_lt (h_pair j i h_j h_i h_lt))

namespace Stmt

variable {α : Type}

/-! ## Reading order -/

@[simp] theorem preorderList_nil : preorderList ([] : List (Stmt α)) = [] := by
  simp only [preorderList]

@[simp] theorem preorderList_cons (s : Stmt α) (rest : List (Stmt α)) :
    preorderList (s :: rest) = s.preorder ++ preorderList rest := by
  simp only [preorderList]

@[simp] theorem preorderList_append (ss ts : List (Stmt α)) :
    preorderList (ss ++ ts) = preorderList ss ++ preorderList ts := by
  induction ss with
  | nil => simp
  | cons s rest ih => simp [ih]

/-- A statement comes first, then its children. -/
theorem preorder_eq (s : Stmt α) : s.preorder = s :: preorderList s.children := by
  cases s <;> simp [preorder, children, blocks]

theorem mem_preorder_self (s : Stmt α) : s ∈ s.preorder := by
  rw [preorder_eq]
  exact List.mem_cons_self ..

theorem mem_preorderList_iff {ss : List (Stmt α)} {t : Stmt α} :
    t ∈ preorderList ss ↔ ∃ s ∈ ss, t ∈ s.preorder := by
  induction ss with
  | nil => simp
  | cons s rest ih => simp [ih]

theorem mem_preorder_iff {s t : Stmt α} :
    t ∈ s.preorder ↔ t = s ∨ ∃ c ∈ s.children, t ∈ c.preorder := by
  rw [preorder_eq, List.mem_cons, mem_preorderList_iff]

/-! ## Sizes -/

mutual

/-- How many statements there are in a statement, itself included. -/
def size : Stmt α → Nat
  | .simple _ _ => 1
  | .whileLoop _ _ body => sizeList body + 1
  | .ifElse _ _ thenBranch elseBranch => sizeList thenBranch + sizeList elseBranch + 1

/-- How many statements there are in a list, those nested included. -/
def sizeList : List (Stmt α) → Nat
  | [] => 0
  | s :: rest => size s + sizeList rest

end

/-! ## Induction -/

/-- Induction over statements together with their lists. -/
theorem induction {P : Stmt α → Prop} {Q : List (Stmt α) → Prop}
    (simple : ∀ tag action, P (.simple tag action))
    (whileLoop : ∀ tag cond body, Q body → P (.whileLoop tag cond body))
    (ifElse : ∀ tag cond thenBranch elseBranch, Q thenBranch → Q elseBranch →
      P (.ifElse tag cond thenBranch elseBranch))
    (nil : Q [])
    (cons : ∀ s rest, P s → Q rest → Q (s :: rest)) :
    (∀ s, P s) ∧ (∀ ss, Q ss) := by
  have h : ∀ s, P s := fun s => s.rec (motive_2 := Q) simple whileLoop ifElse nil cons
  refine ⟨h, fun ss => ?_⟩
  induction ss with
  | nil => exact nil
  | cons s rest ih => exact cons s rest (h s) ih

/-- Induction from the children of a statement to the statement. -/
theorem childInduction {P : Stmt α → Prop} (h : ∀ s, (∀ c ∈ s.children, P c) → P s) (s : Stmt α) :
    P s := by
  revert s
  refine (induction (Q := fun ss => ∀ c ∈ ss, P c) ?_ ?_ ?_ ?_ ?_).1
  · intro tag action
    exact h _ (by simp [children, blocks])
  · intro tag cond body ih
    exact h _ (by simpa [children, blocks] using ih)
  · intro tag cond thenBranch elseBranch ih_then ih_else
    refine h _ fun c hc => ?_
    simp only [children, blocks, List.flatten_cons, List.flatten_nil, List.append_nil,
      List.mem_append] at hc
    exact hc.elim (ih_then c) (ih_else c)
  · simp
  · intro s rest ih_s ih_rest c hc
    rcases List.mem_cons.1 hc with rfl | hc
    · exact ih_s
    · exact ih_rest c hc

/-! ## Nesting -/

/-- What is nested in a nested statement is nested in the outer one. -/
theorem mem_preorder_trans {s t u : Stmt α} (h_t : t ∈ s.preorder) (h_u : u ∈ t.preorder) :
    u ∈ s.preorder := by
  induction s using childInduction with
  | h s ih =>
    rcases mem_preorder_iff.1 h_t with rfl | ⟨c, hc, h_t⟩
    · exact h_u
    · exact mem_preorder_iff.2 (.inr ⟨c, hc, ih c hc h_t⟩)

theorem mem_preorderList_trans {ss : List (Stmt α)} {t u : Stmt α} (h_t : t ∈ preorderList ss)
    (h_u : u ∈ t.preorder) : u ∈ preorderList ss := by
  obtain ⟨s, hs, h_t⟩ := mem_preorderList_iff.1 h_t
  exact mem_preorderList_iff.2 ⟨s, hs, mem_preorder_trans h_t h_u⟩

theorem preorder_infix_of_mem {ss : List (Stmt α)} {s : Stmt α} (h : s ∈ ss) :
    s.preorder <:+: preorderList ss := by
  obtain ⟨l₁, l₂, rfl⟩ := List.append_of_mem h
  exact ⟨preorderList l₁, preorderList l₂, by simp⟩

/-- A statement and what is nested in it stand together. -/
theorem preorder_infix_of_mem_preorder {s t : Stmt α} (h : t ∈ s.preorder) :
    t.preorder <:+: s.preorder := by
  induction s using childInduction with
  | h s ih =>
    rcases mem_preorder_iff.1 h with rfl | ⟨c, hc, h⟩
    · exact List.infix_rfl
    · rw [preorder_eq s]
      exact ((ih c hc h).trans (preorder_infix_of_mem hc)).trans (List.suffix_cons ..).isInfix

theorem preorder_infix_list {ss : List (Stmt α)} {t : Stmt α} (h : t ∈ preorderList ss) :
    t.preorder <:+: preorderList ss := by
  obtain ⟨s, hs, h⟩ := mem_preorderList_iff.1 h
  exact (preorder_infix_of_mem_preorder h).trans (preorder_infix_of_mem hs)

/-- A block of a statement stands together in its reading order. -/
theorem preorderList_infix_of_block {s : Stmt α} {block : List (Stmt α)} (h : block ∈ s.blocks) :
    preorderList block <:+: s.preorder := by
  rw [preorder_eq, children]
  -- The blocks before and after this one are read before and after it.
  obtain ⟨l₁, l₂, h_blocks⟩ := List.append_of_mem h
  refine ⟨s :: preorderList l₁.flatten, preorderList l₂.flatten, ?_⟩
  simp [h_blocks]

/-! ## Statement lists -/

/-- The statement lists of a body: the body itself and all blocks in it. -/
def lists (body : List (Stmt α)) : List (List (Stmt α)) :=
  body :: (preorderList body).flatMap blocks

theorem preorderList_eq_flatMap (ss : List (Stmt α)) : preorderList ss = ss.flatMap preorder := by
  induction ss with
  | nil => rfl
  | cons s rest ih => rw [preorderList_cons, List.flatMap_cons, ih]

/-- The lists of a body are the body and the lists of the blocks of its statements. -/
theorem perm_lists (body : List (Stmt α)) :
    (lists body).Perm (body :: (body.flatMap blocks).flatMap lists) := by
  refine List.Perm.cons body ?_
  rw [preorderList_eq_flatMap, List.flatMap_assoc, List.flatMap_assoc]
  refine List.Perm.flatMap_left _ fun s _ => ?_
  have h_nested : ∀ bs : List (List (Stmt α)), (preorderList bs.flatten).flatMap blocks =
      bs.flatMap fun block => (preorderList block).flatMap blocks := by
    intro bs
    induction bs with
    | nil => rfl
    | cons block rest ih =>
      rw [List.flatten_cons, preorderList_append, List.flatMap_append, ih, List.flatMap_cons]
  -- The blocks of a statement, and after each of them the blocks inside it.
  rw [preorder_eq, List.flatMap_cons, children, h_nested]
  have h_apart := List.map_append_flatMap_perm s.blocks id fun block =>
    (preorderList block).flatMap blocks
  rwa [List.map_id] at h_apart

/-- A body has itself and no more than two lists for each statement. -/
theorem length_lists_le (body : List (Stmt α)) :
    (lists body).length ≤ 1 + 2 * (preorderList body).length := by
  have h_blocks : ∀ ss : List (Stmt α), (ss.flatMap blocks).length ≤ 2 * ss.length := by
    intro ss
    induction ss with
    | nil => exact Nat.le_refl _
    | cons s rest ih =>
      have h_s : s.blocks.length ≤ 2 := by cases s <;> simp [blocks]
      rw [List.flatMap_cons, List.length_append, List.length_cons]
      omega
  have h_body := h_blocks (preorderList body)
  rw [lists, List.length_cons]
  omega

/-! ## Ascending numbers -/

section

variable {number : α → Nat}

/-- The numbers of the statements grow in reading order. -/
def Ascending (number : α → Nat) (ss : List (Stmt α)) : Prop :=
  (preorderList ss).Pairwise fun s t => number s.tag < number t.tag

/-- A number that is found in a list of statements or inside them. -/
def HasNumber (number : α → Nat) (ss : List (Stmt α)) (n : Nat) : Prop :=
  ∃ s ∈ preorderList ss, number s.tag = n

instance (ss : List (Stmt α)) (n : Nat) : Decidable (HasNumber number ss n) :=
  inferInstanceAs (Decidable (∃ s ∈ preorderList ss, number s.tag = n))

theorem Ascending.part {ss ts : List (Stmt α)} (h : Ascending number ss)
    (h_part : preorderList ts <:+: preorderList ss) : Ascending number ts :=
  List.Pairwise.sublist h_part.sublist h

theorem Ascending.head_lt {s : Stmt α} {rest : List (Stmt α)} (h : Ascending number (s :: rest))
    {a b : Nat} (h_a : HasNumber number [s] a) (h_b : HasNumber number rest b) : a < b := by
  obtain ⟨x, h_x, rfl⟩ := h_a
  obtain ⟨y, h_y, rfl⟩ := h_b
  rw [Ascending, preorderList_cons, List.pairwise_append] at h
  rw [preorderList_cons, preorderList_nil, List.append_nil] at h_x
  exact h.2.2 x h_x y h_y

theorem Ascending.tail {s : Stmt α} {rest : List (Stmt α)} (h : Ascending number (s :: rest)) :
    Ascending number rest :=
  h.part ⟨s.preorder, [], by simp⟩

theorem Ascending.singleton {s : Stmt α} {rest : List (Stmt α)} (h : Ascending number (s :: rest)) :
    Ascending number [s] :=
  h.part ⟨[], preorderList rest, by simp⟩

theorem Ascending.mem {ss : List (Stmt α)} (h : Ascending number ss) {s : Stmt α}
    (h_s : s ∈ preorderList ss) : Ascending number [s] :=
  h.part (by simpa using preorder_infix_list h_s)

/-- A statement is numbered before its children. -/
theorem Ascending.lt_of_child {s : Stmt α} (h : Ascending number [s]) {n : Nat}
    (h_n : HasNumber number s.children n) : number s.tag < n := by
  obtain ⟨x, h_x, rfl⟩ := h_n
  rw [Ascending, preorderList_cons, preorderList_nil, List.append_nil, preorder_eq,
    List.pairwise_cons] at h
  exact h.1 x h_x

theorem Ascending.children {s : Stmt α} (h : Ascending number [s]) : Ascending number s.children :=
  h.part ⟨[s], [], by simp [preorder_eq s]⟩

theorem hasNumber_cons {s : Stmt α} {rest : List (Stmt α)} {n : Nat} :
    HasNumber number (s :: rest) n ↔ HasNumber number [s] n ∨ HasNumber number rest n := by
  simp [HasNumber, or_and_right, exists_or]

theorem hasNumber_append {ss ts : List (Stmt α)} {n : Nat} :
    HasNumber number (ss ++ ts) n ↔ HasNumber number ss n ∨ HasNumber number ts n := by
  simp [HasNumber, or_and_right, exists_or]

theorem hasNumber_singleton {s : Stmt α} {n : Nat} :
    HasNumber number [s] n ↔ number s.tag = n ∨ HasNumber number s.children n := by
  simp [HasNumber, preorder_eq s]

theorem hasNumber_of_mem {ss : List (Stmt α)} {s : Stmt α} {n : Nat} (h_s : s ∈ preorderList ss)
    (h_n : HasNumber number [s] n) : HasNumber number ss n := by
  obtain ⟨x, h_x, rfl⟩ := h_n
  exact ⟨x, mem_preorderList_trans h_s (by simpa using h_x), rfl⟩

/-- A number that is in a block of statements but not in a nested part of it lies
    on one side of that part. -/
theorem Ascending.outside {ss part : List (Stmt α)} (h : Ascending number ss)
    (h_part : preorderList part <:+: preorderList ss) {n : Nat} (h_n : HasNumber number ss n)
    (h_out : ¬ HasNumber number part n) :
    (∀ m, HasNumber number part m → n < m) ∨ (∀ m, HasNumber number part m → m < n) := by
  obtain ⟨l₁, l₂, h_eq⟩ := h_part
  obtain ⟨x, h_x, rfl⟩ := h_n
  rw [Ascending, ← h_eq, List.append_assoc] at h
  rw [← h_eq, List.append_assoc] at h_x
  obtain ⟨-, h_right, h_left⟩ := List.pairwise_append.1 h
  -- The number stands before the part, inside it, or after it.
  rcases List.mem_append.1 h_x with h_x | h_x
  · left
    rintro m ⟨y, h_y, rfl⟩
    exact h_left x h_x y (List.mem_append_left _ h_y)
  · rcases List.mem_append.1 h_x with h_x | h_x
    · exact absurd ⟨x, h_x, rfl⟩ h_out
    · right
      rintro m ⟨y, h_y, rfl⟩
      exact (List.pairwise_append.1 h_right).2.2 y h_y x h_x

/-- Of two statements with a number in common, one is nested in the other. -/
theorem Ascending.nested {ss : List (Stmt α)} (h : Ascending number ss) {s t : Stmt α}
    (h_s : s ∈ preorderList ss) (h_t : t ∈ preorderList ss) {n : Nat}
    (h_sn : HasNumber number [s] n) (h_tn : HasNumber number [t] n) :
    s ∈ t.preorder ∨ t ∈ s.preorder := by
  -- First for lists whose members have the property, then from the children of a statement to it.
  have h_list : ∀ ts : List (Stmt α), Ascending number ts →
      (∀ c ∈ ts, ∀ s ∈ c.preorder, ∀ t ∈ c.preorder, HasNumber number [s] n →
        HasNumber number [t] n → s ∈ t.preorder ∨ t ∈ s.preorder) →
      ∀ s ∈ preorderList ts, ∀ t ∈ preorderList ts, HasNumber number [s] n →
        HasNumber number [t] n → s ∈ t.preorder ∨ t ∈ s.preorder := by
    intro ts h_ts h_members s h_s t h_t h_sn h_tn
    induction ts with
    | nil => simp at h_s
    | cons c rest ih =>
      -- The number is in one member of the list only.
      have h_apart : HasNumber number [c] n → HasNumber number rest n → False := fun h₁ h₂ =>
        Nat.lt_irrefl n (h_ts.head_lt h₁ h₂)
      rw [preorderList_cons, List.mem_append] at h_s h_t
      rcases h_s with h_s | h_s <;> rcases h_t with h_t | h_t
      · exact h_members c (List.mem_cons_self ..) s h_s t h_t h_sn h_tn
      · exact (h_apart (hasNumber_of_mem (by simpa using h_s) h_sn)
          (hasNumber_of_mem h_t h_tn)).elim
      · exact (h_apart (hasNumber_of_mem (by simpa using h_t) h_tn)
          (hasNumber_of_mem h_s h_sn)).elim
      · exact ih h_ts.tail (fun d hd => h_members d (List.mem_cons_of_mem _ hd)) h_s h_t
  have h_one : ∀ c : Stmt α, Ascending number [c] → ∀ s ∈ c.preorder, ∀ t ∈ c.preorder,
      HasNumber number [s] n → HasNumber number [t] n → s ∈ t.preorder ∨ t ∈ s.preorder := by
    intro c
    induction c using childInduction with
    | h c ih =>
      intro h_c s h_s t h_t
      have h_below := h_list c.children h_c.children fun d hd =>
        ih d hd (h_c.children.mem (mem_preorderList_iff.2 ⟨d, hd, mem_preorder_self d⟩))
      rw [preorder_eq, List.mem_cons] at h_s h_t
      rcases h_s with rfl | h_s
      · intro _ _
        right
        rw [preorder_eq, List.mem_cons]
        exact h_t
      · rcases h_t with rfl | h_t
        · intro _ _
          left
          rw [preorder_eq]
          exact List.mem_cons_of_mem _ h_s
        · exact h_below s h_s t h_t
  refine h_list ss h (fun c hc => h_one c ?_) s h_s t h_t h_sn h_tn
  exact h.mem (mem_preorderList_iff.2 ⟨c, hc, mem_preorder_self c⟩)

end

end Stmt

end ProgramQuery
