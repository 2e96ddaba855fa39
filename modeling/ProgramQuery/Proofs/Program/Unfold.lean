/-
  ProgramQuery.Proofs.Program.Unfold

  Unfolding the ids of an arena into trees.

  A tree stands in an arena if each of its statements has there the kind that it has in the
  tree (`Program.Stands`).  The trees of a list of ids are exactly the standing trees with
  these tags (`trees_eq_some_iff`): on the way down through a standing tree no id comes
  twice, so there are never more levels than statements.  Ids that lead out of the arena,
  or down without an end, have no tree (`exists_stands_iff`).
-/

import Mathlib.Data.List.Forall2
import Mathlib.Data.List.Perm.Subperm
import Mathlib.Logic.Relation
import ProgramQuery.Program.Numbering
import ProgramQuery.Proofs.Program.Tree

namespace ProgramQuery

open Relation (ReflTransGen)

/-! ## Statements of trees -/

namespace Stmt

variable {α : Type}

mutual

/-- How many levels a statement has, its own included. -/
def height : Stmt α → Nat
  | .simple _ _ => 1
  | .whileLoop _ _ body => heightList body + 1
  | .ifElse _ _ thenBranch elseBranch => max (heightList thenBranch) (heightList elseBranch) + 1

/-- How many levels the statements of a list have at most. -/
def heightList : List (Stmt α) → Nat
  | [] => 0
  | s :: rest => max (height s) (heightList rest)

end

theorem heightList_le_iff {ss : List (Stmt α)} {depth : Nat} :
    heightList ss ≤ depth ↔ ∀ s ∈ ss, s.height ≤ depth := by
  induction ss with
  | nil => simp [heightList]
  | cons s rest ih => rw [heightList, Nat.max_le, ih, List.forall_mem_cons]

/-- A statement has one level more than what is inside it. -/
theorem height_le_succ_iff {s : Stmt α} {depth : Nat} :
    s.height ≤ depth + 1 ↔ ∀ c ∈ s.children, c.height ≤ depth := by
  cases s with
  | simple tag action => simp [height, children, blocks]
  | whileLoop tag cond body => simp [height, children, blocks, heightList_le_iff]
  | ifElse tag cond thenBranch elseBranch =>
    rw [height, Nat.add_le_add_iff_right, Nat.max_le, heightList_le_iff, heightList_le_iff]
    simp [children, blocks, or_imp, forall_and]

theorem height_pos (s : Stmt α) : 0 < s.height := by
  cases s <;> simp [height]

/-- The statement as it is kept in an arena, with the tags of what is inside it. -/
def kind : Stmt StatementId → StatementKind
  | .simple _ action => .simple action
  | .whileLoop _ cond body => .whileLoop cond (body.map tag)
  | .ifElse _ cond thenBranch elseBranch => .ifElse cond (thenBranch.map tag) (elseBranch.map tag)

theorem children_kind (s : Stmt StatementId) : s.kind.children = s.children.map tag := by
  cases s <;> simp [kind, children, blocks, StatementKind.children, StatementKind.blocks]

/-- A statement is not nested in one that is directly inside it. -/
theorem not_mem_preorder_child {s c : Stmt α} (h : c ∈ s.children) : s ∉ c.preorder := by
  intro h_s
  have h_outer := (preorder_infix_of_mem h).sublist.length_le
  have h_inner := (preorder_infix_of_mem_preorder h_s).sublist.length_le
  rw [preorder_eq s, List.length_cons] at h_inner
  omega

end Stmt

/-! ## Lists of what is found -/

section

variable {α β γ : Type} {f : α → Option β} {l : List α} {r : List β}

/-- What is found for a list is found for its members one by one. -/
theorem mapM_eq_some_iff_forall₂ :
    l.mapM f = some r ↔ List.Forall₂ (fun a b => f a = some b) l r := by
  induction l generalizing r with
  | nil => simp [eq_comm]
  | cons a rest ih =>
    simp only [List.mapM_cons, Option.bind_eq_bind, Option.bind_eq_some_iff, Option.pure_def,
      Option.some.injEq, ih, List.forall₂_cons_left_iff, @eq_comm _ r]
    constructor
    · rintro ⟨b, h_b, more, h_more, h_r⟩
      exact ⟨b, more, h_b, h_more, h_r⟩
    · rintro ⟨b, more, h_b, h_more, h_r⟩
      exact ⟨b, h_b, more, h_more, h_r⟩

theorem length_of_mapM (h : l.mapM f = some r) : r.length = l.length :=
  (mapM_eq_some_iff_forall₂.1 h).length_eq.symm

theorem getElem?_of_mapM (h : l.mapM f = some r) (i : Nat) : r[i]? = l[i]?.bind f := by
  induction mapM_eq_some_iff_forall₂.1 h generalizing i with
  | nil => rfl
  | cons h_b h_more ih =>
    cases i with
    | zero => simp [h_b]
    | succ i => simpa using ih (mapM_eq_some_iff_forall₂.2 h_more) i

/-- Where one thing is found and another follows from it, that one is found too. -/
theorem mapM_map {g : α → Option γ} {k : β → γ} (h_f : l.mapM f = some r)
    (h : ∀ a, ∀ b ∈ r, f a = some b → g a = some (k b)) : l.mapM g = some (r.map k) := by
  rw [mapM_eq_some_iff_forall₂] at h_f ⊢
  induction h_f with
  | nil => exact .nil
  | cons h_b _ ih =>
    have h_rest := fun a b hb => h a b (List.mem_cons_of_mem _ hb)
    exact .cons (h _ _ (List.mem_cons_self ..) h_b) (ih h_rest)

/-- Values that know what they were found for. -/
theorem mapM_eq_some_iff {key : β → α} (h_key : ∀ a b, f a = some b → key b = a) :
    l.mapM f = some r ↔ r.map key = l ∧ ∀ b ∈ r, f (key b) = some b := by
  rw [mapM_eq_some_iff_forall₂]
  constructor
  · intro h
    induction h with
    | nil => simp
    | cons h_b _ ih =>
      have h_own := h_key _ _ h_b
      refine ⟨by rw [List.map_cons, h_own, ih.1], List.forall_mem_cons.2 ⟨?_, ih.2⟩⟩
      rw [h_own, h_b]
  · rintro ⟨rfl, h_found⟩
    rw [List.forall₂_map_left_iff, List.forall₂_same]
    exact h_found

end

/-- The tree of a statement has its kind, and inside it the trees of its children. -/
theorem StatementKind.tree?_eq_some_iff {inner : StatementId → Option (Stmt StatementId)}
    (h_tag : ∀ id t, inner id = some t → t.tag = id) {id : StatementId} {kind : StatementKind}
    {t : Stmt StatementId} :
    kind.tree? inner id = some t ↔
      t.tag = id ∧ t.kind = kind ∧ ∀ c ∈ t.children, inner c.tag = some c := by
  cases kind with
  | simple action =>
    cases t <;> simp [tree?, Stmt.tag, Stmt.kind, Stmt.children, Stmt.blocks, eq_comm]
  | whileLoop cond body =>
    simp only [tree?, Option.bind_eq_bind, Option.bind_eq_some_iff, Option.some.injEq,
      mapM_eq_some_iff h_tag]
    constructor
    · rintro ⟨ts, ⟨rfl, h_inner⟩, rfl⟩
      exact ⟨rfl, rfl, by simpa [Stmt.children, Stmt.blocks] using h_inner⟩
    · rintro ⟨rfl, h_kind, h_inner⟩
      cases t with
      | simple | ifElse => cases h_kind
      | whileLoop tag _ ts =>
        cases h_kind
        exact ⟨ts, ⟨rfl, by simpa [Stmt.children, Stmt.blocks] using h_inner⟩, rfl⟩
  | ifElse cond thenBranch elseBranch =>
    simp only [tree?, Option.bind_eq_bind, Option.bind_eq_some_iff, Option.some.injEq,
      mapM_eq_some_iff h_tag]
    have h_both : ∀ {ts us : List (Stmt StatementId)},
        (∀ c ∈ (Stmt.ifElse id cond ts us).children, inner c.tag = some c) ↔
          (∀ c ∈ ts, inner c.tag = some c) ∧ ∀ c ∈ us, inner c.tag = some c := by
      intro ts us
      rw [Stmt.children, Stmt.blocks, List.flatten_cons, List.flatten_singleton,
        List.forall_mem_append]
    constructor
    · rintro ⟨ts, ⟨rfl, h_then⟩, us, ⟨rfl, h_else⟩, rfl⟩
      exact ⟨rfl, rfl, h_both.2 ⟨h_then, h_else⟩⟩
    · rintro ⟨rfl, h_kind, h_inner⟩
      cases t with
      | simple | whileLoop => cases h_kind
      | ifElse tag _ ts us =>
        cases h_kind
        obtain ⟨h_then, h_else⟩ := h_both.1 h_inner
        exact ⟨ts, ⟨rfl, h_then⟩, us, ⟨rfl, h_else⟩, rfl⟩

namespace Program

/-! ## Standing trees -/

/-- Every statement of the tree is in the arena, with the kind that it has in the tree. -/
def Stands (p : Program) (t : Stmt StatementId) : Prop :=
  ∀ u ∈ t.preorder, ∃ s, p.statement? u.tag = some s ∧ s.kind = u.kind

variable {p : Program} {t u : Stmt StatementId}

theorem stands_iff :
    p.Stands t ↔ (∃ s, p.statement? t.tag = some s ∧ s.kind = t.kind) ∧
      ∀ c ∈ t.children, p.Stands c := by
  simp only [Stands, Stmt.preorder_eq t, List.forall_mem_cons, Stmt.mem_preorderList_iff]
  constructor
  · rintro ⟨h_own, h_inner⟩
    exact ⟨h_own, fun c hc u hu => h_inner u ⟨c, hc, hu⟩⟩
  · rintro ⟨h_own, h_inner⟩
    exact ⟨h_own, fun u ⟨c, hc, hu⟩ => h_inner c hc u hu⟩

theorem Stands.inner (h : p.Stands t) (h_u : u ∈ t.preorder) : p.Stands u :=
  fun v h_v => h v (Stmt.mem_preorder_trans h_u h_v)

theorem Stands.children (h : p.Stands t) : ∀ c ∈ t.children, p.Stands c :=
  (stands_iff.1 h).2

theorem lt_size_of_statement? {id : StatementId} {s : Statement}
    (h : p.statement? id = some s) : id < p.statements.size :=
  (Array.getElem?_eq_some_iff.1 h).1

theorem exists_statement {id : StatementId} (h : id < p.statements.size) :
    ∃ s, p.statement? id = some s :=
  ⟨p.statements[id], Array.getElem?_eq_getElem h⟩

theorem Stands.tag_lt (h : p.Stands t) : t.tag < p.statements.size := by
  obtain ⟨⟨s, h_s, -⟩, -⟩ := stands_iff.1 h
  exact lt_size_of_statement? h_s

/-- Unfolding an id down to some level finds the standing tree with this tag and no more levels. -/
theorem tree?_eq_some_iff {depth : Nat} {id : StatementId} {t : Stmt StatementId} :
    p.tree? depth id = some t ↔ t.tag = id ∧ t.height ≤ depth ∧ p.Stands t := by
  induction depth generalizing id t with
  | zero =>
    have h_pos := t.height_pos
    simp only [tree?, reduceCtorEq, false_iff]
    omega
  | succ depth ih =>
    simp only [tree?, Option.bind_eq_bind, Option.bind_eq_some_iff,
      StatementKind.tree?_eq_some_iff fun _ _ h => (ih.1 h).1, ih, Stmt.height_le_succ_iff,
      stands_iff (t := t)]
    constructor
    · rintro ⟨s, h_s, rfl, h_kind, h_inner⟩
      exact ⟨rfl, fun c hc => (h_inner c hc).2.1, ⟨s, h_s, h_kind.symm⟩,
        fun c hc => (h_inner c hc).2.2⟩
    · rintro ⟨rfl, h_height, ⟨s, h_s, h_kind⟩, h_inner⟩
      exact ⟨s, h_s, rfl, h_kind.symm, fun c hc => ⟨trivial, h_height c hc, h_inner c hc⟩⟩

/-- A tag belongs to one standing tree only. -/
theorem Stands.eq_of_tag (h_t : p.Stands t) (h_u : p.Stands u) (h : t.tag = u.tag) : t = u := by
  have h_left := tree?_eq_some_iff.2 ⟨h, Nat.le_max_left t.height u.height, h_t⟩
  have h_right := tree?_eq_some_iff.2 ⟨rfl, Nat.le_max_right t.height u.height, h_u⟩
  exact Option.some.inj (h_left.symm.trans h_right)

/-- Some way down through a standing tree has as many statements as the tree has levels, all of
    them different. -/
theorem Stands.exists_path (h : p.Stands t) {n : Nat} (h_n : n ≤ t.height) :
    ∃ path : List StatementId, path.length = n ∧ path.Nodup ∧
      ∀ id ∈ path, ∃ u ∈ t.preorder, u.tag = id := by
  induction n generalizing t with
  | zero => exact ⟨[], rfl, List.nodup_nil, by simp⟩
  | succ n ih =>
    rcases Nat.eq_zero_or_pos n with rfl | h_pos
    · exact ⟨[t.tag], rfl, List.nodup_singleton _, by simpa using ⟨t, t.mem_preorder_self, rfl⟩⟩
    -- A child with the other levels goes on; an id of its way is not that of the tree itself.
    obtain ⟨c, hc, h_c⟩ : ∃ c ∈ t.children, n ≤ c.height := by
      by_contra h_none
      have h_low : t.height ≤ n - 1 + 1 := Stmt.height_le_succ_iff.2 fun c hc =>
        Nat.le_sub_one_of_lt (Nat.lt_of_not_le fun h_c => h_none ⟨c, hc, h_c⟩)
      omega
    obtain ⟨path, h_length, h_nodup, h_path⟩ := ih (h.children c hc) h_c
    refine ⟨t.tag :: path, by rw [List.length_cons, h_length], ?_, ?_⟩
    · refine List.nodup_cons.2 ⟨fun h_own => ?_, h_nodup⟩
      obtain ⟨u, hu, h_u⟩ := h_path _ h_own
      have h_eq := ((h.children c hc).inner hu).eq_of_tag h h_u
      exact Stmt.not_mem_preorder_child hc (h_eq ▸ hu)
    · rintro id (_ | ⟨_, h_id⟩)
      · exact ⟨t, t.mem_preorder_self, rfl⟩
      · obtain ⟨u, hu, h_u⟩ := h_path id h_id
        exact ⟨u, Stmt.mem_preorder_iff.2 (.inr ⟨c, hc, hu⟩), h_u⟩

/-- A standing tree has no more levels than the arena has statements. -/
theorem Stands.height_le (h : p.Stands t) : t.height ≤ p.statements.size := by
  obtain ⟨path, h_length, h_nodup, h_path⟩ := h.exists_path (Nat.le_refl _)
  have h_range : path ⊆ List.range p.statements.size := by
    intro id h_id
    obtain ⟨u, hu, rfl⟩ := h_path id h_id
    exact List.mem_range.2 (h.inner hu).tag_lt
  have h_le := (List.subperm_of_subset h_nodup h_range).length_le
  rwa [h_length, List.length_range] at h_le

/-- The trees of some ids are the standing trees with these tags. -/
theorem trees_eq_some_iff {ids : List StatementId} {ts : List (Stmt StatementId)} :
    p.trees ids = some ts ↔ ts.map Stmt.tag = ids ∧ ∀ t ∈ ts, p.Stands t := by
  rw [trees, mapM_eq_some_iff fun _ _ h => (tree?_eq_some_iff.1 h).1]
  refine and_congr_right fun _ => forall₂_congr fun t _ => ?_
  rw [tree?_eq_some_iff]
  exact ⟨fun h => h.2.2, fun h => ⟨rfl, h.height_le, h⟩⟩

/-! ## Ids that have a tree -/

/-- The one statement is directly inside the other. -/
def Encloses (p : Program) (outer inner : StatementId) : Prop :=
  ∃ s, p.statement? outer = some s ∧ inner ∈ s.kind.children

/-- There is no endless way down from an id. -/
def Ends (p : Program) (root : StatementId) : Prop :=
  Acc (fun inner outer => p.Encloses outer inner) root

/-- No way down from an id leads out of the arena. -/
def StaysInside (p : Program) (root : StatementId) : Prop :=
  ∀ id, ReflTransGen p.Encloses root id → id < p.statements.size

/-- Below the tag of a standing tree there are the tags of its statements. -/
theorem Stands.reaches_iff (h : p.Stands t) {id : StatementId} :
    ReflTransGen p.Encloses t.tag id ↔ ∃ u ∈ t.preorder, u.tag = id := by
  induction t using Stmt.childInduction with
  | h t ih =>
    obtain ⟨⟨s, h_s, h_kind⟩, h_inner⟩ := stands_iff.1 h
    have h_step : ∀ inner, p.Encloses t.tag inner ↔ ∃ c ∈ t.children, c.tag = inner := by
      intro inner
      rw [← List.mem_map, ← Stmt.children_kind, ← h_kind]
      exact ⟨fun ⟨s', h_s', h_mem⟩ => Option.some.inj (h_s.symm.trans h_s') ▸ h_mem,
        fun h_mem => ⟨s, h_s, h_mem⟩⟩
    constructor
    · intro h_path
      rcases ReflTransGen.cases_head h_path with rfl | ⟨inner, h_edge, h_path⟩
      · exact ⟨t, t.mem_preorder_self, rfl⟩
      · obtain ⟨c, hc, rfl⟩ := (h_step inner).1 h_edge
        obtain ⟨u, hu, rfl⟩ := (ih c hc (h_inner c hc)).1 h_path
        exact ⟨u, Stmt.mem_preorder_iff.2 (.inr ⟨c, hc, hu⟩), rfl⟩
    · rintro ⟨u, hu, rfl⟩
      rcases Stmt.mem_preorder_iff.1 hu with rfl | ⟨c, hc, hu⟩
      · exact .refl
      · exact .head ((h_step _).2 ⟨c, hc, rfl⟩) ((ih c hc (h_inner c hc)).2 ⟨u, hu, rfl⟩)

theorem Stands.ends (h : p.Stands t) : p.Ends t.tag := by
  induction t using Stmt.childInduction with
  | h t ih =>
    obtain ⟨⟨s, h_s, h_kind⟩, h_inner⟩ := stands_iff.1 h
    refine Acc.intro _ ?_
    rintro inner ⟨s', h_s', h_mem⟩
    obtain rfl := Option.some.inj (h_s.symm.trans h_s')
    rw [h_kind, Stmt.children_kind] at h_mem
    obtain ⟨c, hc, rfl⟩ := List.mem_map.1 h_mem
    exact ih c hc (h_inner c hc)

/-- Ids that have standing trees one by one have them all. -/
theorem exists_map_tag {ids : List StatementId}
    (h : ∀ id ∈ ids, ∃ t : Stmt StatementId, t.tag = id ∧ p.Stands t) :
    ∃ ts : List (Stmt StatementId), ts.map Stmt.tag = ids ∧ ∀ t ∈ ts, p.Stands t := by
  induction ids with
  | nil => exact ⟨[], rfl, by simp⟩
  | cons id rest ih =>
    obtain ⟨⟨t, rfl, h_t⟩, h_rest⟩ := List.forall_mem_cons.1 h
    obtain ⟨ts, rfl, h_ts⟩ := ih h_rest
    exact ⟨t :: ts, rfl, List.forall_mem_cons.2 ⟨h_t, h_ts⟩⟩

/-- A statement has a standing tree if what is directly inside it has. -/
theorem exists_stands {id : StatementId} {s : Statement} (h_s : p.statement? id = some s)
    (h : ∀ c ∈ s.kind.children, ∃ t : Stmt StatementId, t.tag = c ∧ p.Stands t) :
    ∃ t : Stmt StatementId, t.tag = id ∧ p.Stands t := by
  have h_blocks : ∀ block ∈ s.kind.blocks,
      ∃ ts : List (Stmt StatementId), ts.map Stmt.tag = block ∧ ∀ t ∈ ts, p.Stands t :=
    fun block h_block => exists_map_tag fun c hc => h c (List.mem_flatten.2 ⟨block, h_block, hc⟩)
  cases h_kind : s.kind with
  | simple action =>
    refine ⟨.simple id action, rfl, stands_iff.2 ⟨⟨s, h_s, h_kind⟩, ?_⟩⟩
    simp [Stmt.children, Stmt.blocks]
  | whileLoop cond body =>
    obtain ⟨ts, rfl, h_ts⟩ := h_blocks body (by simp [h_kind, StatementKind.blocks])
    refine ⟨.whileLoop id cond ts, rfl, stands_iff.2 ⟨⟨s, h_s, h_kind⟩, ?_⟩⟩
    simpa [Stmt.children, Stmt.blocks] using h_ts
  | ifElse cond thenBranch elseBranch =>
    obtain ⟨ts, rfl, h_ts⟩ := h_blocks thenBranch (by simp [h_kind, StatementKind.blocks])
    obtain ⟨us, rfl, h_us⟩ := h_blocks elseBranch (by simp [h_kind, StatementKind.blocks])
    refine ⟨.ifElse id cond ts us, rfl, stands_iff.2 ⟨⟨s, h_s, h_kind⟩, ?_⟩⟩
    simpa [Stmt.children, Stmt.blocks, or_imp, forall_and] using ⟨h_ts, h_us⟩

/-- An id has a standing tree exactly if every way down from it ends and stays in the arena. -/
theorem exists_stands_iff {root : StatementId} :
    (∃ t : Stmt StatementId, t.tag = root ∧ p.Stands t) ↔ p.Ends root ∧ p.StaysInside root := by
  constructor
  · rintro ⟨t, rfl, h⟩
    refine ⟨h.ends, fun id h_path => ?_⟩
    obtain ⟨u, hu, rfl⟩ := h.reaches_iff.1 h_path
    exact (h.inner hu).tag_lt
  · rintro ⟨h_ends, h_inside⟩
    induction h_ends with
    | intro root _ ih =>
      obtain ⟨s, h_s⟩ := exists_statement (h_inside root .refl)
      refine exists_stands h_s fun c hc => ih c ⟨s, h_s, hc⟩ fun id h_path => ?_
      exact h_inside id (.head ⟨s, h_s, hc⟩ h_path)

theorem exists_trees_iff {ids : List StatementId} :
    (∃ ts, p.trees ids = some ts) ↔ ∀ root ∈ ids, p.Ends root ∧ p.StaysInside root := by
  simp only [trees_eq_some_iff, ← exists_stands_iff]
  constructor
  · rintro ⟨ts, rfl, h_ts⟩ root h_root
    obtain ⟨t, ht, rfl⟩ := List.mem_map.1 h_root
    exact ⟨t, rfl, h_ts t ht⟩
  · exact exists_map_tag

/-! ## Procedures -/

/-- The trees of the procedures are those of their bodies. -/
theorem procedureTree?_eq_some_iff {q : Procedure} {t : ProcedureTree} :
    p.procedureTree? q = some t ↔ q.name = t.name ∧ p.trees q.body = some t.body := by
  simp only [procedureTree?, Option.bind_eq_bind, Option.bind_eq_some_iff, Option.some.injEq]
  constructor
  · rintro ⟨body, h_body, rfl⟩
    exact ⟨rfl, h_body⟩
  · rintro ⟨h_name, h_body⟩
    exact ⟨t.body, h_body, by rw [h_name]⟩

end Program

end ProgramQuery
