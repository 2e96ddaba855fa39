/-
  ProgramQuery.Proofs.Program.Layout

  Putting a program into an arena and unfolding it again.

  `Stmt.store` pushes the statements of a tree in the order in which they are read to
  their ends, and `Program.ofTexts` so pushes whole procedures.  Pushing gives a parent to
  statements that are there already but keeps their kinds, so what stands in an arena stays
  (`Stands.grows`).  `place` retags a tree with the ids that its statements get in an arena
  of `base` statements: unfolding the ids of a stored list gives exactly the placed
  trees, their ids are distinct, and so the number of the k-th statement in reading order
  is k.
-/

import Mathlib.Data.List.Basic
import Mathlib.Data.List.Nodup
import ProgramQuery.Proofs.Program.Reader
import ProgramQuery.Proofs.Program.Unfold

namespace ProgramQuery

namespace Program

/-! ## Pushing a statement -/

@[simp] theorem size_foldl_link (parent : StatementId) (children : List StatementId)
    (statements : Array Statement) :
    (children.foldl (link parent) statements).size = statements.size := by
  induction children generalizing statements with
  | nil => rfl
  | cons child rest ih => rw [List.foldl_cons, ih, link, Array.size_modify]

/-- The statements that are linked get their parent, and the others stay as they are. -/
theorem getElem?_foldl_link (parent : StatementId) (children : List StatementId)
    (statements : Array Statement) (id : StatementId) :
    (children.foldl (link parent) statements)[id]? = statements[id]?.map fun s =>
      if id ∈ children then { s with parent := some parent } else s := by
  induction children generalizing statements with
  | nil => simp
  | cons child rest ih =>
    rw [List.foldl_cons, ih, link, Array.getElem?_modify]
    by_cases h_child : child = id
    · rw [if_pos h_child, Option.map_map]
      simp [h_child, Function.comp_def]
    · have h_ne : id ≠ child := fun h => h_child h.symm
      simp [h_child, h_ne]

variable {p q : Program} {kind : StatementKind} {pos : Position}

/-- The new statement comes last and has no parent yet; it is the parent of what it lists. -/
theorem statement?_pushStatement (p : Program) (kind : StatementKind) (pos : Position)
    (id : StatementId) :
    (p.pushStatement kind pos).2.statement? id =
      if id = p.statements.size then some ⟨kind, none, pos⟩
      else (p.statement? id).map fun s =>
        if id ∈ kind.children then { s with parent := some p.statements.size } else s := by
  simp only [pushStatement, statement?, Array.getElem?_push, size_foldl_link, getElem?_foldl_link]

@[simp] theorem size_pushStatement (p : Program) (kind : StatementKind) (pos : Position) :
    (p.pushStatement kind pos).2.statements.size = p.statements.size + 1 := by
  simp [pushStatement]

/-! ## Growing arenas -/

/-- The second arena has the statements of the first, with the same kinds. -/
def Grows (p q : Program) : Prop :=
  ∀ id s, p.statement? id = some s → ∃ s', q.statement? id = some s' ∧ s'.kind = s.kind

theorem Grows.refl (p : Program) : p.Grows p :=
  fun _ s h => ⟨s, h, rfl⟩

theorem Grows.trans {r : Program} (h : p.Grows q) (h' : q.Grows r) : p.Grows r := by
  intro id s h_s
  obtain ⟨s', h_s', h_kind⟩ := h id s h_s
  obtain ⟨s'', h_s'', h_kind'⟩ := h' id s' h_s'
  exact ⟨s'', h_s'', h_kind'.trans h_kind⟩

theorem grows_pushStatement (p : Program) (kind : StatementKind) (pos : Position) :
    p.Grows (p.pushStatement kind pos).2 := by
  intro id s h_s
  have h_ne : id ≠ p.statements.size := Nat.ne_of_lt (lt_size_of_statement? h_s)
  rw [statement?_pushStatement, if_neg h_ne, h_s]
  refine ⟨_, rfl, ?_⟩
  split <;> rfl

/-- What stands in an arena stays when it grows. -/
theorem Stands.grows {t : Stmt StatementId} (h : p.Stands t) (h_grows : p.Grows q) :
    q.Stands t := by
  intro u hu
  obtain ⟨s, h_s, h_kind⟩ := h u hu
  obtain ⟨s', h_s', h_kind'⟩ := h_grows _ s h_s
  exact ⟨s', h_s', h_kind'.trans h_kind⟩

theorem Grows.procedureTree? (h : p.Grows q) {r : Procedure} {t : ProcedureTree}
    (h_t : p.procedureTree? r = some t) : q.procedureTree? r = some t := by
  rw [procedureTree?_eq_some_iff, trees_eq_some_iff] at *
  exact ⟨h_t.1, h_t.2.1, fun u hu => (h_t.2.2 u hu).grows h⟩

end Program

/-! ## Storing trees -/

namespace Stmt

variable {α : Type}

mutual

/-- Puts a statement into an arena, after all that is nested in it. -/
def store : Stmt Position → Program → StatementId × Program
  | .simple pos action, p => p.pushStatement (.simple action) pos
  | .whileLoop pos cond body, p =>
    let inner := storeList body p
    inner.2.pushStatement (.whileLoop cond inner.1) pos
  | .ifElse pos cond thenBranch elseBranch, p =>
    let yes := storeList thenBranch p
    let no := storeList elseBranch yes.2
    no.2.pushStatement (.ifElse cond yes.1 no.1) pos

/-- Puts the statements of a list into an arena, one after the other. -/
def storeList : List (Stmt Position) → Program → List StatementId × Program
  | [], p => ([], p)
  | s :: rest, p =>
    let first := store s p
    let others := storeList rest first.2
    (first.1 :: others.1, others.2)

end

mutual

/-- A tree with the ids that it has when it is stored in an arena of `base` statements. -/
def place (base : Nat) : Stmt α → Stmt Nat
  | .simple _ action => .simple base action
  | .whileLoop _ cond body => .whileLoop (base + sizeList body) cond (placeList base body)
  | .ifElse _ cond thenBranch elseBranch =>
    .ifElse (base + sizeList thenBranch + sizeList elseBranch) cond (placeList base thenBranch)
      (placeList (base + sizeList thenBranch) elseBranch)

/-- The trees of a list with the ids that they have when they are stored one after the other. -/
def placeList (base : Nat) : List (Stmt α) → List (Stmt Nat)
  | [] => []
  | s :: rest => place base s :: placeList (base + size s) rest

end

@[simp] theorem placeList_nil (base : Nat) : placeList base ([] : List (Stmt α)) = [] := by
  simp only [placeList]

@[simp] theorem placeList_cons (base : Nat) (s : Stmt α) (rest : List (Stmt α)) :
    placeList base (s :: rest) = s.place base :: placeList (base + s.size) rest := by
  simp only [placeList]

end Stmt

namespace Program

/-- The second arena is the first one with some trees stored in it: they have the ids `ids` and
    stand there, and the arena has grown by `size` statements. -/
structure Stored (p : Program) (size : Nat) (ts : List (Stmt StatementId))
    (ids : List StatementId) (q : Program) : Prop where
  procedures : q.procedures = p.procedures
  size : q.statements.size = p.statements.size + size
  grows : p.Grows q
  ids : ts.map Stmt.tag = ids
  stands : ∀ t ∈ ts, q.Stands t

namespace Stored

variable {p q r : Program} {size more : Nat} {ts us : List (Stmt StatementId)}
  {ids others : List StatementId}

theorem nil (p : Program) : p.Stored 0 [] [] p where
  procedures := rfl
  size := rfl
  grows := .refl p
  ids := rfl
  stands := by simp

theorem append (h : p.Stored size ts ids q) (h' : q.Stored more us others r) :
    p.Stored (size + more) (ts ++ us) (ids ++ others) r where
  procedures := h'.procedures.trans h.procedures
  size := by rw [h'.size, h.size, Nat.add_assoc]
  grows := h.grows.trans h'.grows
  ids := by rw [List.map_append, h.ids, h'.ids]
  stands t ht := by
    rcases List.mem_append.1 ht with ht | ht
    · exact (h.stands t ht).grows h'.grows
    · exact h'.stands t ht

/-- A statement is pushed after all that is nested in it. -/
theorem push {t : Stmt StatementId} (pos : Position) (h : p.Stored size t.children ids q)
    (h_tag : t.tag = p.statements.size + size) :
    p.Stored (size + 1) [t] [(q.pushStatement t.kind pos).1] (q.pushStatement t.kind pos).2 where
  procedures := h.procedures
  size := by rw [size_pushStatement, h.size, Nat.add_assoc]
  grows := h.grows.trans (grows_pushStatement q t.kind pos)
  ids := by simp [h_tag, pushStatement, h.size]
  stands := by
    rw [List.forall_mem_singleton, stands_iff]
    refine ⟨?_, fun c hc => (h.stands c hc).grows (grows_pushStatement q t.kind pos)⟩
    rw [statement?_pushStatement, h_tag, h.size, if_pos rfl]
    exact ⟨_, rfl, rfl⟩

end Stored

/-- A tree that was stored stands in the arena with the ids of its place. -/
theorem stored_place :
    (∀ (s : Stmt Position) (p : Program),
      p.Stored s.size [s.place p.statements.size] [(s.store p).1] (s.store p).2) ∧
    (∀ (ss : List (Stmt Position)) (p : Program),
      p.Stored (Stmt.sizeList ss) (Stmt.placeList p.statements.size ss) (Stmt.storeList ss p).1
        (Stmt.storeList ss p).2) := by
  refine Stmt.induction ?_ ?_ ?_ ?_ ?_
  · intro pos action p
    simp only [Stmt.size, Stmt.place, Stmt.store]
    exact (Stored.nil p).push (t := .simple p.statements.size action) pos rfl
  · intro pos cond body ih p
    have h_body := ih p
    simp only [Stmt.size, Stmt.place, Stmt.store]
    rw [← h_body.ids]
    exact Stored.push (t := .whileLoop _ cond _) pos
      (by simpa [Stmt.children, Stmt.blocks] using h_body) rfl
  · -- The second branch goes on in the arena that the first one leaves.
    intro pos cond thenBranch elseBranch ih_then ih_else p
    have h_then := ih_then p
    have h_else := ih_else (Stmt.storeList thenBranch p).2
    rw [h_then.size] at h_else
    have h_both := h_then.append h_else
    simp only [Stmt.size, Stmt.place, Stmt.store]
    rw [← h_then.ids, ← h_else.ids]
    exact Stored.push (t := .ifElse _ cond _ _) pos
      (by simpa [Stmt.children, Stmt.blocks] using h_both) (Nat.add_assoc ..)
  · intro p
    simp only [Stmt.sizeList, Stmt.placeList, Stmt.storeList]
    exact Stored.nil p
  · intro s rest ih_s ih_rest p
    have h_first := ih_s p
    have h_rest := ih_rest (s.store p).2
    rw [h_first.size] at h_rest
    simp only [Stmt.sizeList, Stmt.placeList, Stmt.storeList]
    exact h_first.append h_rest

end Program

/-! ## Ids -/

namespace Stmt

variable {α : Type}

/-- The ids of some statements are distinct and lie in a range. -/
def TagsIn (lo hi : Nat) (ts : List (Stmt Nat)) : Prop :=
  (ts.map tag).Nodup ∧ ∀ t ∈ ts, lo ≤ t.tag ∧ t.tag < hi

/-- Two ranges, one after the other. -/
theorem TagsIn.append {lo mid hi : Nat} {ts us : List (Stmt Nat)} (h_lo : lo ≤ mid)
    (h_hi : mid ≤ hi) (h_ts : TagsIn lo mid ts) (h_us : TagsIn mid hi us) :
    TagsIn lo hi (ts ++ us) := by
  obtain ⟨h_ts, h_ts_range⟩ := h_ts
  obtain ⟨h_us, h_us_range⟩ := h_us
  constructor
  · rw [List.map_append]
    refine List.nodup_append.2 ⟨h_ts, h_us, ?_⟩
    intro a ha b hb h_eq
    obtain ⟨t, ht, rfl⟩ := List.mem_map.1 ha
    obtain ⟨u, hu, rfl⟩ := List.mem_map.1 hb
    have := h_ts_range t ht
    have := h_us_range u hu
    omega
  · intro t ht
    rcases List.mem_append.1 ht with ht | ht
    · have := h_ts_range t ht
      omega
    · have := h_us_range t ht
      omega

/-- A container is laid out after what is nested in it. -/
theorem TagsIn.cons {lo hi : Nat} {t : Stmt Nat} {ts : List (Stmt Nat)} (h_lo : lo ≤ hi)
    (h_tag : t.tag = hi) (h_ts : TagsIn lo hi ts) : TagsIn lo (hi + 1) (t :: ts) := by
  obtain ⟨h_nodup, h_range⟩ := h_ts
  constructor
  · rw [List.map_cons, List.nodup_cons]
    refine ⟨fun h_own => ?_, h_nodup⟩
    obtain ⟨u, hu, h_u⟩ := List.mem_map.1 h_own
    have := h_range u hu
    omega
  · intro u hu
    rcases List.mem_cons.1 hu with rfl | hu
    · omega
    · have := h_range u hu
      omega

/-- The ids of a placed list are those from `base` on, each once. -/
theorem tags_place :
    (∀ (s : Stmt α) base, TagsIn base (base + s.size) (s.place base).preorder) ∧
    (∀ (ss : List (Stmt α)) base,
      TagsIn base (base + sizeList ss) (preorderList (placeList base ss))) := by
  refine induction ?_ ?_ ?_ ?_ ?_
  · intro tag action base
    simp [TagsIn, place, preorder, Stmt.tag, size]
  · intro tag cond body ih base
    simp only [place, preorder, size]
    exact (ih base).cons (Nat.le_add_right ..) rfl
  · -- The second branch goes on where the first one ends.
    intro tag cond thenBranch elseBranch ih_then ih_else base
    have h_both := (ih_then base).append (Nat.le_add_right ..) (Nat.le_add_right ..)
      (ih_else (base + sizeList thenBranch))
    simp only [place, preorder, size, ← Nat.add_assoc]
    refine h_both.cons ?_ rfl
    omega
  · intro base
    simp [TagsIn]
  · intro s rest ih_s ih_rest base
    simp only [placeList_cons, preorderList_cons, sizeList, ← Nat.add_assoc]
    exact (ih_s base).append (Nat.le_add_right ..) (Nat.le_add_right ..) (ih_rest (base + s.size))

end Stmt

/-! ## Whole programs -/

namespace Program

/-- Puts a procedure into a program. -/
def pushText (p : Program) (q : ProcedureText) : Program :=
  let body := Stmt.storeList q.body p
  body.2.pushProcedure ⟨q.name, q.pos, body.1⟩

/-- The program of some procedures, put into it one after the other. -/
def ofTexts (ps : List ProcedureText) : Program :=
  ps.foldl pushText {}

/-- The procedures with their placed trees, from `base` on. -/
def placedFrom (base : Nat) : List ProcedureText → List ProcedureTree
  | [] => []
  | p :: rest =>
    ⟨p.name, Stmt.placeList base p.body⟩ :: placedFrom (base + Stmt.sizeList p.body) rest

/-- The number of statements in some procedures. -/
def totalSize : List ProcedureText → Nat
  | [] => 0
  | p :: rest => Stmt.sizeList p.body + totalSize rest

theorem procedures_pushText (p : Program) (q : ProcedureText) :
    (p.pushText q).procedures =
      p.procedures ++ [⟨q.name, q.pos, (Stmt.storeList q.body p).1⟩] := by
  rw [pushText, pushProcedure, (stored_place.2 q.body p).procedures]

theorem length_procedures_foldl_pushText (ps : List ProcedureText) (p : Program) :
    (ps.foldl pushText p).procedures.length = p.procedures.length + ps.length := by
  induction ps generalizing p with
  | nil => rfl
  | cons q rest ih =>
    rw [List.foldl_cons, ih, procedures_pushText, List.length_append, List.length_singleton,
      List.length_cons, Nat.add_assoc, Nat.add_comm 1]

/-- The program with one procedure more has its placed trees more. -/
theorem procedureTrees?_pushText {p : Program} {ts : List ProcedureTree}
    (h : p.procedureTrees? = some ts) (q : ProcedureText) :
    (p.pushText q).procedureTrees? =
      some (ts ++ [⟨q.name, Stmt.placeList p.statements.size q.body⟩]) := by
  have h_body := stored_place.2 q.body p
  have h_grows : p.Grows (p.pushText q) := fun id s h_s => h_body.grows id s h_s
  have h_old : p.procedures.mapM (p.pushText q).procedureTree? = some ts := by
    simpa using mapM_map h (k := id) fun _ _ _ => h_grows.procedureTree?
  have h_new : (p.pushText q).procedureTree? ⟨q.name, q.pos, (Stmt.storeList q.body p).1⟩ =
      some ⟨q.name, Stmt.placeList p.statements.size q.body⟩ :=
    procedureTree?_eq_some_iff.2 ⟨rfl, trees_eq_some_iff.2 ⟨h_body.ids, h_body.stands⟩⟩
  rw [procedureTrees?, procedures_pushText, List.mapM_append, h_old, List.mapM_cons, h_new]
  rfl

theorem size_pushText (p : Program) (q : ProcedureText) :
    (p.pushText q).statements.size = p.statements.size + Stmt.sizeList q.body :=
  (stored_place.2 q.body p).size

theorem procedureTrees?_foldl_pushText (ps : List ProcedureText) {p : Program}
    {ts : List ProcedureTree} (h : p.procedureTrees? = some ts) :
    (ps.foldl pushText p).procedureTrees? = some (ts ++ placedFrom p.statements.size ps) := by
  induction ps generalizing p ts with
  | nil => simpa [placedFrom] using h
  | cons q rest ih =>
    rw [List.foldl_cons, ih (procedureTrees?_pushText h q), size_pushText, placedFrom]
    simp

/-- The trees of a program are the placed ones. -/
theorem procedureTrees?_ofTexts (ps : List ProcedureText) :
    (ofTexts ps).procedureTrees? = some (placedFrom 0 ps) := by
  have h_empty : ({} : Program).procedureTrees? = some [] := rfl
  exact procedureTrees?_foldl_pushText ps h_empty

theorem procedureTrees_ofTexts (ps : List ProcedureText) :
    (ofTexts ps).procedureTrees = placedFrom 0 ps := by
  rw [procedureTrees, procedureTrees?_ofTexts, Option.getD_some]

theorem size_foldl_pushText (ps : List ProcedureText) (p : Program) :
    (ps.foldl pushText p).statements.size = p.statements.size + totalSize ps := by
  induction ps generalizing p with
  | nil => rfl
  | cons q rest ih => rw [List.foldl_cons, ih, size_pushText, totalSize, Nat.add_assoc]

theorem size_statements_ofTexts (ps : List ProcedureText) :
    (ofTexts ps).statements.size = totalSize ps := by
  rw [ofTexts, size_foldl_pushText]
  exact Nat.zero_add _

/-! ## Numbers -/

/-- The ids of placed procedures are those from `base` on, each once. -/
theorem tags_placedFrom (base : Nat) (ps : List ProcedureText) :
    Stmt.TagsIn base (base + totalSize ps)
      ((placedFrom base ps).flatMap ProcedureTree.statements) := by
  induction ps generalizing base with
  | nil => simp [placedFrom, Stmt.TagsIn]
  | cons p rest ih =>
    simp only [placedFrom, List.flatMap_cons, totalSize, ProcedureTree.statements, ← Nat.add_assoc]
    exact (Stmt.tags_place.2 p.body base).append (Nat.le_add_right ..) (Nat.le_add_right ..)
      (ih (base + Stmt.sizeList p.body))

end Program

namespace Numbering

/-- Ids that occur once get their places as numbers; other ids keep theirs. -/
theorem getElem?_foldl_set (ids : List Nat) (start : Nat) (numbers : Array Nat)
    (h_nodup : ids.Nodup) (h_range : ∀ id ∈ ids, id < numbers.size) (id : Nat) :
    ((ids.zipIdx start).foldl (fun numbers (id, n) => numbers.setIfInBounds id n) numbers)[id]? =
      if id ∈ ids then some (start + ids.idxOf id) else numbers[id]? := by
  induction ids generalizing start numbers with
  | nil => simp
  | cons x rest ih =>
    obtain ⟨h_x, h_rest⟩ := List.nodup_cons.1 h_nodup
    rw [List.zipIdx_cons, List.foldl_cons, ih (start + 1) _ h_rest
      (by simpa using fun i hi => h_range i (List.mem_cons_of_mem _ hi))]
    -- Later ids differ from this one, so its number is not overwritten.
    by_cases h_id : id = x
    · subst h_id
      rw [if_neg h_x, if_pos (List.mem_cons_self ..), List.idxOf_cons_self]
      simp [h_range id (List.mem_cons_self ..)]
    · have h_ne : x ≠ id := fun h => h_id h.symm
      rw [Array.getElem?_setIfInBounds_ne h_ne]
      by_cases h_mem : id ∈ rest
      · rw [if_pos h_mem, if_pos (List.mem_cons_of_mem _ h_mem), List.idxOf_cons_ne _ h_ne]
        congr 1
        omega
      · rw [if_neg h_mem, if_neg (by simp [h_id, h_mem])]

/-- Statements that are visited once are numbered in the order of their visits. -/
theorem map_number_ofVisits (size : Nat) (ids : List Nat) (h_nodup : ids.Nodup)
    (h_range : ∀ id ∈ ids, id < size) :
    ids.map (ofVisits size ids).number = List.range' 1 ids.length := by
  have h_number : ∀ id ∈ ids, (ofVisits size ids).number id = 1 + ids.idxOf id := by
    intro id h_id
    rw [number, ofVisits, getElem?_foldl_set ids 1 _ h_nodup (by simpa using h_range) id,
      if_pos h_id]
    rfl
  rw [List.map_congr_left h_number]
  apply List.ext_getElem
  · simp
  · intro i h_i _
    simp only [List.length_map] at h_i
    simp [List.Nodup.idxOf_getElem h_nodup]

end Numbering

end ProgramQuery
