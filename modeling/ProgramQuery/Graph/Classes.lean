/-
  ProgramQuery.Graph.Classes

  Division of places into classes.

  Places below a bound are put together two at a time.  A class finder gives every
  place the label of its class afterwards; two places have the same label if and only
  if the unions connect them, and nothing else is known of the labels.  One such
  finder relabels a class at every union.
-/

namespace ProgramQuery.Graph

/-- The places that were put together, one pair after the other. -/
abbrev Unions (n : Nat) := List (Fin n × Fin n)

/-- Two places are connected by unions: every equivalence between the places of each union is one
    between the two. -/
def Unions.Connects {n : Nat} (unions : Unions n) (i j : Fin n) : Prop :=
  ∀ E : Fin n → Fin n → Prop, Equivalence E → (∀ u ∈ unions, E u.1 u.2) → E i j

/-- A way to find the classes after some unions: a label for each place. -/
structure ClassFinder where
  find : {n : Nat} → Unions n → Fin n → Fin n
  find_eq_iff : ∀ {n : Nat} {unions : Unions n} {i j : Fin n},
    find unions i = find unions j ↔ unions.Connects i j

/-! ## Relabelling -/

/-- The classes of the places below a bound: the label of each place. -/
structure Classes (n : Nat) where
  labels : List (Fin n)
  length_labels : labels.length = n

namespace Classes

variable {n : Nat} {s : Classes n}

/-- Each place is a class of its own. -/
def discrete (n : Nat) : Classes n :=
  ⟨List.finRange n, List.length_finRange⟩

/-- The label of the class of a place. -/
def find (s : Classes n) (i : Fin n) : Fin n :=
  s.labels.get (i.cast s.length_labels.symm)

/-- Puts the classes of two places together. -/
def union (s : Classes n) (i j : Fin n) : Classes n where
  labels := s.labels.map fun l => if l = s.find i then s.find j else l
  length_labels := by rw [List.length_map, s.length_labels]

/-- The classes after some more unions. -/
def unionAll (s : Classes n) (unions : Unions n) : Classes n :=
  unions.foldl (fun s u => s.union u.1 u.2) s

@[simp] theorem find_discrete (i : Fin n) : (discrete n).find i = i := by
  rw [find, List.get_eq_getElem]
  exact List.getElem_finRange _

theorem find_union (i j k : Fin n) :
    (s.union i j).find k = if s.find k = s.find i then s.find j else s.find k := by
  rw [find, List.get_eq_getElem]
  exact List.getElem_map _

/-- A union divides no class. -/
theorem find_union_congr {k l : Fin n} (h : s.find k = s.find l) (i j : Fin n) :
    (s.union i j).find k = (s.union i j).find l := by
  rw [find_union, find_union, h]

/-- A union puts its two places together. -/
theorem find_union_same (i j : Fin n) : (s.union i j).find i = (s.union i j).find j := by
  rw [find_union, find_union, if_pos rfl]
  split
  · rfl
  · rfl

/-- An equivalence that holds within the classes, and between two places, holds within the
    classes after their union. -/
theorem equivalence_union {E : Fin n → Fin n → Prop} (h_equivalence : Equivalence E)
    (h : ∀ k l, s.find k = s.find l → E k l) {i j : Fin n} (h_ij : E i j) (k l : Fin n)
    (h_kl : (s.union i j).find k = (s.union i j).find l) : E k l := by
  -- Each place is equivalent to one whose old label is its new one.
  have h_moved : ∀ m, ∃ m', E m m' ∧ s.find m' = (s.union i j).find m := by
    intro m
    rw [find_union]
    split
    · rename_i h_m
      exact ⟨j, h_equivalence.trans (h m i h_m) h_ij, rfl⟩
    · exact ⟨m, h_equivalence.refl m, rfl⟩
  obtain ⟨k', h_k, h_find_k⟩ := h_moved k
  obtain ⟨l', h_l, h_find_l⟩ := h_moved l
  have h_between : E k' l' := h k' l' (by rw [h_find_k, h_find_l, h_kl])
  exact h_equivalence.trans (h_equivalence.trans h_k h_between) (h_equivalence.symm h_l)

/-- Places of one class stay together. -/
theorem find_unionAll_congr {k l : Fin n} (h : s.find k = s.find l) (unions : Unions n) :
    (s.unionAll unions).find k = (s.unionAll unions).find l := by
  unfold unionAll
  induction unions generalizing s with
  | nil => exact h
  | cons u rest ih => exact ih (find_union_congr h u.1 u.2)

/-- The two places of a union are in one class afterwards. -/
theorem find_unionAll_of_mem {unions : Unions n} {u : Fin n × Fin n} (h : u ∈ unions) :
    (s.unionAll unions).find u.1 = (s.unionAll unions).find u.2 := by
  induction unions generalizing s with
  | nil => cases h
  | cons v rest ih =>
    cases h with
    | head => exact find_unionAll_congr (find_union_same u.1 u.2) rest
    | tail _ h => exact ih h

/-- An equivalence that holds within the classes, and between the places of each union, holds
    within the classes after the unions. -/
theorem equivalence_unionAll {E : Fin n → Fin n → Prop} (h_equivalence : Equivalence E)
    {unions : Unions n} (h_unions : ∀ u ∈ unions, E u.1 u.2)
    (h : ∀ k l, s.find k = s.find l → E k l) (k l : Fin n)
    (h_kl : (s.unionAll unions).find k = (s.unionAll unions).find l) : E k l := by
  induction unions generalizing s with
  | nil => exact h k l h_kl
  | cons u rest ih =>
    rw [List.forall_mem_cons] at h_unions
    exact ih h_unions.2 (equivalence_union h_equivalence h h_unions.1) h_kl

end Classes

/-- Finds classes by giving one of the two classes of each union the label of the other. -/
def ClassFinder.relabelling : ClassFinder where
  find unions := ((Classes.discrete _).unionAll unions).find
  find_eq_iff := by
    intro n unions i j
    constructor
    · intro h_find E h_equivalence h_unions
      refine Classes.equivalence_unionAll h_equivalence h_unions (fun k l h_kl => ?_) i j h_find
      rw [Classes.find_discrete, Classes.find_discrete] at h_kl
      rw [h_kl]
      exact h_equivalence.refl l
    · intro h_connects
      -- Having one label is an equivalence, and it holds between the places of each union.
      let label := ((Classes.discrete n).unionAll unions).find
      refine h_connects (fun k l => label k = label l) ⟨fun _ => rfl, Eq.symm, Eq.trans⟩ ?_
      exact fun u h_u => Classes.find_unionAll_of_mem h_u

end ProgramQuery.Graph
