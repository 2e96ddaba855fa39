/-
  ProgramQuery.Proofs.Facts.Ascending

  The pass from the largest key down.

  When a key is looked at, larger keys are done and smaller ones are not.  So the
  pass follows a path as long as it climbs, and takes one more step, wherever that
  leads (`Climbs`).  All pairs of the relation are found in this way, and nothing
  but paths.  Where every pair leads upwards every path climbs, and all are found; a
  path that leads down before its last step is missed, unless another one climbs.
-/

import ProgramQuery.Program.Numbering
import ProgramQuery.Proofs.Facts.Closure

namespace ProgramQuery.Facts.PairStore

open Relation (ReflTransGen TransGen)

variable {α : Type} [Ord α] [Std.TransOrd α]

/-- All pairs lead from a smaller to a larger member. -/
def Ascends (s : PairStore α α) : Prop :=
  ∀ a b, s.contains a b → compare a b = .lt

/-- A step to a larger node. -/
def StepUp (s : PairStore α α) (a b : α) : Prop :=
  s.contains a b ∧ compare a b = .lt

/-- The pair is joined by a path that climbs up to its last step. -/
def Climbs (s : PairStore α α) (a c : α) : Prop :=
  ∃ b, ReflTransGen s.StepUp a b ∧ s.contains b c

theorem climbs_of_contains {s : PairStore α α} {a c : α} (h : s.contains a c) : s.Climbs a c :=
  ⟨a, .refl, h⟩

theorem Climbs.joined {s : PairStore α α} {a c : α} (h : s.Climbs a c) : s.Joined a c := by
  obtain ⟨b, h_up, h_last⟩ := h
  exact TransGen.tail' (ReflTransGen.mono (fun _ _ h_step => h_step.1) _ _ h_up) h_last

/-- Where all pairs lead upwards, all paths climb. -/
theorem Ascends.climbs_iff {s : PairStore α α} (h : s.Ascends) {a c : α} :
    s.Climbs a c ↔ s.Joined a c := by
  have h_step : s.StepUp = fun a b => s.contains a b = true := by
    funext a b
    exact propext ⟨And.left, fun h_ab => ⟨h_ab, h a b h_ab⟩⟩
  rw [Climbs, Joined, TransGen.tail'_iff, h_step]

/-! ## The pass -/

variable [Std.LawfulEqOrd α]

/-- From the largest key down, a step back is one to a larger key. -/
theorem stepBack_reverse_keys {s : PairStore α α} (h : s.Coherent) {a b : α} :
    s.StepBack s.keys.reverse a b ↔ s.StepUp a b ∧ b ∈ s.keys := by
  have h_sorted : s.keys.reverse.Pairwise fun x y => compare y x = .lt := by
    rw [List.pairwise_reverse]
    exact Std.ExtTreeMap.ordered_keys
  constructor
  · rintro ⟨h_step, l₁, l₂, h_split, h_b⟩
    rw [h_split, List.pairwise_append] at h_sorted
    have h_lt : compare a b = .lt := h_sorted.2.2 b h_b a (List.mem_cons_self ..)
    have h_key : b ∈ s.keys.reverse := by
      rw [h_split]
      exact List.mem_append_left _ h_b
    exact ⟨⟨h_step, h_lt⟩, List.mem_reverse.1 h_key⟩
  · rintro ⟨⟨h_step, h_lt⟩, h_b⟩
    have h_a : a ∈ s.keys.reverse := List.mem_reverse.2 ((h.mem_keys a).2 ⟨b, h_step⟩)
    have h_key : b ∈ s.keys.reverse := List.mem_reverse.2 h_b
    obtain ⟨l₁, l₂, h_split⟩ := List.append_of_mem h_a
    refine ⟨h_step, l₁, l₂, h_split, ?_⟩
    -- The larger key is neither the smaller one itself nor to the right of it.
    rw [h_split, List.mem_append, List.mem_cons] at h_key
    rw [h_split, List.pairwise_append, List.pairwise_cons] at h_sorted
    rcases h_key with h_before | rfl | h_after
    · exact h_before
    · rw [Std.ReflOrd.compare_self] at h_lt
      cases h_lt
    · have h_gt : compare b a = .lt := h_sorted.2.1.1 b h_after
      rw [Std.OrientedOrd.eq_swap, h_lt] at h_gt
      cases h_gt

theorem mem_ascendingPairs_iff_joinedBack {s : PairStore α α} {a c : α} :
    (a, c) ∈ s.ascendingPairs ↔ s.JoinedBack s.keys.reverse a c := by
  have h_nodup : s.keys.reverse.Nodup := List.nodup_reverse.2 Std.ExtTreeMap.nodup_keys
  rw [ascendingPairs, mem_propagated, mem_propagate h_nodup]

theorem joined_of_mem_ascendingPairs {s : PairStore α α} {a c : α}
    (h : (a, c) ∈ s.ascendingPairs) : s.Joined a c :=
  (mem_ascendingPairs_iff_joinedBack.1 h).joined

/-- The pass finds the pairs that are joined by a path which climbs up to its last step. -/
theorem mem_ascendingPairs_iff_climbs {s : PairStore α α} (h : s.Coherent) {a c : α} :
    (a, c) ∈ s.ascendingPairs ↔ s.Climbs a c := by
  rw [mem_ascendingPairs_iff_joinedBack]
  constructor
  · rintro ⟨b, -, h_path, h_last⟩
    have h_up : ∀ x y, s.StepBack s.keys.reverse x y → s.StepUp x y :=
      fun x y h_step => ((stepBack_reverse_keys h).1 h_step).1
    exact ⟨b, ReflTransGen.mono h_up _ _ h_path, h_last⟩
  · rintro ⟨b, h_path, h_last⟩
    -- Every node of the path has a step ahead, so it is a key.
    have h_key : ∀ {x y}, s.contains x y → x ∈ s.keys.reverse :=
      fun h_step => List.mem_reverse.2 ((h.mem_keys _).2 ⟨_, h_step⟩)
    induction h_path using ReflTransGen.head_induction_on with
    | refl => exact ⟨b, h_key h_last, .refl, h_last⟩
    | @head x y h_up _ ih =>
      have h_y : y ∈ s.keys := List.mem_reverse.1 (joinedBack_iff.1 ih).1
      have h_back : s.StepBack s.keys.reverse x y := (stepBack_reverse_keys h).2 ⟨h_up, h_y⟩
      exact joinedBack_iff.2 ⟨h_key h_up.1, y, h_up.1, .inr ⟨h_back, ih⟩⟩

/-- The pass finds all paths if all pairs lead upwards. -/
theorem mem_ascendingPairs {s : PairStore α α} (h : s.Coherent) (h_up : s.Ascends) {a c : α} :
    (a, c) ∈ s.ascendingPairs ↔ s.Joined a c := by
  rw [mem_ascendingPairs_iff_climbs h, h_up.climbs_iff]

/-! ## Relations on statement numbers -/

theorem climbs_ofList {pairs : List (StatementNumber × StatementNumber)} {a c : StatementNumber} :
    (ofList pairs).Climbs a c ↔
      ∃ b, ReflTransGen (fun x y => (x, y) ∈ pairs ∧ x < y) a b ∧ (b, c) ∈ pairs := by
  have h_step : (ofList pairs).StepUp = fun x y => (x, y) ∈ pairs ∧ x < y := by
    funext x y
    rw [StepUp, contains_ofList, Nat.compare_eq_lt]
  simp only [Climbs, h_step, contains_ofList]

/-- The pass over a finite relation on numbers finds all its pairs and nothing but paths.  It
    finds those paths that climb up to their last step, so it finds all of them where every pair
    leads from a lower to a higher number. -/
theorem descending_pass_finds_climbing_paths (pairs : List (StatementNumber × StatementNumber)) :
    (∀ a c, (a, c) ∈ pairs → (a, c) ∈ (ofList pairs).ascendingPairs) ∧
    (∀ a c, (a, c) ∈ (ofList pairs).ascendingPairs → TransGen (fun a b => (a, b) ∈ pairs) a c) ∧
    (∀ a c, (a, c) ∈ (ofList pairs).ascendingPairs ↔
      ∃ b, ReflTransGen (fun x y => (x, y) ∈ pairs ∧ x < y) a b ∧ (b, c) ∈ pairs) ∧
    ((∀ a c, (a, c) ∈ pairs → a < c) → ∀ a c, (a, c) ∈ (ofList pairs).ascendingPairs ↔
      TransGen (fun a b => (a, b) ∈ pairs) a c) := by
  have h_coherent : (ofList pairs).Coherent := .ofList pairs
  have h_found : ∀ a c, (a, c) ∈ (ofList pairs).ascendingPairs ↔ (ofList pairs).Climbs a c :=
    fun _ _ => mem_ascendingPairs_iff_climbs h_coherent
  refine ⟨fun a c h_ac => ?_, fun a c h_ac => ?_, fun a c => ?_, fun h_up a c => ?_⟩
  · rw [h_found]
    exact climbs_of_contains (contains_ofList.2 h_ac)
  · rw [← joined_ofList]
    exact joined_of_mem_ascendingPairs h_ac
  · rw [h_found, climbs_ofList]
  · have h_ascends : (ofList pairs).Ascends :=
      fun x y h_xy => Nat.compare_eq_lt.2 (h_up x y (contains_ofList.1 h_xy))
    rw [mem_ascendingPairs h_coherent h_ascends, joined_ofList]

/-- A tree that leads upwards is closed.  Of the path from 1 through 3 and 2 to 4, which leads down
    in its middle, the beginning is found and the whole is not. -/
theorem pass_over_tree_and_descent :
    (∀ a c, (a, c) ∈ [(1, 2), (2, 3), (3, 4), (2, 5)] → a < c) ∧
      (1, 4) ∈ (ofList [(1, 2), (2, 3), (3, 4), (2, 5)]).ascendingPairs ∧
      (1, 2) ∈ (ofList [(1, 3), (3, 2), (2, 4)]).ascendingPairs ∧
      (1, 4) ∉ (ofList [(1, 3), (3, 2), (2, 4)]).ascendingPairs ∧
      TransGen (fun a b => (a, b) ∈ [(1, 3), (3, 2), (2, 4)]) 1 4 := by
  obtain ⟨-, -, -, h_closed⟩ :=
    descending_pass_finds_climbing_paths [(1, 2), (2, 3), (3, 4), (2, 5)]
  obtain ⟨-, -, h_climbs, -⟩ := descending_pass_finds_climbing_paths [(1, 3), (3, 2), (2, 4)]
  have h_up : ∀ a c, (a, c) ∈ [(1, 2), (2, 3), (3, 4), (2, 5)] → a < c := by
    intro a c h_ac
    simp only [List.mem_cons, Prod.mk.injEq, List.not_mem_nil, or_false] at h_ac
    omega
  refine ⟨h_up, (h_closed h_up 1 4).2 ?_, (h_climbs 1 2).2 ?_, by decide +kernel, ?_⟩
  · exact .head (b := 2) (by simp) (.head (b := 3) (by simp) (.single (by simp)))
  · exact ⟨3, .single (by simp), by simp⟩
  · exact .head (b := 3) (by simp) (.head (b := 2) (by simp) (.single (by simp)))

end ProgramQuery.Facts.PairStore
