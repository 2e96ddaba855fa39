/-
  ProgramQuery.Proofs.Facts.Stars

  Closures over whole runs of writes.

  A relation is kept together with its closure (`Transitive`).  Adding puts a pair
  of Follows, Parent and Calls into the closure at once and a pair of Next not
  at all; finalizing adds what a pass over the relation finds; nothing is ever
  taken out.  Three facts about such a couple carry the argument:

    * `Sound`: the closure has only pairs that a path of the relation joins;
    * `Eager`: it has all pairs of the relation itself;
    * `Exact`: it has just the pairs that a path joins.

  Every write keeps `Sound`, and keeps `Eager` where adding is eager (`Tracked`).
  Finalizing makes a sound closure exact, provided that the pass finds all paths:
  for Calls and Next it always does, for Follows and Parent if all pairs lead
  from lower to higher numbers.
-/

import ProgramQuery.Proofs.Facts.Base

namespace ProgramQuery.Facts

open Relation (TransGen)

/-- A path stays one when pairs are added. -/
theorem PairStore.Joined.mono {α : Type} [Ord α] [Std.TransOrd α] {s t : PairStore α α}
    (h : ∀ a b, s.contains a b → t.contains a b) {a c : α} (h_path : s.Joined a c) :
    t.Joined a c :=
  TransGen.mono h a c h_path

/-! ## A relation and its closure -/

namespace Transitive

variable {α : Type} [Ord α] [Std.TransOrd α]

/-- The closure has only pairs that a path of the relation joins. -/
def Sound (t : Transitive α) : Prop :=
  ∀ a c, t.star.contains a c → t.direct.Joined a c

/-- The closure has the pairs of the relation. -/
def Eager (t : Transitive α) : Prop :=
  ∀ a c, t.direct.contains a c → t.star.contains a c

/-- The closure has just the pairs that a path of the relation joins. -/
def Exact (t : Transitive α) : Prop :=
  ∀ a c, t.star.contains a c ↔ t.direct.Joined a c

theorem sound_empty : ({} : Transitive α).Sound := by
  intro a c h
  rw [show ({} : Transitive α).star = ∅ from rfl, PairStore.contains_empty] at h
  cases h

theorem eager_empty : ({} : Transitive α).Eager := by
  intro a c h
  rw [show ({} : Transitive α).direct = ∅ from rfl, PairStore.contains_empty] at h
  cases h

variable [Std.LawfulEqOrd α]

theorem Sound.add {t : Transitive α} (h : t.Sound) (x y : α) : (t.add x y).Sound := by
  intro a c h_star
  have h_mono : ∀ a b, t.direct.contains a b → (t.add x y).direct.contains a b :=
    fun a b h_ab => PairStore.contains_add.2 (.inr h_ab)
  rcases PairStore.contains_add.1 h_star with ⟨rfl, rfl⟩ | h_old
  · exact PairStore.joined_of_contains (PairStore.contains_add.2 (.inl ⟨rfl, rfl⟩))
  · exact (h a c h_old).mono h_mono

theorem Sound.addDirect {t : Transitive α} (h : t.Sound) (x y : α) : (t.addDirect x y).Sound := by
  intro a c h_star
  have h_mono : ∀ a b, t.direct.contains a b → (t.addDirect x y).direct.contains a b :=
    fun a b h_ab => PairStore.contains_add.2 (.inr h_ab)
  exact (h a c h_star).mono h_mono

theorem Eager.add {t : Transitive α} (h : t.Eager) (x y : α) : (t.add x y).Eager := by
  intro a c h_direct
  apply PairStore.contains_add.2
  rcases PairStore.contains_add.1 h_direct with h_new | h_old
  · exact .inl h_new
  · exact .inr (h a c h_old)

theorem Sound.extendStar {t : Transitive α} (h : t.Sound) {pairs : List (α × α)}
    (h_pairs : ∀ a c, (a, c) ∈ pairs → t.direct.Joined a c) : (t.extendStar pairs).Sound := by
  intro a c h_star
  rcases PairStore.contains_addAll.1 h_star with h_new | h_old
  · exact h_pairs a c h_new
  · exact h a c h_old

theorem Eager.extendStar {t : Transitive α} (h : t.Eager) (pairs : List (α × α)) :
    (t.extendStar pairs).Eager :=
  fun a c h_direct => PairStore.contains_addAll.2 (.inr (h a c h_direct))

/-- A pass that finds all paths completes a sound closure. -/
theorem Sound.exact_extendStar {t : Transitive α} (h : t.Sound) {pairs : List (α × α)}
    (h_pairs : ∀ a c, (a, c) ∈ pairs ↔ t.direct.Joined a c) : (t.extendStar pairs).Exact := by
  intro a c
  refine ⟨h.extendStar (fun a c => (h_pairs a c).1) a c, fun h_path => ?_⟩
  exact PairStore.contains_addAll.2 (.inl ((h_pairs a c).2 h_path))

end Transitive

end ProgramQuery.Facts

namespace ProgramQuery.FactBase

open Facts

/-! ## One write, and whole runs -/

/-- All closures are sound, and those to which adding is eager have the pairs of their
    relations. -/
structure Tracked (b : FactBase) : Prop where
  follows : b.follows.Sound ∧ b.follows.Eager
  parent : b.parent.Sound ∧ b.parent.Eager
  calls : b.calls.Sound ∧ b.calls.Eager
  next : b.next.Sound

theorem tracked_empty : ({} : FactBase).Tracked where
  follows := ⟨Transitive.sound_empty, Transitive.eager_empty⟩
  parent := ⟨Transitive.sound_empty, Transitive.eager_empty⟩
  calls := ⟨Transitive.sound_empty, Transitive.eager_empty⟩
  next := Transitive.sound_empty

theorem Tracked.add {b : FactBase} (h : b.Tracked) (f : Fact) : (b.add f).Tracked := by
  cases f with
  | follows before after =>
    exact { h with follows := ⟨h.follows.1.add before after, h.follows.2.add before after⟩ }
  | parent container child =>
    exact { h with parent := ⟨h.parent.1.add container child, h.parent.2.add container child⟩ }
  | calls caller callee =>
    exact { h with calls := ⟨h.calls.1.add caller callee, h.calls.2.add caller callee⟩ }
  | next before after => exact { h with next := h.next.addDirect before after }
  | _ => exact { h with }

/-- No pass finds anything but paths, whatever the relation. -/
theorem Tracked.finalize {b : FactBase} (h : b.Tracked) (h_coherent : b.Coherent) :
    b.finalize.Tracked where
  follows := ⟨h.follows.1.extendStar fun _ _ => PairStore.joined_of_mem_ascendingPairs,
    h.follows.2.extendStar _⟩
  parent := ⟨h.parent.1.extendStar fun _ _ => PairStore.joined_of_mem_ascendingPairs,
    h.parent.2.extendStar _⟩
  calls := ⟨h.calls.1.extendStar fun _ _ => (PairStore.mem_acyclicPairs h_coherent.calls).1,
    h.calls.2.extendStar _⟩
  next := h.next.extendStar fun _ _ => (PairStore.mem_reachablePairs h_coherent.next).1

theorem Tracked.writeAll {b : FactBase} (h : b.Tracked) (h_coherent : b.Coherent)
    (ws : List Write) : (b.writeAll ws).Tracked := by
  have h_add : ∀ (b : FactBase) f, b.Tracked ∧ b.Coherent →
      (b.add f).Tracked ∧ (b.add f).Coherent :=
    fun _ f h => ⟨h.1.add f, h.2.add f⟩
  have h_finalize : ∀ b : FactBase, b.Tracked ∧ b.Coherent →
      b.finalize.Tracked ∧ b.finalize.Coherent :=
    fun _ h => ⟨h.1.finalize h.2, h.2.finalize⟩
  exact (writeAll_preserves h_add h_finalize ⟨h, h_coherent⟩ ws).1

/-! ## After finalizing -/

theorem ascends_of_lt {s : PairStore StatementNumber StatementNumber}
    (h : ∀ a c, s.contains a c → a < c) : s.Ascends :=
  fun a c h_ac => Nat.compare_eq_lt.2 (h a c h_ac)

/-- Over every run of writes, the closures have only paths of the relations as they stand, and
    those of Follows, Parent and Calls have the relations themselves.  Right after finalizing,
    Calls* and Next* have all paths, and Follows* and Parent* have all of them if their
    relations lead from lower to higher numbers. -/
theorem stars_track_relations (ws : List Write) :
    (({} : FactBase).writeAll ws).Tracked ∧
    (({} : FactBase).writeAll (ws ++ [.finalize])).calls.Exact ∧
    (({} : FactBase).writeAll (ws ++ [.finalize])).next.Exact ∧
    ((∀ a c, (({} : FactBase).writeAll (ws ++ [.finalize])).follows.direct.contains a c → a < c) →
      (({} : FactBase).writeAll (ws ++ [.finalize])).follows.Exact) ∧
    ((∀ a c, (({} : FactBase).writeAll (ws ++ [.finalize])).parent.direct.contains a c → a < c) →
      (({} : FactBase).writeAll (ws ++ [.finalize])).parent.Exact) := by
  have h_tracked := tracked_empty.writeAll coherent_empty ws
  have h_coherent := coherent_empty.writeAll ws
  have h_last : ({} : FactBase).writeAll (ws ++ [.finalize]) =
      (({} : FactBase).writeAll ws).finalize := by
    rw [FactBase.writeAll, List.foldl_append]
    rfl
  rw [h_last]
  refine ⟨h_tracked, ?_, ?_, fun h_up => ?_, fun h_up => ?_⟩
  · exact h_tracked.calls.1.exact_extendStar fun _ _ => PairStore.mem_acyclicPairs h_coherent.calls
  · exact h_tracked.next.exact_extendStar fun _ _ => PairStore.mem_reachablePairs h_coherent.next
  · exact h_tracked.follows.1.exact_extendStar fun _ _ =>
      PairStore.mem_ascendingPairs h_coherent.follows (ascends_of_lt h_up)
  · exact h_tracked.parent.1.exact_extendStar fun _ _ =>
      PairStore.mem_ascendingPairs h_coherent.parent (ascends_of_lt h_up)

/-- Two procedures that call each other, and a loop that is closed after a first round. -/
def closedLater : List Write :=
  [.add (.calls "p" "q"), .add (.calls "q" "p"), .add (.next 1 2), .add (.follows 2 3), .finalize,
    .add (.next 2 1), .add (.follows 1 2), .add (.parent 3 4)]

/-- A second round completes the closures of the first: around both cycles, and through the pair
    of Follows that came late. -/
theorem stars_of_closedLater :
    (({} : FactBase).writeAll (closedLater ++ [.finalize])).calls.star.contains "p" "p" ∧
      (({} : FactBase).writeAll (closedLater ++ [.finalize])).next.star.contains 2 2 ∧
      (∀ a c, (({} : FactBase).writeAll (closedLater ++ [.finalize])).follows.direct.contains a c →
        a < c) ∧
      (({} : FactBase).writeAll (closedLater ++ [.finalize])).follows.star.contains 1 3 ∧
      ¬ (({} : FactBase).writeAll closedLater).follows.star.contains 1 3 := by
  obtain ⟨-, h_calls, h_next, h_follows, -⟩ := stars_track_relations closedLater
  have h_up : ∀ a c, (({} : FactBase).writeAll (closedLater ++ [.finalize])).follows.direct.contains
      a c → a < c := by
    have h_pairs :
        ∀ p ∈ (({} : FactBase).writeAll (closedLater ++ [.finalize])).follows.direct.pairs,
          p.1 < p.2 := by decide +kernel
    exact fun a c h => h_pairs (a, c) (PairStore.mem_pairs.2 h)
  refine ⟨(h_calls _ _).2 ?_, (h_next _ _).2 ?_, h_up, (h_follows h_up _ _).2 ?_, by decide +kernel⟩
  · exact .head (b := "q") (by decide +kernel) (.single (by decide +kernel))
  · exact .head (b := 1) (by decide +kernel) (.single (by decide +kernel))
  · exact .head (b := 2) (by decide +kernel) (.single (by decide +kernel))

end ProgramQuery.FactBase
