/-
  ProgramQuery.Proofs.Facts.WriteOrder

  The order in which facts are added.

  Adding a fact twice is adding it once, and two facts can be added in either order,
  with two exceptions that keep the last of several writes: a statement that is
  registered under two types, and an assignment that is given two right sides.
  Where there are none (`Unambiguous`), a base depends on which facts were added to
  it, and neither on their order nor on how often each one was.
-/

import Mathlib.Data.List.Dedup
import ProgramQuery.Proofs.Facts.Affects
import ProgramQuery.Proofs.Facts.Stars

namespace ProgramQuery.Facts

open Std (ExtTreeMap ExtTreeSet)

/-! ## Sets and maps -/

section

variable {α β : Type} [Ord α] [Std.TransOrd α] [Std.LawfulEqOrd α]

theorem insert_comm (s : ExtTreeSet α) (a b : α) :
    (s.insert a).insert b = (s.insert b).insert a := by
  ext x
  simp only [ExtTreeSet.mem_insert, or_left_comm]

theorem insert_self (s : ExtTreeSet α) (a : α) : (s.insert a).insert a = s.insert a := by
  ext x
  simp only [ExtTreeSet.mem_insert, or_self_left]

/-- Of two values for one key the last is kept. -/
theorem insert_value_again (m : ExtTreeMap α β) (k : α) (v w : β) :
    (m.insert k v).insert k w = m.insert k w := by
  ext x
  simp only [ExtTreeMap.getElem?_insert]
  split <;> rfl

/-- Values can be given in either order, to different keys or where they are the same. -/
theorem insert_value_comm (m : ExtTreeMap α β) {k l : α} {v w : β} (h : k = l → v = w) :
    (m.insert k v).insert l w = (m.insert l w).insert k v := by
  by_cases h_key : k = l
  · obtain rfl := h_key
    rw [h rfl]
  · ext x
    have h_either : ¬ (compare k x = .eq ∧ compare l x = .eq) := by
      simp only [Std.LawfulEqOrd.compare_eq_iff_eq]
      rintro ⟨rfl, rfl⟩
      exact h_key rfl
    simp only [ExtTreeMap.getElem?_insert]
    split <;> split <;> simp_all

variable [Ord β] [Std.TransOrd β] [Std.LawfulEqOrd β]

/-- A map of sets with one more member under a key. -/
def enter (m : ExtTreeMap α (ExtTreeSet β)) (k : α) (v : β) : ExtTreeMap α (ExtTreeSet β) :=
  m.insert k ((m.getD k ∅).insert v)

theorem enter_comm (m : ExtTreeMap α (ExtTreeSet β)) (k l : α) (v w : β) :
    enter (enter m k v) l w = enter (enter m l w) k v := by
  unfold enter
  by_cases h_key : k = l
  · obtain rfl := h_key
    simp only [ExtTreeMap.getD_insert_self, insert_value_again, insert_comm]
  · have h_l : ¬ compare k l = .eq := by simpa using h_key
    have h_k : ¬ compare l k = .eq := by simpa using Ne.symm h_key
    simp only [ExtTreeMap.getD_insert, h_l, h_k, if_false]
    exact insert_value_comm m (absurd · h_key)

theorem enter_self (m : ExtTreeMap α (ExtTreeSet β)) (k : α) (v : β) :
    enter (enter m k v) k v = enter m k v := by
  simp only [enter, ExtTreeMap.getD_insert_self, insert_value_again, insert_self]

end

/-! ## Stores -/

namespace PairStore

variable {α β : Type} [Ord α] [Std.TransOrd α] [Ord β] [Std.TransOrd β]

theorem add_of_contains {s : PairStore α β} {k : α} {v : β} (h : s.contains k v) :
    s.add k v = s := by
  rw [add_eq, if_pos h]

/-- A new pair enters both indices and is counted. -/
theorem add_of_not_contains {s : PairStore α β} {k : α} {v : β} (h : ¬ s.contains k v) :
    s.add k v = ⟨enter s.forward k v, enter s.reverse v k, s.size + 1⟩ := by
  rw [add_eq, if_neg h]
  rfl

variable [Std.LawfulEqOrd α] [Std.LawfulEqOrd β]

theorem add_self (s : PairStore α β) (k : α) (v : β) : (s.add k v).add k v = s.add k v :=
  add_of_contains (contains_add.2 (.inl ⟨rfl, rfl⟩))

theorem add_comm (s : PairStore α β) (k l : α) (v w : β) :
    (s.add k v).add l w = (s.add l w).add k v := by
  by_cases h_same : k = l ∧ v = w
  · obtain ⟨rfl, rfl⟩ := h_same
    rfl
  by_cases h_k : s.contains k v
  · -- A pair that is known stays known.
    have h_later : (s.add l w).contains k v := contains_add.2 (.inr h_k)
    rw [add_of_contains h_k, add_of_contains h_later]
  by_cases h_l : s.contains l w
  · have h_later : (s.add k v).contains l w := contains_add.2 (.inr h_l)
    rw [add_of_contains h_l, add_of_contains h_later]
  · -- Both pairs are new, whichever comes first.
    have h_k' : ¬ (s.add l w).contains k v := by
      rw [contains_add]
      tauto
    have h_l' : ¬ (s.add k v).contains l w := by
      rw [contains_add]
      tauto
    rw [add_of_not_contains h_l', add_of_not_contains h_k', add_of_not_contains h_k,
      add_of_not_contains h_l, enter_comm, enter_comm s.reverse]

end PairStore

/-! ## Parts of the base -/

namespace StatementIndex

/-- Registering is one write to each of the three parts. -/
theorem add_eq (s : StatementIndex) (n : StatementNumber) (t : StatementType) :
    s.add n t = ⟨s.all.insert n, s.types.insert n t, enter s.byType t n⟩ := rfl

theorem add_comm (s : StatementIndex) {n m : StatementNumber} {t u : StatementType}
    (h : n = m → t = u) : (s.add n t).add m u = (s.add m u).add n t := by
  simp only [add_eq]
  rw [insert_comm, insert_value_comm s.types h, enter_comm]

theorem add_self (s : StatementIndex) (n : StatementNumber) (t : StatementType) :
    (s.add n t).add n t = s.add n t := by
  simp only [add_eq, insert_self, insert_value_again, enter_self]

end StatementIndex

namespace Transitive

variable {α : Type} [Ord α] [Std.TransOrd α] [Std.LawfulEqOrd α]

theorem add_comm (t : Transitive α) (a b c d : α) :
    (t.add a b).add c d = (t.add c d).add a b := by
  unfold add
  rw [t.direct.add_comm, t.star.add_comm]

theorem add_self (t : Transitive α) (a b : α) : (t.add a b).add a b = t.add a b := by
  simp only [add, PairStore.add_self]

theorem addDirect_comm (t : Transitive α) (a b c d : α) :
    (t.addDirect a b).addDirect c d = (t.addDirect c d).addDirect a b := by
  unfold addDirect
  rw [t.direct.add_comm]

theorem addDirect_self (t : Transitive α) (a b : α) :
    (t.addDirect a b).addDirect a b = t.addDirect a b := by
  simp only [addDirect, PairStore.add_self]

end Transitive

/-! ## Runs -/

section

variable {σ β : Type} {step : σ → β → σ}

/-- A step that is taken again later on can be left out. -/
theorem foldl_absorb {xs : List β} {x : β} (h_x : x ∈ xs)
    (h_comm : ∀ y ∈ xs, ∀ s, step (step s x) y = step (step s y) x)
    (h_self : ∀ s, step (step s x) x = step s x) (s : σ) :
    xs.foldl step (step s x) = xs.foldl step s := by
  induction xs generalizing s with
  | nil => cases h_x
  | cons y rest ih =>
    rw [List.foldl_cons, List.foldl_cons]
    rcases List.mem_cons.1 h_x with rfl | h_rest
    · rw [h_self]
    · rw [h_comm y (List.mem_cons_self ..)]
      exact ih h_rest (fun z hz => h_comm z (List.mem_cons_of_mem _ hz)) _

/-- Steps that commute, and that change nothing the second time, can be taken in any order and
    any number of times. -/
theorem foldl_eq_of_same_members [DecidableEq β] {xs ys : List β} (h_same : ∀ x, x ∈ xs ↔ x ∈ ys)
    (h_comm : ∀ x ∈ xs, ∀ y ∈ xs, ∀ s, step (step s x) y = step (step s y) x)
    (h_self : ∀ x ∈ xs, ∀ s, step (step s x) x = step s x) (s : σ) :
    xs.foldl step s = ys.foldl step s := by
  have h_once : ∀ zs : List β, (∀ z ∈ zs, z ∈ xs) → ∀ s,
      zs.foldl step s = zs.dedup.foldl step s := by
    intro zs h_zs
    induction zs with
    | nil => exact fun _ => rfl
    | cons z rest ih =>
      obtain ⟨h_z, h_rest⟩ := List.forall_mem_cons.1 h_zs
      intro s
      by_cases h_again : z ∈ rest
      · rw [List.dedup_cons_of_mem h_again, ← ih h_rest, List.foldl_cons]
        exact foldl_absorb h_again (fun y hy => h_comm z h_z y (h_rest y hy)) (h_self z h_z) s
      · rw [List.dedup_cons_of_notMem h_again, List.foldl_cons, List.foldl_cons, ih h_rest]
  have h_perm : xs.dedup.Perm ys.dedup := by
    rw [List.perm_ext_iff_of_nodup (List.nodup_dedup _) (List.nodup_dedup _)]
    simpa using h_same
  calc xs.foldl step s
    _ = xs.dedup.foldl step s := h_once xs (fun _ hz => hz) s
    _ = ys.dedup.foldl step s := h_perm.foldl_eq'
        (fun x hx y hy => h_comm x (List.mem_dedup.1 hx) y (List.mem_dedup.1 hy)) s
    _ = ys.foldl step s := (h_once ys (fun z hz => (h_same z).2 hz) s).symm

end

end ProgramQuery.Facts

namespace ProgramQuery

open Facts

/-- Two facts that do not give one statement two types, nor one assignment two right sides. -/
def Fact.agrees : Fact → Fact → Bool
  | .statement n t, .statement m u => decide (n = m → t = u)
  | .assignment n _ rpn, .assignment m _ rpn' => decide (n = m → rpn = rpn')
  | _, _ => true

/-- Each statement is registered under one type only, and each assignment has one right side
    only. -/
structure Facts.Unambiguous (facts : List Fact) : Prop where
  types : ∀ n t u, .statement n t ∈ facts → .statement n u ∈ facts → t = u
  forms : ∀ n var var' rpn rpn', .assignment n var rpn ∈ facts →
    .assignment n var' rpn' ∈ facts → rpn = rpn'

theorem Facts.unambiguous_iff {facts : List Fact} :
    Unambiguous facts ↔ ∀ f ∈ facts, ∀ g ∈ facts, f.agrees g := by
  constructor
  · intro h f h_f g h_g
    cases f <;> cases g <;> try rfl
    case statement.statement n t m u =>
      apply decide_eq_true
      rintro rfl
      exact h.types n t u h_f h_g
    case assignment.assignment n var rpn m var' rpn' =>
      apply decide_eq_true
      rintro rfl
      exact h.forms n var var' rpn rpn' h_f h_g
  · intro h
    constructor
    · intro n t u h_t h_u
      exact of_decide_eq_true (h _ h_t _ h_u) rfl
    · intro n var var' rpn rpn' h_rpn h_rpn'
      exact of_decide_eq_true (h _ h_rpn _ h_rpn') rfl

instance (facts : List Fact) : Decidable (Unambiguous facts) :=
  decidable_of_iff _ unambiguous_iff.symm

namespace FactBase

theorem add_comm (b : FactBase) {f g : Fact} (h : f.agrees g) :
    (b.add f).add g = (b.add g).add f := by
  -- Facts of different kinds are kept in different parts of the base.
  cases f <;> cases g <;> simp only [add]
  case procedure.procedure => rw [insert_comm]
  case variable.variable => rw [insert_comm]
  case constant.constant => rw [insert_comm]
  case statement.statement => rw [b.statements.add_comm (of_decide_eq_true h)]
  case readVar.readVar => rw [b.readVars.add_comm]
  case printVar.printVar => rw [b.printVars.add_comm]
  case callStatement.callStatement => rw [b.callees.add_comm]
  case assignment.assignment =>
    rw [b.targets.add_comm, insert_value_comm b.sources (of_decide_eq_true h)]
  case ifControl.ifControl => rw [b.ifControl.add_comm]
  case whileControl.whileControl => rw [b.whileControl.add_comm]
  case follows.follows => rw [b.follows.add_comm]
  case parent.parent => rw [b.parent.add_comm]
  case calls.calls => rw [b.calls.add_comm]
  case next.next => rw [b.next.addDirect_comm]
  case modifies.modifies => rw [b.modifies.add_comm]
  case modifiesProc.modifiesProc => rw [b.modifiesProc.add_comm]
  case uses.uses => rw [b.uses.add_comm]
  case usesProc.usesProc => rw [b.usesProc.add_comm]

theorem add_self (b : FactBase) (f : Fact) : (b.add f).add f = b.add f := by
  cases f <;> simp only [add, insert_self, insert_value_again, PairStore.add_self,
    StatementIndex.add_self, Transitive.add_self, Transitive.addDirect_self]

/-- A base depends on which facts were added to it, and on nothing else. -/
theorem addAll_eq_of_same_members (b : FactBase) {facts others : List Fact}
    (h_once : Unambiguous facts) (h_same : ∀ f, f ∈ others ↔ f ∈ facts) :
    b.addAll others = b.addAll facts := by
  refine (foldl_eq_of_same_members (fun f => (h_same f).symm) ?_ ?_ b).symm
  · intro f hf g hg b
    exact b.add_comm (unambiguous_iff.1 h_once f hf g hg)
  · exact fun f _ b => b.add_self f

/-! ## What the base holds -/

theorem typeOf?_ofFacts {facts : List Fact} (h_once : Unambiguous facts) {n : StatementNumber}
    {t : StatementType} :
    (({} : FactBase).addAll facts).finalize.typeOf? n = some t ↔ .statement n t ∈ facts := by
  rw [typeOf?_finalize]
  rcases typeOf?_addAll {} facts n with ⟨u, h_u, h_mem⟩ | ⟨h_none, h_not⟩
  · rw [h_u, Option.some.injEq]
    exact ⟨fun h => h ▸ h_mem, fun h => h_once.types n u t h_mem h⟩
  · rw [h_none]
    simp [h_not, typeOf?]

theorem sources_ofFacts {facts : List Fact} (h_once : Unambiguous facts) {n : StatementNumber}
    {rpn : List String} :
    (({} : FactBase).addAll facts).finalize.sources[n]? = some rpn ↔
      ∃ var, .assignment n var rpn ∈ facts := by
  rw [sources_finalize]
  rcases sources_addAll {} facts n with ⟨form, h_form, var, h_mem⟩ | ⟨h_none, h_not⟩
  · rw [h_form, Option.some.injEq]
    constructor
    · rintro rfl
      exact ⟨var, h_mem⟩
    · rintro ⟨var', h_mem'⟩
      exact h_once.forms n var var' form rpn h_mem h_mem'
  · simp [h_none, h_not]

/-- A base that holds some facts and no others, and what follows from them.  Follows* and Parent*
    are found from the largest number down, so they have the paths that climb up to their last
    step; the other closures have all paths. -/
structure HoldsJust (b : FactBase) (facts : List Fact) : Prop where
  known : ∀ g, b.Knows g ↔ ∃ f ∈ facts, bare g = bare f
  types : ∀ n t, b.typeOf? n = some t ↔ .statement n t ∈ facts
  forms : ∀ n rpn, b.sources[n]? = some rpn ↔ ∃ var, .assignment n var rpn ∈ facts
  follows : ∀ a c, b.follows.star.contains a c ↔ b.follows.direct.Climbs a c
  parent : ∀ a c, b.parent.star.contains a c ↔ b.parent.direct.Climbs a c
  calls : b.calls.Exact
  next : b.next.Exact
  affects : ∀ a c, b.affects.contains a c ↔ b.Influences a c

/-- A base is the same whatever the order in which its facts are added and however often each of
    them is, if no statement is registered under two types and no assignment is given two right
    sides.  It holds these facts, and the closures and Affects that follow from them. -/
theorem finalized_base_independent_of_write_order {facts others : List Fact}
    (h_once : Unambiguous facts) (h_same : ∀ f, f ∈ others ↔ f ∈ facts) :
    (({} : FactBase).addAll others).finalize = (({} : FactBase).addAll facts).finalize ∧
      (({} : FactBase).addAll facts).finalize.HoldsJust facts := by
  refine ⟨congrArg finalize (addAll_eq_of_same_members {} h_once h_same), ?_⟩
  exact {
    known := fun _ => knows_ofFacts
    types := fun _ _ => typeOf?_ofFacts h_once
    forms := fun _ _ => sources_ofFacts h_once
    follows := fun _ _ => contains_followsStar
    parent := fun _ _ => contains_parentStar
    calls := fun _ _ => contains_callsStar
    next := fun _ _ => contains_nextStar
    affects := fun _ _ => contains_affects_ofFacts }

/-- A loop whose body uses what was assigned before it, in a procedure that calls others. -/
def loopFacts : List Fact :=
  [.procedure "main", .calls "main" "sub", .calls "sub" "leaf", .variable "x", .constant "1",
    .statement 1 .assign, .assignment 1 "x" ["1"], .modifies 1 "x", .statement 2 .whileLoop,
    .whileControl 2 "x", .statement 3 .assign, .assignment 3 "y" ["x"], .uses 3 "x", .parent 2 3,
    .follows 1 2, .next 1 2, .next 2 3, .next 3 2]

/-- Added backwards and then once more, the facts are counted once and give the same closures. -/
theorem loopFacts_backwards_and_again :
    Unambiguous loopFacts ∧ (∀ f, f ∈ loopFacts.reverse ++ loopFacts ↔ f ∈ loopFacts) ∧
      (({} : FactBase).addAll (loopFacts.reverse ++ loopFacts)).finalize =
        (({} : FactBase).addAll loopFacts).finalize ∧
      (({} : FactBase).addAll (loopFacts.reverse ++ loopFacts)).finalize.counts =
        (({} : FactBase).addAll loopFacts).finalize.counts ∧
      (({} : FactBase).addAll (loopFacts.reverse ++ loopFacts)).finalize.calls.star.contains
        "main" "leaf" := by
  have h_once : Unambiguous loopFacts := by decide +kernel
  have h_same : ∀ f, f ∈ loopFacts.reverse ++ loopFacts ↔ f ∈ loopFacts := by simp
  obtain ⟨h_eq, h_holds⟩ := finalized_base_independent_of_write_order h_once h_same
  refine ⟨h_once, h_same, h_eq, congrArg counts h_eq, ?_⟩
  rw [h_eq, h_holds.calls]
  exact .head (b := "sub") (by decide +kernel) (.single (by decide +kernel))

end FactBase

end ProgramQuery
