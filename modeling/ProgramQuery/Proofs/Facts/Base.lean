/-
  ProgramQuery.Proofs.Facts.Base

  What a fact base knows after some facts were added.

  `Knows` reads a fact back out of the base.  A base that was built from facts knows
  exactly these, with two exceptions that keep the last of several writes: the
  type of a statement and the right side of an assignment.  Finalizing changes none
  of this; it fills the closures, which are the paths of their relations.
-/

import ProgramQuery.Facts.Derived
import ProgramQuery.Proofs.Facts.Ascending

namespace ProgramQuery

open Facts
open Std (ExtTreeMap ExtTreeSet)

namespace FactBase

/-! ## Facts -/

/-- Whether a fact can be read back.  Of an assignment this is the variable only. -/
def Knows (b : FactBase) : Fact → Prop
  | .procedure name => name ∈ b.procedures
  | .variable name => name ∈ b.vars
  | .constant digits => digits ∈ b.constants
  | .statement n type => n ∈ b.statements.ofType type
  | .readVar n var => b.readVars.contains n var
  | .printVar n var => b.printVars.contains n var
  | .callStatement n procedure => b.callees.contains n procedure
  | .assignment n var _ => b.targets.contains n var
  | .ifControl n var => b.ifControl.contains n var
  | .whileControl n var => b.whileControl.contains n var
  | .follows before after => b.follows.direct.contains before after
  | .parent container child => b.parent.direct.contains container child
  | .calls caller callee => b.calls.direct.contains caller callee
  | .next before after => b.next.direct.contains before after
  | .modifies n var => b.modifies.contains n var
  | .modifiesProc procedure var => b.modifiesProc.contains procedure var
  | .uses n var => b.uses.contains n var
  | .usesProc procedure var => b.usesProc.contains procedure var

end FactBase

/-- A fact without the right side of an assignment. -/
def Facts.bare : Fact → Fact
  | .assignment n var _ => .assignment n var []
  | f => f

namespace FactBase

theorem mem_ofType_add {s : StatementIndex} {n m : StatementNumber} {t u : StatementType} :
    m ∈ (s.add n t).ofType u ↔ (m = n ∧ u = t) ∨ m ∈ s.ofType u := by
  simp only [StatementIndex.ofType, StatementIndex.add, ExtTreeMap.getD_insert]
  split
  · rename_i h_type
    obtain rfl := Std.LawfulEqOrd.eq_of_compare h_type
    simp [@eq_comm _ n m]
  · rename_i h_type
    have h_ne : u ≠ t := fun h => h_type (h ▸ Std.ReflOrd.compare_self)
    simp [h_ne]

theorem mem_insert_iff {names : NameSet} {name x : String} :
    x ∈ names.insert name ↔ x = name ∨ x ∈ names := by
  simp [@eq_comm _ name x]

/-- Adding a fact makes it known, and no other. -/
theorem knows_add (b : FactBase) (f g : Fact) :
    (b.add f).Knows g ↔ bare g = bare f ∨ b.Knows g := by
  cases f <;> cases g <;>
    simp [add, Knows, bare, Transitive.add, Transitive.addDirect, mem_ofType_add, mem_insert_iff,
      -ExtTreeSet.mem_insert]

theorem knows_addAll (b : FactBase) (facts : List Fact) (g : Fact) :
    (b.addAll facts).Knows g ↔ (∃ f ∈ facts, bare g = bare f) ∨ b.Knows g := by
  unfold addAll
  induction facts generalizing b with
  | nil => simp
  | cons f rest ih =>
    rw [List.foldl_cons, ih, knows_add, List.exists_mem_cons_iff]
    simp only [or_assoc, or_left_comm]

theorem not_knows_empty (g : Fact) : ¬ ({} : FactBase).Knows g := by
  cases g <;> simp [Knows, StatementIndex.ofType]

/-- Finalizing adds no fact. -/
theorem knows_finalize (b : FactBase) (g : Fact) : b.finalize.Knows g ↔ b.Knows g := by
  cases g <;> rfl

/-- Writes make known the facts among them, however often the base is finalized in between. -/
theorem knows_writeAll (b : FactBase) (ws : List Write) (g : Fact) :
    (b.writeAll ws).Knows g ↔ (∃ f, .add f ∈ ws ∧ bare g = bare f) ∨ b.Knows g := by
  unfold writeAll
  induction ws generalizing b with
  | nil => simp
  | cons w rest ih =>
    rw [List.foldl_cons, ih]
    cases w with
    | add f =>
      rw [write, knows_add]
      simp only [List.mem_cons, Write.add.injEq, or_and_right, exists_or, exists_eq_left, or_assoc,
        or_left_comm]
    | finalize =>
      rw [write, knows_finalize]
      simp only [List.mem_cons, reduceCtorEq, false_or]

/-- A base of facts knows these and no others. -/
theorem knows_ofFacts {facts : List Fact} {g : Fact} :
    (({} : FactBase).addAll facts).finalize.Knows g ↔ ∃ f ∈ facts, bare g = bare f := by
  rw [knows_finalize, knows_addAll]
  simp only [not_knows_empty, or_false]

/-- Of facts other than assignments nothing is left out. -/
theorem knows_ofFacts_iff_mem {facts : List Fact} {g : Fact}
    (h_g : ∀ n var rpn, g ≠ .assignment n var rpn) :
    (({} : FactBase).addAll facts).finalize.Knows g ↔ g ∈ facts := by
  have h_bare : ∀ f, bare g = bare f ↔ g = f := by
    intro f
    cases g <;> cases f <;> simp_all [bare]
  rw [knows_ofFacts]
  simp [h_bare]

/-- An assignment is known whatever its right side. -/
theorem contains_targets {facts : List Fact} {n : StatementNumber} {var : String} :
    (({} : FactBase).addAll facts).finalize.targets.contains n var ↔
      ∃ rpn, .assignment n var rpn ∈ facts := by
  have h_knows : (({} : FactBase).addAll facts).finalize.Knows (.assignment n var []) ↔
      ∃ f ∈ facts, bare (.assignment n var []) = bare f := knows_ofFacts
  refine h_knows.trans ?_
  constructor
  · rintro ⟨f, hf, h_bare⟩
    cases f <;> simp only [bare, reduceCtorEq, Fact.assignment.injEq, and_true] at h_bare
    obtain ⟨rfl, rfl⟩ := h_bare
    exact ⟨_, hf⟩
  · rintro ⟨rpn, hf⟩
    exact ⟨_, hf, rfl⟩

/-! ## Last writes -/

/-- The type under which a fact registers a statement. -/
def registered? (n : StatementNumber) : Fact → Option StatementType
  | .statement m t => if m = n then some t else none
  | _ => none

/-- The form that a fact gives to an assignment. -/
def givenForm? (n : StatementNumber) : Fact → Option (List String)
  | .assignment m _ rpn => if m = n then some rpn else none
  | _ => none

theorem registered?_eq_some {n : StatementNumber} {f : Fact} {t : StatementType} :
    registered? n f = some t ↔ f = .statement n t := by
  cases f <;> simp [registered?]

theorem givenForm?_eq_some {n : StatementNumber} {f : Fact} {rpn : List String} :
    givenForm? n f = some rpn ↔ ∃ var, f = .assignment n var rpn := by
  cases f <;> simp [givenForm?]

/-- A reading that each fact sets or leaves as it is gives what some fact has set, or what it
    gave before if none has. -/
theorem read_addAll {β : Type} (read : FactBase → Option β) (set? : Fact → Option β)
    (h : ∀ b f, read (b.add f) = (set? f).or (read b)) (b : FactBase) (facts : List Fact) :
    (∃ v, read (b.addAll facts) = some v ∧ ∃ f ∈ facts, set? f = some v) ∨
      (read (b.addAll facts) = read b ∧ ∀ f ∈ facts, set? f = none) := by
  unfold addAll
  induction facts generalizing b with
  | nil => exact .inr ⟨rfl, by simp⟩
  | cons f rest ih =>
    rw [List.foldl_cons]
    rcases ih (b.add f) with ⟨v, h_v, g, hg, h_g⟩ | ⟨h_eq, h_none⟩
    · exact .inl ⟨v, h_v, g, List.mem_cons_of_mem _ hg, h_g⟩
    · -- No later fact sets anything, so this one decides.
      rw [h_eq, h]
      cases h_f : set? f with
      | some v => exact .inl ⟨v, rfl, f, List.mem_cons_self .., h_f⟩
      | none => exact .inr ⟨rfl, List.forall_mem_cons.2 ⟨h_f, h_none⟩⟩

/-- A fact that registers a statement gives it its type, and no other fact changes that. -/
theorem typeOf?_add (b : FactBase) (f : Fact) (n : StatementNumber) :
    (b.add f).typeOf? n = (registered? n f).or (b.typeOf? n) := by
  cases f with
  | statement m t =>
    by_cases h : m = n <;> simp [registered?, add, typeOf?, StatementIndex.add,
      ExtTreeMap.getElem?_insert, h]
  | _ => rfl

/-- The type of a statement is one under which it was registered last. -/
theorem typeOf?_addAll (b : FactBase) (facts : List Fact) (n : StatementNumber) :
    (∃ t, (b.addAll facts).typeOf? n = some t ∧ .statement n t ∈ facts) ∨
      ((b.addAll facts).typeOf? n = b.typeOf? n ∧ ∀ t, .statement n t ∉ facts) := by
  have h_set := fun b f => typeOf?_add b f n
  rcases read_addAll (fun b => b.typeOf? n) _ h_set b facts with
    ⟨t, h_t, f, hf, h_f⟩ | ⟨h_eq, h_none⟩
  · rw [registered?_eq_some] at h_f
    exact .inl ⟨t, h_t, h_f ▸ hf⟩
  · refine .inr ⟨h_eq, fun t h_mem => ?_⟩
    have h_some := registered?_eq_some.2 (rfl : Fact.statement n t = _)
    rw [h_none _ h_mem] at h_some
    cases h_some

/-- The form of an assignment is one that it was given last. -/
theorem sources_addAll (b : FactBase) (facts : List Fact) (n : StatementNumber) :
    (∃ rpn, (b.addAll facts).sources[n]? = some rpn ∧ ∃ var, .assignment n var rpn ∈ facts) ∨
      ((b.addAll facts).sources[n]? = b.sources[n]? ∧
        ∀ var rpn, .assignment n var rpn ∉ facts) := by
  have h_set : ∀ (b : FactBase) (f : Fact),
      (b.add f).sources[n]? = (givenForm? n f).or b.sources[n]? := by
    intro b f
    cases f with
    | assignment m var rpn =>
      by_cases h : m = n <;> simp [givenForm?, add, ExtTreeMap.getElem?_insert, h]
    | _ => rfl
  rcases read_addAll (fun b => b.sources[n]?) _ h_set b facts with
    ⟨rpn, h_rpn, f, hf, h_f⟩ | ⟨h_eq, h_none⟩
  · obtain ⟨var, rfl⟩ := givenForm?_eq_some.1 h_f
    exact .inl ⟨rpn, h_rpn, var, hf⟩
  · refine .inr ⟨h_eq, fun var rpn h_mem => ?_⟩
    have h_some := givenForm?_eq_some.2 ⟨var, (rfl : Fact.assignment n var rpn = _)⟩
    rw [h_none _ h_mem] at h_some
    cases h_some

theorem typeOf?_finalize (b : FactBase) (n : StatementNumber) :
    b.finalize.typeOf? n = b.typeOf? n := rfl

theorem sources_finalize (b : FactBase) : b.finalize.sources = b.sources := rfl

/-! ## Coherence -/

/-- All stores of a base are coherent. -/
structure Coherent (b : FactBase) : Prop where
  targets : b.targets.Coherent
  ifControl : b.ifControl.Coherent
  whileControl : b.whileControl.Coherent
  follows : b.follows.direct.Coherent
  followsStar : b.follows.star.Coherent
  parent : b.parent.direct.Coherent
  parentStar : b.parent.star.Coherent
  calls : b.calls.direct.Coherent
  callsStar : b.calls.star.Coherent
  next : b.next.direct.Coherent
  nextStar : b.next.star.Coherent
  modifies : b.modifies.Coherent
  modifiesProc : b.modifiesProc.Coherent
  uses : b.uses.Coherent
  usesProc : b.usesProc.Coherent
  affects : b.affects.Coherent

theorem coherent_empty : ({} : FactBase).Coherent := by
  constructor <;> exact .empty

theorem Coherent.add {b : FactBase} (h : b.Coherent) (f : Fact) : (b.add f).Coherent := by
  cases f with
  | assignment n var rpn => exact { h with targets := h.targets.add n var }
  | ifControl n var => exact { h with ifControl := h.ifControl.add n var }
  | whileControl n var => exact { h with whileControl := h.whileControl.add n var }
  | follows before after =>
    exact { h with
      follows := h.follows.add before after
      followsStar := h.followsStar.add before after }
  | parent container child =>
    exact { h with
      parent := h.parent.add container child, parentStar := h.parentStar.add container child }
  | calls caller callee =>
    exact { h with calls := h.calls.add caller callee, callsStar := h.callsStar.add caller callee }
  | next before after => exact { h with next := h.next.add before after }
  | modifies n var => exact { h with modifies := h.modifies.add n var }
  | modifiesProc procedure var => exact { h with modifiesProc := h.modifiesProc.add procedure var }
  | uses n var => exact { h with uses := h.uses.add n var }
  | usesProc procedure var => exact { h with usesProc := h.usesProc.add procedure var }
  | _ => exact { h with }

theorem Coherent.addAll {b : FactBase} (h : b.Coherent) (facts : List Fact) :
    (b.addAll facts).Coherent := by
  unfold FactBase.addAll
  induction facts generalizing b with
  | nil => exact h
  | cons f rest ih => exact ih (h.add f)

theorem Coherent.finalize {b : FactBase} (h : b.Coherent) : b.finalize.Coherent :=
  { h with
    followsStar := h.followsStar.addAll _
    parentStar := h.parentStar.addAll _
    callsStar := h.callsStar.addAll _
    nextStar := h.nextStar.addAll _
    affects := h.affects.addAll _ }

/-- What both kinds of writes preserve holds after all writes. -/
theorem writeAll_preserves {P : FactBase → Prop} (h_add : ∀ b f, P b → P (b.add f))
    (h_finalize : ∀ b, P b → P b.finalize) {b : FactBase} (h : P b) (ws : List Write) :
    P (b.writeAll ws) := by
  unfold writeAll
  induction ws generalizing b with
  | nil => exact h
  | cons w rest ih =>
    cases w with
    | add f => exact ih (h_add b f h)
    | finalize => exact ih (h_finalize b h)

theorem Coherent.writeAll {b : FactBase} (h : b.Coherent) (writes : List Write) :
    (b.writeAll writes).Coherent :=
  writeAll_preserves (fun _ f h => h.add f) (fun _ h => h.finalize) h writes

theorem coherent_ofFacts (facts : List Fact) : (({} : FactBase).addAll facts).finalize.Coherent :=
  (coherent_empty.addAll facts).finalize

/-! ## Closures -/

/-- Before it is finalized, a base has in its closures what was added to their relations. -/
theorem stars_addAll (facts : List Fact) :
    let b := ({} : FactBase).addAll facts
    b.follows.star = b.follows.direct ∧ b.parent.star = b.parent.direct ∧
      b.calls.star = b.calls.direct ∧ b.next.star = ∅ := by
  have h_fold : ∀ (facts : List Fact) (b : FactBase),
      b.follows.star = b.follows.direct ∧ b.parent.star = b.parent.direct ∧
        b.calls.star = b.calls.direct ∧ b.next.star = ∅ →
      (b.addAll facts).follows.star = (b.addAll facts).follows.direct ∧
        (b.addAll facts).parent.star = (b.addAll facts).parent.direct ∧
        (b.addAll facts).calls.star = (b.addAll facts).calls.direct ∧
        (b.addAll facts).next.star = ∅ := by
    intro facts
    unfold addAll
    induction facts with
    | nil => exact fun b h => h
    | cons f rest ih =>
      intro b h
      apply ih (b.add f)
      cases f <;> simp [FactBase.add, Transitive.add, Transitive.addDirect, h]
  exact h_fold facts {} ⟨rfl, rfl, rfl, rfl⟩

section

variable {facts : List Fact}

/-- Next* is joined by paths of Next. -/
theorem contains_nextStar {a c : StatementNumber} :
    (({} : FactBase).addAll facts).finalize.next.star.contains a c ↔
      (({} : FactBase).addAll facts).finalize.next.direct.Joined a c := by
  have h_star := (stars_addAll facts).2.2.2
  have h_coherent := (coherent_empty.addAll facts).next
  simp only [FactBase.finalize, Transitive.extendStar, PairStore.contains_addAll, h_star,
    PairStore.contains_empty, Bool.false_eq_true, or_false]
  exact PairStore.mem_reachablePairs h_coherent

/-- Calls* is joined by paths of Calls. -/
theorem contains_callsStar {a c : String} :
    (({} : FactBase).addAll facts).finalize.calls.star.contains a c ↔
      (({} : FactBase).addAll facts).finalize.calls.direct.Joined a c := by
  have h_star := (stars_addAll facts).2.2.1
  have h_coherent := (coherent_empty.addAll facts).calls
  simp only [FactBase.finalize, Transitive.extendStar, PairStore.contains_addAll, h_star,
    PairStore.mem_acyclicPairs h_coherent]
  exact ⟨fun h => h.elim id PairStore.joined_of_contains, .inl⟩

/-- A closure that had the pairs of its relation, extended by the pass from the largest key down,
    has the pairs that a path joins which climbs up to its last step. -/
theorem contains_star_ascending {t : Transitive StatementNumber} (h_coherent : t.direct.Coherent)
    (h_star : t.star = t.direct) {a c : StatementNumber} :
    (t.extendStar t.direct.ascendingPairs).star.contains a c ↔ t.direct.Climbs a c := by
  simp only [Transitive.extendStar, PairStore.contains_addAll, h_star,
    PairStore.mem_ascendingPairs_iff_climbs h_coherent]
  exact ⟨fun h => h.elim id PairStore.climbs_of_contains, .inl⟩

/-- Follows* is joined by paths of Follows that climb. -/
theorem contains_followsStar {a c : StatementNumber} :
    (({} : FactBase).addAll facts).finalize.follows.star.contains a c ↔
      (({} : FactBase).addAll facts).finalize.follows.direct.Climbs a c :=
  contains_star_ascending (coherent_empty.addAll facts).follows (stars_addAll facts).1

/-- Parent* is joined by paths of Parent that climb. -/
theorem contains_parentStar {a c : StatementNumber} :
    (({} : FactBase).addAll facts).finalize.parent.star.contains a c ↔
      (({} : FactBase).addAll facts).finalize.parent.direct.Climbs a c :=
  contains_star_ascending (coherent_empty.addAll facts).parent (stars_addAll facts).2.1

end

end FactBase

end ProgramQuery
