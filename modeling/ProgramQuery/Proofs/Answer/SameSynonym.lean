/-
  ProgramQuery.Proofs.Answer.SameSynonym

  Relationships between a synonym and itself.

  The table of a relationship whose two arguments are one synonym is given as the
  one without rows, unless the relationship is marked as possibly reflexive; the
  stored pairs are not looked at.  Nothing is lost by that.  Follows, Parent,
  Calls and Next never join anything to itself, so looking at the pairs gives
  the same table.  Uses and Modifies lead from statements and procedures to
  variables, and a synonym stands for one kind of thing only: a procedure and a
  variable may have one name, and the pair of this name with itself be
  stored, but it joins two different things.
-/

import ProgramQuery.Proofs.Answer.Regular

namespace ProgramQuery

open Facts

/-! ## What pairs are about -/

/-- What a member of a stored pair stands for. -/
inductive Individual where
  | statement (n : StatementNumber)
  | procedure (name : String)
  | variable (name : String)
  deriving DecidableEq, Repr

/-- What a value of a synonym stands for; constants take no part in relationships. -/
def Synonym.individual? (x : Synonym) : Value → Option Individual
  | .number n => some (.statement n)
  | .name text =>
    match x.entity with
    | .procedure => some (.procedure text)
    | .variable => some (.variable text)
    | _ => none

namespace FactBase

/-- The relationship joins two individuals of the kinds that it is about. -/
def Joins (b : FactBase) : Relationship → Individual → Individual → Prop
  | .follows, .statement m, .statement n => b.follows.direct.contains m n
  | .followsStar, .statement m, .statement n => b.follows.star.contains m n
  | .parent, .statement m, .statement n => b.parent.direct.contains m n
  | .parentStar, .statement m, .statement n => b.parent.star.contains m n
  | .calls, .procedure q, .procedure r => b.calls.direct.contains q r
  | .callsStar, .procedure q, .procedure r => b.calls.star.contains q r
  | .next, .statement m, .statement n => b.next.direct.contains m n
  | .nextStar, .statement m, .statement n => b.next.star.contains m n
  | .affects, .statement m, .statement n => b.affects.contains m n
  | .uses, .statement n, .variable var => b.uses.contains n var
  | .usesProc, .procedure q, .variable var => b.usesProc.contains q var
  | .modifies, .statement n, .variable var => b.modifies.contains n var
  | .modifiesProc, .procedure q, .variable var => b.modifiesProc.contains q var
  | _, _, _ => False

/-- What a value of the synonym stands for is joined to itself. -/
def SelfJoined (b : FactBase) (r : Relationship) (x : Synonym) (v : Value) : Prop :=
  ∃ i, x.individual? v = some i ∧ b.Joins r i i

variable {b : FactBase}

/-- Apart from Next* and Affects, nothing is joined to itself: a relationship is about things of
    one kind and irreflexive, or about things of two kinds. -/
theorem Irreflexive.not_joins (h : b.Irreflexive) {r : Relationship}
    (h_reflexive : r.mayBeReflexive = false) (i : Individual) : ¬ b.Joins r i i := by
  intro h_i
  cases i with
  | statement n =>
    cases r with
    | follows => exact h.follows n h_i
    | followsStar => exact h.followsStar n h_i
    | parent => exact h.parent n h_i
    | parentStar => exact h.parentStar n h_i
    | next => exact h.next n h_i
    | nextStar | affects => cases h_reflexive
    | _ => exact h_i
  | procedure name =>
    cases r with
    | calls => exact h.calls name h_i
    | callsStar => exact h.callsStar name h_i
    | _ => exact h_i
  | _ => cases r <;> exact h_i

/-! ## Tables -/

/-- No pair of values that are related is one of a value with itself. -/
theorem filter_valuePairs_self {α : Type} [Member α] [Ord α] [Std.TransOrd α] [Std.LawfulEqOrd α]
    {store : PairStore α α} (h_value : ∀ k l : α, Member.value k = Member.value l → k = l)
    (h : ∀ k, ¬ store.contains k k) (x : Synonym) :
    (store.pairs.map fun (k, l) => (Member.value k, Member.value l)).filter
      (fun (v, w) => v == w && b.inDomain x v) = [] := by
  rw [List.filter_eq_nil_iff]
  rintro ⟨v, w⟩ h_pair h_same
  rw [mem_valuePairs] at h_pair
  obtain ⟨rfl, -⟩ : v = w ∧ b.inDomain x v = true := by simpa using h_same
  exact not_relates_of_irreflexive h_value h v h_pair

/-- Looking at the pairs of an irreflexive store gives no row for a synonym with itself. -/
theorem relationTable_self {α : Type} [Member α] [Ord α] [Std.TransOrd α] [Std.LawfulEqOrd α]
    {store : PairStore α α} (h_value : ∀ k l : α, Member.value k = Member.value l → k = l)
    (h : ∀ k, ¬ store.contains k k) (reflexive : Bool) (x : Synonym) :
    b.relationTable reflexive store (.synonym x) (.synonym x) = .empty [x] := by
  cases reflexive with
  | false => simp [relationTable]
  | true =>
    simp only [relationTable, if_true, filter_valuePairs_self h_value h]
    rfl

/-- The shortcut answers every relationship that is not marked as reflexive. -/
theorem suchThatTable_self {r : Relationship} (h_reflexive : r.mayBeReflexive = false)
    (x : Synonym) : b.suchThatTable r (.synonym x) (.synonym x) = .ok (.empty [x]) := by
  cases r with
  | nextStar | affects => cases h_reflexive
  | _ => simp [suchThatTable, relate, Argument.ofRef, relationTable, h_reflexive, bind, Except.bind]

/-- The negated clause has all values of the synonym. -/
theorem exists_clauseTable_self {r : Relationship} (h_reflexive : r.mayBeReflexive = false)
    (x : Synonym) : ∃ t, b.clauseTable ⟨.suchThat r (.synonym x) (.synonym x), true⟩ = .ok t ∧
      ∀ ν, t.Holds ν ↔ ν x ∈ b.domain x := by
  have h_synonyms : Clause.synonyms ⟨.suchThat r (.synonym x) (.synonym x), true⟩ = [x] := by
    simp [Clause.synonyms, Condition.mentions, Ref.synonym?, List.eraseDups_cons]
  refine ⟨(b.allBindings [x]).subtract (.empty [x]), ?_, fun ν => ?_⟩
  · simp [clauseTable, conditionTable, suchThatTable_self h_reflexive, h_synonyms, bind,
      Except.bind]
  · rw [Table.holds_subtract (Table.wellFormed_empty (List.nodup_singleton x)), holds_allBindings]
    · simp
    · intro s hs
      exact ((b.binds_allBindings [x]).mem_columns s).2 hs

/-- For relations between statements, the shortcut makes no difference. -/
theorem Irreflexive.shortcut_numbers (h : b.Irreflexive) :
    ∀ store ∈ [b.follows.direct, b.follows.star, b.parent.direct, b.parent.star, b.next.direct],
      ∀ x, b.relationTable false store (.synonym x) (.synonym x) =
        b.relationTable true store (.synonym x) (.synonym x) := by
  intro store h_store x
  have h_pairs : ∀ n, ¬ store.contains n n := by
    simp only [List.mem_cons, List.not_mem_nil, or_false] at h_store
    rcases h_store with rfl | rfl | rfl | rfl | rfl
    · exact h.follows
    · exact h.followsStar
    · exact h.parent
    · exact h.parentStar
    · exact h.next
  rw [relationTable_self Member.number_inj h_pairs, relationTable_self Member.number_inj h_pairs]

/-- For relations between procedures, the shortcut makes no difference. -/
theorem Irreflexive.shortcut_names (h : b.Irreflexive) :
    ∀ store ∈ [b.calls.direct, b.calls.star],
      ∀ x, b.relationTable false store (.synonym x) (.synonym x) =
        b.relationTable true store (.synonym x) (.synonym x) := by
  intro store h_store x
  have h_pairs : ∀ name, ¬ store.contains name name := by
    simp only [List.mem_cons, List.not_mem_nil, or_false] at h_store
    rcases h_store with rfl | rfl
    · exact h.calls
    · exact h.callsStar
  rw [relationTable_self Member.name_inj h_pairs, relationTable_self Member.name_inj h_pairs]

/-! ## Programs that were read -/

/-- In a program that was read, Follows, Parent and Calls with their closures and Next join
    nothing to itself, so the table of a synonym with itself is the same whether or not their
    pairs are looked at.  For every relationship that is not marked as reflexive, no stored pair
    has one value twice if the clause is typed, and in any case this table, which has no row, and
    that of the negated clause have the values from the domain that stand for something joined to
    itself, or do not. -/
theorem same_synonym_agrees {source : String} {p : Program} (h_read : Program.read source = .ok p) :
    (ofProgram p.numbered).Irreflexive ∧
    (∀ store ∈ [(ofProgram p.numbered).follows.direct, (ofProgram p.numbered).follows.star,
        (ofProgram p.numbered).parent.direct, (ofProgram p.numbered).parent.star,
        (ofProgram p.numbered).next.direct],
      ∀ x, (ofProgram p.numbered).relationTable false store (.synonym x) (.synonym x) =
        (ofProgram p.numbered).relationTable true store (.synonym x) (.synonym x)) ∧
    (∀ store ∈ [(ofProgram p.numbered).calls.direct, (ofProgram p.numbered).calls.star],
      ∀ x, (ofProgram p.numbered).relationTable false store (.synonym x) (.synonym x) =
        (ofProgram p.numbered).relationTable true store (.synonym x) (.synonym x)) ∧
    ∀ r, r.mayBeReflexive = false → ∀ x,
      ((Condition.suchThat r (.synonym x) (.synonym x)).Typed →
        ∀ v, ¬ (ofProgram p.numbered).Relates r v v) ∧
      (ofProgram p.numbered).suchThatTable r (.synonym x) (.synonym x) = .ok (.empty [x]) ∧
      (∀ ν, (Table.empty [x]).Holds ν ↔
        ν x ∈ (ofProgram p.numbered).domain x ∧ (ofProgram p.numbered).SelfJoined r x (ν x)) ∧
      ∃ t,
        (ofProgram p.numbered).clauseTable ⟨.suchThat r (.synonym x) (.synonym x), true⟩ = .ok t ∧
        ∀ ν, t.Holds ν ↔ ν x ∈ (ofProgram p.numbered).domain x ∧
          ¬ (ofProgram p.numbered).SelfJoined r x (ν x) := by
  have h := Program.wellFormed_of_read h_read
  have h_none := irreflexive_ofProgram h
  refine ⟨h_none, h_none.shortcut_numbers, h_none.shortcut_names, fun r h_reflexive x => ?_⟩
  have h_self : ∀ v, ¬ (ofProgram p.numbered).SelfJoined r x v := by
    rintro v ⟨i, -, h_i⟩
    exact h_none.not_joins h_reflexive i h_i
  obtain ⟨t, h_t, h_holds⟩ := exists_clauseTable_self h_reflexive x
  refine ⟨fun h_typed => ?_, suchThatTable_self h_reflexive x, fun ν => ?_, t, h_t, fun ν => ?_⟩
  · have h_variable : r.toVariable = false := by
      by_contra h_true
      exact h_typed.2.2 (by simpa using h_true) x rfl rfl
    exact not_relates_self h h_reflexive h_variable
  · rw [iff_false_left (Table.not_holds_empty [x] ν), not_and]
    exact fun _ => h_self (ν x)
  · rw [h_holds, and_iff_left (h_self (ν x))]

/-- A procedure that prints a variable of its own name does not use itself. -/
theorem same_name_not_self_joined :
    ∃ p, Program.read "procedure p \x7b print p; \x7d" = .ok p ∧
      (ofProgram p.numbered).usesProc.contains "p" "p" ∧
      (ofProgram p.numbered).suchThatTable .usesProc (.synonym ⟨"x", .procedure⟩)
        (.synonym ⟨"x", .procedure⟩) = .ok (.empty [⟨"x", .procedure⟩]) ∧
      ∃ t, (ofProgram p.numbered).clauseTable ⟨.suchThat .usesProc (.synonym ⟨"x", .procedure⟩)
        (.synonym ⟨"x", .procedure⟩), true⟩ = .ok t ∧ t.Holds fun _ => .name "p" := by
  refine exists_ok_of_test (fun p => decide ((ofProgram p.numbered).usesProc.contains "p" "p" ∧
    .name "p" ∈ (ofProgram p.numbered).domain ⟨"x", .procedure⟩)) (by decide +kernel)
    fun p h_read h_test => ?_
  obtain ⟨h_stored, h_domain⟩ := of_decide_eq_true h_test
  obtain ⟨-, -, -, h_tables⟩ := same_synonym_agrees h_read
  obtain ⟨-, h_table, h_holds, t, h_t, h_negated⟩ := h_tables .usesProc rfl ⟨"x", .procedure⟩
  refine ⟨h_stored, h_table, t, h_t, (h_negated _).2 ⟨h_domain, fun h_self => ?_⟩⟩
  exact Table.not_holds_empty _ (fun _ => .name "p") ((h_holds _).2 ⟨h_domain, h_self⟩)

end FactBase

end ProgramQuery
