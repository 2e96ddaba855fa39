/-
  ProgramQuery.Proofs.Query.Sense

  Which faults are found when a draft is resolved.

  A draft may hold a word that is no relationship and a side of a comparison
  without an attribute; both are faults of syntax.  The reader leaves neither, so
  a draft that was read has faults of sense only (`Draft.Formed.isSense_resolve`).
-/

import ProgramQuery.Proofs.Query.Typed

namespace ProgramQuery

/-- The computation may find a fault of sense, but none of syntax. -/
def IsSense {α : Type} (x : Except QueryFault α) : Prop :=
  ∀ fault, x ≠ .error (.syntactic fault)

namespace IsSense

variable {α β : Type}

theorem ok (a : α) : IsSense (.ok a) := fun _ h => nomatch h

theorem semantic (fault : SemanticFault) :
    IsSense (.error (.semantic fault) : Except QueryFault α) :=
  fun _ h => nomatch h

theorem bind {x : Except QueryFault α} {f : α → Except QueryFault β} (h_x : IsSense x)
    (h_f : ∀ a, IsSense (f a)) : IsSense (x >>= f) := by
  cases x with
  | error fault =>
    intro syntactic h
    cases h
    exact h_x syntactic rfl
  | ok a => exact h_f a

theorem mapM {f : α → Except QueryFault β} {l : List α} (h : ∀ a ∈ l, IsSense (f a)) :
    IsSense (l.mapM f) := by
  induction l with
  | nil => exact ok []
  | cons a rest ih =>
    obtain ⟨h_a, h_rest⟩ := List.forall_mem_cons.1 h
    rw [List.mapM_cons]
    exact h_a.bind fun b => (ih h_rest).bind fun bs => ok (b :: bs)

/-- Without a fault of syntax there is a result or a fault of sense. -/
theorem cases {x : Except QueryFault α} (h : IsSense x) :
    (∃ a, x = .ok a) ∨ ∃ fault, x = .error (.semantic fault) := by
  cases x with
  | ok a => exact .inl ⟨a, rfl⟩
  | error fault =>
    cases fault with
    | syntactic fault => exact absurd rfl (h fault)
    | semantic fault => exact .inr ⟨fault, rfl⟩

end IsSense

namespace Scope

variable (scope : Scope)

/-! ## Synonyms and results -/

theorem isSense_declare (ds : List (Entity × String)) : IsSense (scope.declare ds) := by
  induction ds generalizing scope with
  | nil => exact .ok scope
  | cons d ds ih =>
    rw [declare]
    split
    · exact .semantic _
    · exact ih _

theorem isSense_resolve (name : String) : IsSense (scope.resolve name) := by
  unfold resolve
  split
  · exact .ok _
  · exact .semantic _

theorem isSense_attrOf (s : Synonym) (a : Attribute) : IsSense (attrOf s a) := by
  unfold attrOf
  split
  · exact .ok _
  · exact .semantic _

theorem isSense_element (e : Draft.Element) : IsSense (scope.element e) := by
  refine (scope.isSense_resolve e.name).bind fun s => ?_
  split
  · exact .ok _
  · exact (isSense_attrOf s _).bind fun r => .ok _

theorem isSense_selection (d : Draft.Selection) : IsSense (scope.selection d) := by
  cases d with
  | boolean =>
    rw [selection]
    split
    · exact .ok _
    · exact .ok _
  | tuple es => exact (IsSense.mapM fun e _ => scope.isSense_element e).bind fun found => .ok _

/-! ## Clauses -/

theorem isSense_ref (d : Draft.Ref) : IsSense (scope.ref d) := by
  cases d with
  | name text => exact (scope.isSense_resolve text).bind fun s => .ok _
  | ident text => exact .ok _
  | integer n => exact .ok _
  | wildcard => exact .ok _

theorem isSense_require (role : Role) (r : Ref) : IsSense (require role r) := by
  cases r with
  | synonym s =>
    rw [require]
    split
    · exact .ok _
    · exact .semantic _
  | _ => exact .ok _

theorem isSense_procedureFirst (name : RelationshipName) (r : Ref) :
    IsSense (procedureFirst name r) := by
  cases r with
  | wildcard => exact .semantic _
  | integer n => exact .ok _
  | ident text => exact .ok _
  | synonym s =>
    rw [procedureFirst]
    split
    · exact .ok _
    · split
      · exact .ok _
      · exact .semantic _

theorem isSense_related (lhs rhs : Ref) (name : RelationshipName) :
    IsSense (related lhs rhs name) := by
  have h_between : ∀ role r, IsSense (between role r lhs rhs) := fun role r =>
    (isSense_require role lhs).bind fun _ => (isSense_require role rhs).bind fun _ => .ok _
  have h_toVariable : ∀ r r', IsSense (toVariable name r r' lhs rhs) := fun r r' =>
    (isSense_procedureFirst name lhs).bind fun _ =>
      (isSense_require .variable rhs).bind fun _ => .ok _
  cases name with
  | uses => exact h_toVariable .uses .usesProc
  | modifies => exact h_toVariable .modifies .modifiesProc
  | _ => exact h_between _ _

/-- A side that has its attribute shows no fault of syntax. -/
theorem isSense_withRef {d : Draft.WithRef} (h : d.Formed) : IsSense (scope.withRef d) := by
  cases d with
  | ident text => exact .ok _
  | integer digits => exact .ok _
  | attr e =>
    obtain ⟨a, h_a⟩ := h
    rw [withRef, h_a]
    exact (scope.isSense_resolve e.name).bind fun s => (isSense_attrOf s a).bind fun r => .ok _

theorem isSense_condition {d : Draft.Condition} (h : d.Formed) : IsSense (scope.condition d) := by
  cases d with
  | suchThat word lhs rhs =>
    -- The word is one of the relationships, so the last branch is not taken.
    obtain ⟨name, h_word, -, -⟩ := h
    refine (scope.isSense_ref lhs).bind fun lhs => (scope.isSense_ref rhs).bind fun rhs => ?_
    rw [suchThat, h_word]
    exact isSense_related lhs rhs name
  | pattern name var expr form =>
    refine (scope.isSense_resolve name).bind fun s => ?_
    split
    · exact (scope.isSense_ref var).bind fun r => (isSense_require .variable r).bind fun _ => .ok _
    · exact .semantic _
  | compare lhs rhs =>
    refine (scope.isSense_withRef h.1).bind fun lhs => ?_
    refine (scope.isSense_withRef h.2).bind fun rhs => ?_
    split
    · exact .ok _
    · exact .semantic _

end Scope

/-- A draft as the reader leaves it has no fault of syntax left. -/
theorem Draft.Formed.isSense_resolve {d : Draft} (h : d.Formed) : IsSense d.resolve := by
  refine (Scope.isSense_declare [] d.declarations).bind fun scope => ?_
  refine (scope.isSense_selection d.selection).bind fun selection => ?_
  have h_clauses : IsSense (d.clauses.mapM scope.clause) := IsSense.mapM fun c hc =>
    (scope.isSense_condition (h.conditions c hc)).bind fun condition => .ok _
  exact h_clauses.bind fun clauses => .ok _

end ProgramQuery
