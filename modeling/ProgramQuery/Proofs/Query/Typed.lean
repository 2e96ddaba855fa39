/-
  ProgramQuery.Proofs.Query.Typed

  What is known of a query that was read.

  The reader lets numbers and quoted names stand only where they can, and typing
  gives every relationship and pattern synonyms of the right kinds.  So the clauses
  of such a query can always be evaluated (`Query.Typed`).
-/

import ProgramQuery.Query.Typing
import ProgramQuery.Proofs.Program.Read

namespace ProgramQuery

/-! ## Conditions -/

/-- Whether the first members of a relationship are statements. -/
def Relationship.fromStatement : Relationship → Bool
  | .calls | .callsStar | .usesProc | .modifiesProc => false
  | _ => true

/-- Whether the second members of a relationship are statements. -/
def Relationship.toStatement : Relationship → Bool
  | .follows | .followsStar | .parent | .parentStar | .next | .nextStar | .affects => true
  | _ => false

/-- Whether the second members of a relationship are variables. -/
def Relationship.toVariable : Relationship → Bool
  | .uses | .usesProc | .modifies | .modifiesProc => true
  | _ => false

/-- Numbers stand for statements only, and quoted names for everything else. -/
def Ref.Fits (statements : Bool) : Ref → Prop
  | .ident _ => statements = false
  | .integer _ => statements = true
  | _ => True

/-- What a pattern asks of an expression is not empty. -/
def ExprSpec.Filled : ExprSpec → Prop
  | .wildcard => True
  | .matching _ rpn => rpn ≠ []

/-- The arguments of a condition fit their places. -/
def Condition.Typed : Condition → Prop
  | .suchThat r lhs rhs =>
    lhs.Fits r.fromStatement ∧ rhs.Fits r.toStatement ∧
      (r.toVariable = true → ∀ s, lhs = .synonym s → rhs ≠ .synonym s)
  | .pattern s var expr =>
    (s.entity = .assign ∨ (s.entity = .whileLoop ∨ s.entity = .ifElse) ∧ expr = .wildcard) ∧
      var.Fits false ∧ (∀ v, var = .synonym v → v.entity = .variable) ∧ expr.Filled
  | .compare lhs rhs => lhs.kind = rhs.kind

/-- A query whose clauses are typed and whose result is not empty. -/
structure Query.Typed (q : Query) : Prop where
  conditions : ∀ c ∈ q.clauses, c.condition.Typed
  elements : ∀ elements, q.selection = .tuple elements → elements ≠ []

/-! ## Drafts -/

theorem Expr.rpn_ne_nil (e : Expr) : e.rpn ≠ [] := by
  cases e <;> simp [rpn]

namespace Draft

/-- An argument is of a form that the place takes. -/
def Ref.Fits (slot : QueryReader.Slot) : Ref → Prop
  | .ident _ => slot.takesName = true
  | .integer _ => slot.takesNumber = true
  | _ => True

/-- A side of a comparison that is a synonym has an attribute. -/
def WithRef.Formed : WithRef → Prop
  | .attr e => ∃ a, e.attr = some a
  | _ => True

/-- The word of a condition is a relationship, its arguments are of forms that their places
    take, and its sides have attributes. -/
def Condition.Formed : Condition → Prop
  | .suchThat word lhs rhs => ∃ r, RelationshipName.ofText? word = some r ∧
      lhs.Fits (QueryReader.slots r).1 ∧ rhs.Fits (QueryReader.slots r).2
  | .pattern _ var expr _ => var.Fits .entity ∧ expr.Filled
  | .compare lhs rhs => lhs.Formed ∧ rhs.Formed

/-- A tuple is not empty. -/
def Selection.Filled : Selection → Prop
  | .boolean => True
  | .tuple elements => elements ≠ []

end Draft

/-- A draft as the reader leaves it. -/
structure Draft.Formed (d : Draft) : Prop where
  selection : d.selection.Filled
  conditions : ∀ c ∈ d.clauses, c.condition.Formed

namespace QueryReader

theorem ref_fits {slot : Slot} {ts rest : List QueryToken} {r : Draft.Ref}
    (h : ref slot ts = .ok (r, rest)) : r.Fits slot := by
  unfold ref at h
  split at h
  · cases h
  · split at h
    · cases h
      trivial
    · cases h
  · split at h
    · cases h
      trivial
    · cases h
  · split at h
    · rename_i h_slot
      obtain ⟨n, -, h⟩ := bind_eq_ok.1 h
      cases h
      exact h_slot
    · cases h
  · split at h
    · rename_i h_slot
      obtain ⟨name, -, h⟩ := bind_eq_ok.1 h
      cases h
      exact h_slot
    · cases h

theorem quotedRpn_ne_nil {text : String} {rpn : List String} (h : quotedRpn text = .ok rpn) :
    rpn ≠ [] := by
  unfold quotedRpn at h
  split at h
  · cases h
    exact Expr.rpn_ne_nil _
  · cases h

theorem exprSpec_filled {ts rest : List QueryToken} {expr : ExprSpec}
    (h : exprSpec ts = .ok (expr, rest)) : expr.Filled := by
  unfold exprSpec at h
  split at h
  · obtain ⟨rpn, h_rpn, h⟩ := bind_eq_ok.1 h
    cases h
    exact quotedRpn_ne_nil h_rpn
  · split at h
    · split at h
      · obtain ⟨rpn, h_rpn, h⟩ := bind_eq_ok.1 h
        obtain ⟨rest', -, h⟩ := bind_eq_ok.1 h
        cases h
        exact quotedRpn_ne_nil h_rpn
      · cases h
        trivial
    · cases h
  · cases h

theorem withRef_formed {ts rest : List QueryToken} {r : Draft.WithRef}
    (h : withRef ts = .ok (r, rest)) : r.Formed := by
  unfold withRef at h
  split at h
  · obtain ⟨name, -, h⟩ := bind_eq_ok.1 h
    cases h
    trivial
  · cases h
    trivial
  · obtain ⟨_, -, h⟩ := bind_eq_ok.1 h
    obtain ⟨_, -, h⟩ := bind_eq_ok.1 h
    obtain ⟨⟨a, _⟩, -, h⟩ := bind_eq_ok.1 h
    cases h
    exact ⟨a, rfl⟩
  · cases h

theorem condition_formed {kind : Section} {ts rest : List QueryToken} {c : Draft.Condition}
    (h : condition kind ts = .ok (c, rest)) : c.Formed := by
  cases kind with
  | suchThat =>
    simp only [condition, suchThat] at h
    split at h
    · cases h
    · split at h
      · cases h
      · rename_i r h_word
        obtain ⟨_, -, h⟩ := bind_eq_ok.1 h
        obtain ⟨⟨lhs, _⟩, h_lhs, h⟩ := bind_eq_ok.1 h
        obtain ⟨_, -, h⟩ := bind_eq_ok.1 h
        obtain ⟨⟨rhs, _⟩, h_rhs, h⟩ := bind_eq_ok.1 h
        obtain ⟨_, -, h⟩ := bind_eq_ok.1 h
        cases h
        exact ⟨r, h_word, ref_fits h_lhs, ref_fits h_rhs⟩
  | pattern =>
    obtain ⟨_, -, h⟩ := bind_eq_ok.1 h
    obtain ⟨_, -, h⟩ := bind_eq_ok.1 h
    obtain ⟨⟨var, _⟩, h_var, h⟩ := bind_eq_ok.1 h
    obtain ⟨_, -, h⟩ := bind_eq_ok.1 h
    obtain ⟨⟨expr, _⟩, h_expr, h⟩ := bind_eq_ok.1 h
    obtain ⟨_, -, h⟩ := bind_eq_ok.1 h
    cases h
    exact ⟨ref_fits h_var, exprSpec_filled h_expr⟩
  | compare =>
    obtain ⟨⟨lhs, _⟩, h_lhs, h⟩ := bind_eq_ok.1 h
    obtain ⟨_, -, h⟩ := bind_eq_ok.1 h
    obtain ⟨⟨rhs, _⟩, h_rhs, h⟩ := bind_eq_ok.1 h
    cases h
    exact ⟨withRef_formed h_lhs, withRef_formed h_rhs⟩

theorem clauses_formed {fuel : Nat} {previous : Option Section} {ts : List QueryToken}
    {cs : List Draft.Clause} (h : clauses fuel previous ts = .ok cs) :
    ∀ c ∈ cs, c.condition.Formed := by
  induction fuel generalizing previous ts cs with
  | zero =>
    cases ts <;> simp only [clauses] at h <;> cases h
    simp
  | succ fuel ih =>
    cases ts with
    | nil =>
      simp only [clauses] at h
      cases h
      simp
    | cons t ts =>
      simp only [clauses] at h
      obtain ⟨⟨kind, _⟩, -, h⟩ := bind_eq_ok.1 h
      obtain ⟨⟨c, _⟩, h_c, h⟩ := bind_eq_ok.1 h
      obtain ⟨more, h_more, h⟩ := bind_eq_ok.1 h
      cases h
      exact List.forall_mem_cons.2 ⟨condition_formed h_c, ih h_more⟩

theorem selection_filled {fuel : Nat} {ts rest : List QueryToken} {s : Draft.Selection}
    (h : selection fuel ts = .ok (s, rest)) : s.Filled := by
  unfold selection at h
  split at h
  · cases h
    trivial
  · split at h
    · obtain ⟨⟨es, _⟩, h_es, h⟩ := bind_eq_ok.1 h
      obtain ⟨_, -, h⟩ := bind_eq_ok.1 h
      cases h
      cases fuel with
      | zero => cases h_es
      | succ fuel =>
        obtain ⟨⟨e, _⟩, -, h_es⟩ := bind_eq_ok.1 h_es
        simp only at h_es
        split at h_es
        · obtain ⟨⟨more, _⟩, -, h_es⟩ := bind_eq_ok.1 h_es
          cases h_es
          exact List.cons_ne_nil _ _
        · cases h_es
          exact List.cons_ne_nil _ _
    · obtain ⟨⟨e, _⟩, -, h⟩ := bind_eq_ok.1 h
      cases h
      exact List.cons_ne_nil _ _

end QueryReader

theorem Draft.formed_of_ofTokens {ts : List QueryToken} {d : Draft}
    (h : Draft.ofTokens ts = .ok d) : d.Formed := by
  obtain ⟨⟨ds, rest⟩, -, h⟩ := bind_eq_ok.1 h
  simp only at h
  split at h
  · obtain ⟨⟨result, _⟩, h_result, h⟩ := bind_eq_ok.1 h
    obtain ⟨cs, h_cs, h⟩ := bind_eq_ok.1 h
    cases h
    exact ⟨QueryReader.selection_filled h_result, QueryReader.clauses_formed h_cs⟩
  · cases h

theorem Draft.formed_of_read {text : String} {d : Draft} (h : Draft.read text = .ok d) :
    d.Formed := by
  obtain ⟨ts, -, h⟩ := bind_eq_ok.1 h
  exact Draft.formed_of_ofTokens h

/-! ## Typing -/

/-- The results of mapping a list come from its members, one from each. -/
theorem results_of_mapM {ε α β : Type} {f : α → Except ε β} {l : List α} {r : List β}
    (h : l.mapM f = .ok r) : (∀ b ∈ r, ∃ a ∈ l, f a = .ok b) ∧ r.length = l.length := by
  induction l generalizing r with
  | nil =>
    rw [List.mapM_nil] at h
    cases h
    simp
  | cons a rest ih =>
    rw [List.mapM_cons] at h
    obtain ⟨b, h_b, h⟩ := bind_eq_ok.1 h
    obtain ⟨bs, h_bs, h⟩ := bind_eq_ok.1 h
    cases h
    obtain ⟨h_mem, h_length⟩ := ih h_bs
    have h_first : ∃ x ∈ a :: rest, f x = .ok b := ⟨a, List.mem_cons_self .., h_b⟩
    refine ⟨List.forall_mem_cons.2 ⟨h_first, fun x hx => ?_⟩, by simp [h_length]⟩
    obtain ⟨c, hc, h_c⟩ := h_mem x hx
    exact ⟨c, List.mem_cons_of_mem _ hc, h_c⟩

namespace Scope

variable {scope : Scope}

theorem selection_filled {d : Draft.Selection} (h_filled : d.Filled) {s : Selection}
    (h : scope.selection d = .ok s) : ∀ elements, s = .tuple elements → elements ≠ [] := by
  intro elements h_eq
  subst h_eq
  cases d with
  | boolean =>
    simp only [selection] at h
    split at h <;> cases h
    exact List.cons_ne_nil _ _
  | tuple drafts =>
    obtain ⟨es, h_es, h⟩ := bind_eq_ok.1 h
    cases h
    rintro rfl
    exact h_filled (List.length_eq_zero_iff.1 (results_of_mapM h_es).2.symm)

/-- A resolved argument keeps its form. -/
theorem ref_fits {slot : QueryReader.Slot} {d : Draft.Ref} (h_fits : d.Fits slot) {r : Ref}
    (h : scope.ref d = .ok r) :
    (slot = .statement → r.Fits true) ∧ (slot = .entity → r.Fits false) := by
  cases d with
  | name text =>
    obtain ⟨s, -, h⟩ := bind_eq_ok.1 h
    cases h
    exact ⟨fun _ => trivial, fun _ => trivial⟩
  | ident text =>
    cases h
    refine ⟨?_, fun _ => rfl⟩
    rintro rfl
    cases h_fits
  | integer n =>
    cases h
    refine ⟨fun _ => rfl, ?_⟩
    rintro rfl
    cases h_fits
  | wildcard =>
    cases h
    exact ⟨fun _ => trivial, fun _ => trivial⟩

theorem admits_of_require {role : Role} {s : Synonym} {done : Unit}
    (h : require role (.synonym s) = .ok done) : role.admits s.entity = true := by
  by_contra h_not
  simp [require, h_not] at h

theorem between_typed {role : Role} {r : Relationship} {lhs rhs : Ref} {c : Condition}
    (h : between role r lhs rhs = .ok c) (h_lhs : lhs.Fits r.fromStatement)
    (h_rhs : rhs.Fits r.toStatement) (h_like : r.toVariable = false) : c.Typed := by
  obtain ⟨_, -, h⟩ := bind_eq_ok.1 h
  obtain ⟨_, -, h⟩ := bind_eq_ok.1 h
  cases h
  exact ⟨h_lhs, h_rhs, fun h_var => by rw [h_like] at h_var; cases h_var⟩

/-- Of the relationships for statements and procedures, the one that the first argument
    fits is chosen, and no synonym is both this argument and a variable. -/
theorem toVariable_typed {name : RelationshipName} {ofStatement ofProcedure : Relationship}
    {lhs rhs : Ref} {c : Condition} (h : toVariable name ofStatement ofProcedure lhs rhs = .ok c)
    (h_from : ofStatement.fromStatement = true ∧ ofProcedure.fromStatement = false)
    (h_to : ofStatement.toStatement = false ∧ ofProcedure.toStatement = false)
    (h_rhs : rhs.Fits false) : c.Typed := by
  obtain ⟨isProcedure, h_first, h⟩ := bind_eq_ok.1 h
  obtain ⟨_, h_role, h⟩ := bind_eq_ok.1 h
  cases h
  refine ⟨?_, ?_, fun _ s h_l h_r => ?_⟩
  · cases lhs <;> cases isProcedure <;> simp_all [procedureFirst, Ref.Fits]
  · cases isProcedure <;> simpa [h_to] using h_rhs
  · -- A variable is no first argument of either relationship.
    subst h_l h_r
    have h_entity : s.entity = .variable := beq_iff_eq.1 (admits_of_require h_role)
    simp [procedureFirst, h_entity, Entity.isStatement] at h_first

theorem suchThat_eq_ok {lhs rhs : Ref} {word : String} {c : Condition} :
    suchThat lhs rhs word = .ok c ↔
      ∃ r, RelationshipName.ofText? word = some r ∧ related lhs rhs r = .ok c := by
  unfold suchThat
  cases RelationshipName.ofText? word with
  | none => simp
  | some r => simp

theorem withRef_attr_eq_ok {e : Draft.Element} {r : WithRef} :
    scope.withRef (.attr e) = .ok r ↔ ∃ s a ref, scope.resolve e.name = .ok s ∧
      e.attr = some a ∧ attrOf s a = .ok ref ∧ .attr ref = r := by
  rw [withRef, bind_eq_ok]
  cases e.attr with
  | none => simp
  | some a => simp [bind_eq_ok]

theorem related_typed {name : RelationshipName} {d d' : Draft.Ref} {lhs rhs : Ref} {c : Condition}
    (h_d : d.Fits (QueryReader.slots name).1) (h_d' : d'.Fits (QueryReader.slots name).2)
    (h_lhs : scope.ref d = .ok lhs) (h_rhs : scope.ref d' = .ok rhs)
    (h : related lhs rhs name = .ok c) : c.Typed := by
  have h_first := ref_fits h_d h_lhs
  have h_second := ref_fits h_d' h_rhs
  cases name with
  | uses | modifies => exact toVariable_typed h ⟨rfl, rfl⟩ ⟨rfl, rfl⟩ (h_second.2 rfl)
  | calls | callsStar => exact between_typed h (h_first.2 rfl) (h_second.2 rfl) rfl
  | _ => exact between_typed h (h_first.1 rfl) (h_second.1 rfl) rfl

theorem entity_of_patternFits {e : Entity} {expr : ExprSpec} {form : Draft.PatternForm}
    (h : patternFits e expr form = true) :
    e = .assign ∨ (e = .whileLoop ∨ e = .ifElse) ∧ expr = .wildcard := by
  cases e <;> cases form <;> simp_all [patternFits]

theorem condition_typed {d : Draft.Condition} (h_formed : d.Formed) {c : Condition}
    (h : scope.condition d = .ok c) : c.Typed := by
  cases d with
  | suchThat name lhs rhs =>
    obtain ⟨lhs', h_lhs, h⟩ := bind_eq_ok.1 h
    obtain ⟨rhs', h_rhs, h⟩ := bind_eq_ok.1 h
    obtain ⟨r, h_word, h⟩ := suchThat_eq_ok.1 h
    obtain ⟨r', h_word', h_first, h_second⟩ := h_formed
    obtain rfl : r' = r := Option.some.inj (h_word'.symm.trans h_word)
    exact related_typed h_first h_second h_lhs h_rhs h
  | pattern name var expr form =>
    obtain ⟨s, -, h⟩ := bind_eq_ok.1 h
    split at h
    · rename_i h_fits
      obtain ⟨var', h_var, h⟩ := bind_eq_ok.1 h
      obtain ⟨_, h_role, h⟩ := bind_eq_ok.1 h
      cases h
      refine ⟨entity_of_patternFits h_fits, (ref_fits h_formed.1 h_var).2 rfl, fun v h_v => ?_,
        h_formed.2⟩
      subst h_v
      exact beq_iff_eq.1 (admits_of_require h_role)
    · cases h
  | compare lhs rhs =>
    obtain ⟨lhs', -, h⟩ := bind_eq_ok.1 h
    obtain ⟨rhs', -, h⟩ := bind_eq_ok.1 h
    split at h
    · rename_i h_kind
      cases h
      exact h_kind
    · cases h

end Scope

/-- A query that was read is the draft of its text, resolved. -/
theorem Query.exists_draft_of_read {text : String} {q : Query} (h : Query.read text = .ok q) :
    ∃ draft, Draft.read text = .ok draft ∧ draft.resolve = .ok q := by
  unfold Query.read at h
  split at h
  · cases h
  · rename_i draft h_draft
    exact ⟨draft, h_draft, h⟩

/-- A query that was read is typed. -/
theorem Query.typed_of_read {text : String} {q : Query} (h : Query.read text = .ok q) :
    q.Typed := by
  obtain ⟨draft, h_draft, h⟩ := Query.exists_draft_of_read h
  have h_formed := Draft.formed_of_read h_draft
  obtain ⟨scope, -, h⟩ := bind_eq_ok.1 h
  obtain ⟨selection, h_selection, h⟩ := bind_eq_ok.1 h
  obtain ⟨clauses, h_clauses, h⟩ := bind_eq_ok.1 h
  cases h
  refine ⟨fun c hc => ?_, Scope.selection_filled h_formed.selection h_selection⟩
  obtain ⟨d, hd, h_d⟩ := (results_of_mapM h_clauses).1 c hc
  obtain ⟨condition, h_condition, h_d⟩ := bind_eq_ok.1 h_d
  cases h_d
  exact Scope.condition_typed (h_formed.conditions d hd) h_condition

end ProgramQuery
