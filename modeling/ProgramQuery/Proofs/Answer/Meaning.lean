/-
  ProgramQuery.Proofs.Answer.Meaning

  What clauses mean, said without tables.

  A condition holds under a valuation if the relation, the pattern or the comparison
  that it names does (`ConditionHolds`).  Over a regular fact base the table of
  a clause has exactly the bindings from the domains of its synonyms under which
  the clause is met.
-/

import ProgramQuery.Proofs.Answer.Evaluate
import ProgramQuery.Proofs.Facts.Base

namespace ProgramQuery

open Facts

/-! ## Conditions -/

theorem Member.number_inj (k l : StatementNumber) (h : Member.value k = Member.value l) : k = l :=
  Value.number.inj h

theorem Member.name_inj (k l : String) (h : Member.value k = Member.value l) : k = l :=
  Value.name.inj h

theorem Ref.eq_synonym {ref : Ref} {s : Synonym} (h : ref.synonym? = some s) :
    ref = .synonym s := by
  cases ref <;> cases h
  rfl

/-- Two values are the members of a stored pair. -/
def Facts.PairStore.Relates {α β : Type} [Ord α] [Std.TransOrd α] [Ord β] [Std.TransOrd β]
    [Member α] [Member β] (store : PairStore α β) (v w : Value) : Prop :=
  ∃ k l, store.contains k l = true ∧ v = Member.value k ∧ w = Member.value l

namespace FactBase

/-- Two values are in a relationship. -/
def Relates (b : FactBase) : Relationship → Value → Value → Prop
  | .follows => b.follows.direct.Relates
  | .followsStar => b.follows.star.Relates
  | .parent => b.parent.direct.Relates
  | .parentStar => b.parent.star.Relates
  | .calls => b.calls.direct.Relates
  | .callsStar => b.calls.star.Relates
  | .next => b.next.direct.Relates
  | .nextStar => b.next.star.Relates
  | .affects => b.affects.Relates
  | .uses => b.uses.Relates
  | .usesProc => b.usesProc.Relates
  | .modifies => b.modifies.Relates
  | .modifiesProc => b.modifiesProc.Relates

/-- The right side of an assignment is as asked for: anything, a given form, or a form
    with a given window. -/
def SourceMeets (b : FactBase) (n : StatementNumber) : ExprSpec → Prop
  | .wildcard => True
  | .matching .whole rpn => b.sources[n]? = some rpn
  | .matching .part rpn => ∃ form, b.sources[n]? = some form ∧ rpn <:+: form

/-- The statement of a pattern has a variable as asked for, on the left side of an
    assignment or in the condition of a container. -/
def PatternMeets (b : FactBase) (e : Entity) (expr : ExprSpec) (n : StatementNumber)
    (name : String) : Prop :=
  match e with
  | .assign => b.targets.contains n name = true ∧ b.SourceMeets n expr
  | .whileLoop => b.whileControl.contains n name = true
  | .ifElse => b.ifControl.contains n name = true
  | _ => False

/-- A text is the attribute of a value: the procedure of a call, the variable of a `read` or
    `print`, or the value itself. -/
def AttributeIs (b : FactBase) (a : AttributeRef) (v : Value) (text : String) : Prop :=
  match a.synonym.entity, a.attr with
  | .call, .procName => ∃ n, v = .number n ∧ b.callees.contains n text = true
  | .read, .varName => ∃ n, v = .number n ∧ b.readVars.contains n text = true
  | .print, .varName => ∃ n, v = .number n ∧ b.printVars.contains n text = true
  | _, _ => v.text = text

/-- A text is the value of a side of a comparison. -/
def SideIs (b : FactBase) (ν : Valuation) : WithRef → String → Prop
  | .attr a, text => b.AttributeIs a (ν a.synonym) text
  | .ident name, text => text = name
  | .integer digits, text => text = digits

/-- The condition holds under a valuation. -/
def ConditionHolds (b : FactBase) (ν : Valuation) : Condition → Prop
  | .suchThat r lhs rhs => ∃ v w, lhs.Denotes ν v ∧ rhs.Denotes ν w ∧ b.Relates r v w
  | .pattern s var expr => ∃ n name, ν s = .number n ∧ var.Denotes ν (.name name) ∧
      b.PatternMeets s.entity expr n name
  | .compare lhs rhs => ∃ text, b.SideIs ν lhs text ∧ b.SideIs ν rhs text

/-- The condition of the clause holds under a valuation, or does not if it is negated. -/
def Meets (b : FactBase) (ν : Valuation) (c : Clause) : Prop :=
  if c.negated then ¬ b.ConditionHolds ν c.condition else b.ConditionHolds ν c.condition

/-- A fact base as programs have them: what is related is registered, every statement has one type,
    assignments have variables, every value has one of each attribute, and relationships are
    as reflexive as they should be. -/
structure Regular (b : FactBase) : Prop where
  coherent : b.Coherent
  inDomain : ∀ s v, b.inDomain s v = true ↔ v ∈ b.domain s
  irreflexive : ∀ r, r.mayBeReflexive = false → r.toVariable = false → ∀ v, ¬ b.Relates r v v
  assigned : ∀ n, n ∈ b.ofType .assign ↔ ∃ name, b.targets.contains n name = true
  whileLoop : ∀ n name, b.whileControl.contains n name = true → n ∈ b.ofType .whileLoop
  ifElse : ∀ n name, b.ifControl.contains n name = true → n ∈ b.ofType .ifElse
  registered : ∀ n name, (b.targets.contains n name = true ∨ b.whileControl.contains n name = true ∨
    b.ifControl.contains n name = true) → name ∈ b.vars
  attributes : ∀ a v text, v ∈ b.domain a.synonym →
    (b.attrValue a v = some text ↔ b.AttributeIs a v text)
  attributed : ∀ a v, v ∈ b.domain a.synonym → ∃ text, b.AttributeIs a v text

variable {b : FactBase}

/-! ## Relationships -/

section

variable {α β : Type} [Member α] [Member β] [Ord α] [Std.TransOrd α] [Std.LawfulEqOrd α] [Ord β]
  [Std.TransOrd β] [Std.LawfulEqOrd β]

omit [Ord α] [Std.TransOrd α] [Std.LawfulEqOrd α] in
theorem mem_valuesOf (h : ∀ s v, b.inDomain s v = true ↔ v ∈ b.domain s) {s : Synonym}
    {members : List α} {v : Value} :
    v ∈ b.valuesOf s members ↔ v ∈ b.domain s ∧ ∃ a ∈ members, v = Member.value a := by
  simp only [valuesOf, List.mem_filter, List.mem_map, h, @eq_comm _ v]
  exact and_comm

theorem mem_valuePairs {store : PairStore α β} {v w : Value} :
    (v, w) ∈ store.pairs.map (fun (k, l) => (Member.value k, Member.value l)) ↔
      store.Relates v w := by
  simp only [List.mem_map, Prod.exists, Prod.mk.injEq, PairStore.mem_pairs, PairStore.Relates,
    @eq_comm _ v, @eq_comm _ w]

/-- The bindings of two synonyms, which may be one. -/
theorem holds_relationTable_synonyms (h : ∀ s v, b.inDomain s v = true ↔ v ∈ b.domain s)
    {store : PairStore α β} {reflexive : Bool} {s t : Synonym}
    (h_same : s = t → reflexive = false → ∀ v, ¬ store.Relates v v) {ν : Valuation} :
    (b.relationTable reflexive store (.synonym s) (.synonym t)).Holds ν ↔
      (ν s ∈ b.domain s ∧ ν t ∈ b.domain t) ∧ store.Relates (ν s) (ν t) := by
  have h_rows : ∀ v w, (v, w) ∈ store.pairs.map (fun (k, l) => (Member.value k, Member.value l)) ↔
      store.Relates v w := fun _ _ => mem_valuePairs
  simp only [relationTable]
  generalize store.pairs.map _ = rows at h_rows ⊢
  split
  · rename_i h_eq
    subst h_eq
    cases reflexive with
    | false => simpa using fun _ => h_same rfl rfl (ν s)
    | true =>
      simp only [if_true, Table.holds_column, List.mem_map, List.mem_filter, Prod.exists, h_rows,
        Bool.and_eq_true, beq_iff_eq, h, and_self]
      constructor
      · rintro ⟨v, _, ⟨h_vv, rfl, h_v⟩, rfl⟩
        exact ⟨h_v, h_vv⟩
      · rintro ⟨h_v, h_vv⟩
        exact ⟨_, _, ⟨h_vv, rfl, h_v⟩, rfl⟩
  · rw [Table.holds_ofRows (List.cons_ne_nil s [t])]
    simp only [List.map_cons, List.map_nil, List.mem_map, List.mem_filter, Prod.exists, h_rows,
      Bool.and_eq_true, h, List.cons.injEq, and_true]
    constructor
    · rintro ⟨v, w, ⟨h_vw, h_v, h_w⟩, rfl, rfl⟩
      exact ⟨⟨h_v, h_w⟩, h_vw⟩
    · rintro ⟨⟨h_v, h_w⟩, h_vw⟩
      exact ⟨_, _, ⟨h_vw, h_v, h_w⟩, rfl, rfl⟩

/-- The table of a relationship has the bindings under which its arguments denote related
    values.  Where both arguments are one synonym, the relationship has to be as reflexive as
    its pairs. -/
theorem holds_relationTable (h : ∀ s v, b.inDomain s v = true ↔ v ∈ b.domain s)
    {store : PairStore α β} (h_store : store.Coherent)
    (h_left : ∀ k k' : α, Member.value k = Member.value k' → k = k')
    (h_right : ∀ l l' : β, Member.value l = Member.value l' → l = l')
    {reflexive : Bool} {x : Argument α} {y : Argument β}
    (h_same : ∀ s, x.synonym? = some s → y.synonym? = some s → reflexive = false →
      ∀ v, ¬ store.Relates v v)
    {ν : Valuation} : (b.relationTable reflexive store x y).Holds ν ↔
      (∀ s ∈ x.synonym?.toList ++ y.synonym?.toList, ν s ∈ b.domain s) ∧
        ∃ v w, x.Denotes ν v ∧ y.Denotes ν w ∧ store.Relates v w := by
  have h_pairs : (∃ v w, x.Denotes ν v ∧ y.Denotes ν w ∧ store.Relates v w) ↔
      ∃ k l, store.contains k l = true ∧ x.Denotes ν (Member.value k) ∧
        y.Denotes ν (Member.value l) := by
    constructor
    · rintro ⟨_, _, h_x, h_y, k, l, h_kl, rfl, rfl⟩
      exact ⟨k, l, h_kl, h_x, h_y⟩
    · rintro ⟨k, l, h_kl, h_x, h_y⟩
      exact ⟨_, _, h_x, h_y, k, l, h_kl, rfl, rfl⟩
  rw [h_pairs]
  cases x with
  | synonym s =>
    cases y with
    | synonym t =>
      rw [holds_relationTable_synonyms h fun h_eq => h_same s rfl (by rw [h_eq]; rfl), ← h_pairs]
      simp [Argument.synonym?, Argument.Denotes]
    | literal l =>
      simp only [relationTable, Table.holds_column, mem_valuesOf h, Std.ExtTreeSet.mem_toList,
        h_store.mem_preimage, Argument.synonym?, Argument.Denotes, Option.toList_some,
        Option.toList_none, List.append_nil, List.forall_mem_singleton]
      refine and_congr_right fun _ => ⟨?_, ?_⟩
      · rintro ⟨k, h_kl, h_s⟩
        exact ⟨k, l, h_kl, h_s, rfl⟩
      · rintro ⟨k, l', h_kl, h_s, h_l⟩
        obtain rfl := h_right _ _ h_l
        exact ⟨k, h_kl, h_s⟩
    | wildcard =>
      simp only [relationTable, Table.holds_column, mem_valuesOf h, h_store.mem_keys,
        Argument.synonym?, Argument.Denotes, Option.toList_some, Option.toList_none,
        List.append_nil, List.forall_mem_singleton]
      refine and_congr_right fun _ => ⟨?_, ?_⟩
      · rintro ⟨k, ⟨l, h_kl⟩, h_s⟩
        exact ⟨k, l, h_kl, h_s, trivial⟩
      · rintro ⟨k, l, h_kl, h_s, -⟩
        exact ⟨k, ⟨l, h_kl⟩, h_s⟩
  | literal k =>
    cases y with
    | synonym t =>
      simp only [relationTable, Table.holds_column, mem_valuesOf h, Std.ExtTreeSet.mem_toList,
        PairStore.mem_image, Argument.synonym?, Argument.Denotes, Option.toList_some,
        Option.toList_none, List.nil_append, List.forall_mem_singleton]
      refine and_congr_right fun _ => ⟨?_, ?_⟩
      · rintro ⟨l, h_kl, h_t⟩
        exact ⟨k, l, h_kl, rfl, h_t⟩
      · rintro ⟨k', l, h_kl, h_k, h_t⟩
        obtain rfl := h_left _ _ h_k
        exact ⟨l, h_kl, h_t⟩
    | literal l =>
      simp only [relationTable, Table.holds_truth, Argument.synonym?, Argument.Denotes,
        Option.toList_none, List.append_nil, List.not_mem_nil, false_imp_iff, implies_true,
        true_and]
      constructor
      · exact fun h_kl => ⟨k, l, h_kl, rfl, rfl⟩
      · rintro ⟨k', l', h_kl, h_k, h_l⟩
        obtain rfl := h_left _ _ h_k
        obtain rfl := h_right _ _ h_l
        exact h_kl
    | wildcard =>
      simp only [relationTable, Table.holds_truth, h_store.containsKey_iff, Argument.synonym?,
        Argument.Denotes, Option.toList_none, List.append_nil, List.not_mem_nil, false_imp_iff,
        implies_true, true_and, and_true]
      constructor
      · rintro ⟨l, h_kl⟩
        exact ⟨k, l, h_kl, rfl⟩
      · rintro ⟨k', l, h_kl, h_k⟩
        obtain rfl := h_left _ _ h_k
        exact ⟨l, h_kl⟩
  | wildcard =>
    cases y with
    | synonym t =>
      simp only [relationTable, Table.holds_column, mem_valuesOf h, h_store.mem_values,
        Argument.synonym?, Argument.Denotes, Option.toList_some, Option.toList_none,
        List.nil_append, List.forall_mem_singleton, true_and]
      refine and_congr_right fun _ => ⟨?_, ?_⟩
      · rintro ⟨l, ⟨k, h_kl⟩, h_t⟩
        exact ⟨k, l, h_kl, h_t⟩
      · rintro ⟨k, l, h_kl, h_t⟩
        exact ⟨l, ⟨k, h_kl⟩, h_t⟩
    | literal l =>
      simp only [relationTable, Table.holds_truth, h_store.containsValue_iff, Argument.synonym?,
        Argument.Denotes, Option.toList_none, List.append_nil, List.not_mem_nil, false_imp_iff,
        implies_true, true_and]
      constructor
      · rintro ⟨k, h_kl⟩
        exact ⟨k, l, h_kl, rfl⟩
      · rintro ⟨k, l', h_kl, h_l⟩
        obtain rfl := h_right _ _ h_l
        exact ⟨k, h_kl⟩
    | wildcard =>
      simp only [relationTable, Table.holds_truth, Bool.not_eq_true', h_store.isEmpty_iff,
        Argument.synonym?, Argument.Denotes, Option.toList_none, List.append_nil,
        List.not_mem_nil, false_imp_iff, implies_true, true_and, and_true]

theorem holds_relate (h : ∀ s v, b.inDomain s v = true ↔ v ∈ b.domain s)
    {store : PairStore α β} (h_store : store.Coherent)
    (h_left : ∀ k k' : α, Member.value k = Member.value k' → k = k')
    (h_right : ∀ l l' : β, Member.value l = Member.value l' → l = l')
    {r : Relationship} {lhs rhs : Ref} (h_lhs : ∃ x : Argument α, x.Reads r lhs)
    (h_rhs : ∃ y : Argument β, y.Reads r rhs)
    (h_same : ∀ s, lhs.synonym? = some s → rhs.synonym? = some s → r.mayBeReflexive = false →
      ∀ v, ¬ store.Relates v v)
    {t : Table} (h_t : b.relate r store lhs rhs = .ok t) {ν : Valuation} : t.Holds ν ↔
      (∀ s ∈ lhs.synonym?.toList ++ rhs.synonym?.toList, ν s ∈ b.domain s) ∧
        ∃ v w, lhs.Denotes ν v ∧ rhs.Denotes ν w ∧ store.Relates v w := by
  obtain ⟨x, h_x⟩ := h_lhs
  obtain ⟨y, h_y⟩ := h_rhs
  rw [b.relate_eq store h_x h_y] at h_t
  cases h_t
  rw [← h_x.synonym, ← h_y.synonym] at *
  rw [holds_relationTable h h_store h_left h_right h_same]
  simp only [h_x.denotes, h_y.denotes]

end

/-- The table of a relationship between arguments that fit their places.  One synonym twice is
    only possible where the relationship is as reflexive as its pairs. -/
theorem holds_suchThatTable_of_fits (h : ∀ s v, b.inDomain s v = true ↔ v ∈ b.domain s)
    (h_coherent : b.Coherent) {r : Relationship} {lhs rhs : Ref}
    (h_lhs : lhs.Fits r.fromStatement) (h_rhs : rhs.Fits r.toStatement)
    (h_same : ∀ s, lhs.synonym? = some s → rhs.synonym? = some s → r.mayBeReflexive = false →
      ∀ v, ¬ b.Relates r v v)
    {t : Table} (h_t : b.suchThatTable r lhs rhs = .ok t) {ν : Valuation} : t.Holds ν ↔
      (∀ s ∈ lhs.synonym?.toList ++ rhs.synonym?.toList, ν s ∈ b.domain s) ∧
        b.ConditionHolds ν (.suchThat r lhs rhs) := by
  cases r with
  | calls | callsStar | usesProc | modifiesProc =>
    exact holds_relate h (by cases h_coherent; assumption) Member.name_inj Member.name_inj
      (Argument.exists_reads_name _ h_lhs) (Argument.exists_reads_name _ h_rhs) h_same h_t
  | uses | modifies =>
    exact holds_relate h (by cases h_coherent; assumption) Member.number_inj Member.name_inj
      (Argument.exists_reads_number _ h_lhs) (Argument.exists_reads_name _ h_rhs) h_same h_t
  | _ =>
    exact holds_relate h (by cases h_coherent; assumption) Member.number_inj Member.number_inj
      (Argument.exists_reads_number _ h_lhs) (Argument.exists_reads_number _ h_rhs) h_same h_t

theorem holds_suchThatTable (h : b.Regular) {r : Relationship} {lhs rhs : Ref}
    (h_typed : (Condition.suchThat r lhs rhs).Typed) {t : Table}
    (h_t : b.suchThatTable r lhs rhs = .ok t) {ν : Valuation} : t.Holds ν ↔
      (∀ s ∈ lhs.synonym?.toList ++ rhs.synonym?.toList, ν s ∈ b.domain s) ∧
        b.ConditionHolds ν (.suchThat r lhs rhs) := by
  obtain ⟨h_lhs, h_rhs, h_apart⟩ := h_typed
  -- A typed relationship has one synonym twice only if it joins things of one kind.
  have h_same : ∀ s, lhs.synonym? = some s → rhs.synonym? = some s → r.mayBeReflexive = false →
      ∀ v, ¬ b.Relates r v v := by
    intro s h_l h_r h_reflexive
    cases h_variable : r.toVariable with
    | false => exact h.irreflexive r h_reflexive h_variable
    | true =>
      exact absurd (Ref.eq_synonym h_r) (h_apart h_variable s (Ref.eq_synonym h_l))
  exact holds_suchThatTable_of_fits h.inDomain h.coherent h_lhs h_rhs h_same h_t

/-! ## Patterns -/

theorem isWindow_iff {pattern form : List String} :
    isWindow pattern form = true ↔ pattern <:+: form := by
  induction form with
  | nil => simp [isWindow]
  | cons x rest ih => simp [isWindow, ih, List.infix_cons_iff]

theorem assignmentMatches_iff {mode : MatchMode} {rpn : List String} (h : rpn ≠ [])
    {n : StatementNumber} :
    b.assignmentMatches mode rpn n = true ↔ b.SourceMeets n (.matching mode rpn) := by
  unfold assignmentMatches
  cases h_source : b.sources[n]? with
  | none => cases mode <;> simp [SourceMeets, h_source]
  | some form => cases mode <;> simp [SourceMeets, h_source, MatchMode.accepts, isWindow_iff, h]

/-- The candidates of a pattern and their variables are the pairs that it is met by, and each
    candidate has a variable. -/
theorem mem_patternCandidates (h : b.Regular) {e : Entity} {expr : ExprSpec} (h_expr : expr.Filled)
    {candidates : List StatementNumber} {vars : PairStore StatementNumber String}
    (h_found : b.patternCandidates e expr = .ok (candidates, vars)) :
    (∀ n name, n ∈ candidates ∧ vars.contains n name = true ↔ b.PatternMeets e expr n name) ∧
      ∀ n ∈ candidates, ∃ name, vars.contains n name = true := by
  unfold patternCandidates at h_found
  split at h_found <;> cases h_found
  · refine ⟨fun n name => ?_, fun n => (h.assigned n).1⟩
    simp only [PatternMeets, SourceMeets, and_true, and_iff_right_iff_imp]
    exact fun h_name => (h.assigned n).2 ⟨name, h_name⟩
  · refine ⟨fun n name => ?_, fun n h_n => (h.assigned n).1 (List.mem_filter.1 h_n).1⟩
    simp only [assignmentsMatching, List.mem_filter, assignmentMatches_iff h_expr, PatternMeets]
    constructor
    · rintro ⟨⟨-, h_source⟩, h_name⟩
      exact ⟨h_name, h_source⟩
    · rintro ⟨h_name, h_source⟩
      exact ⟨⟨(h.assigned n).2 ⟨name, h_name⟩, h_source⟩, h_name⟩
  · refine ⟨fun n name => ?_, fun n => (h.coherent.whileControl.mem_keys n).1⟩
    simp only [PatternMeets, h.coherent.whileControl.mem_keys, and_iff_right_iff_imp]
    exact fun h_name => ⟨name, h_name⟩
  · refine ⟨fun n name => ?_, fun n => (h.coherent.ifControl.mem_keys n).1⟩
    simp only [PatternMeets, h.coherent.ifControl.mem_keys, and_iff_right_iff_imp]
    exact fun h_name => ⟨name, h_name⟩

/-- What meets a pattern is a statement of its type, and a variable. -/
theorem Regular.registered_of_patternMeets (h : b.Regular) {s : Synonym} {expr : ExprSpec}
    {n : StatementNumber} {name : String} (h_meets : b.PatternMeets s.entity expr n name) :
    .number n ∈ b.domain s ∧ name ∈ b.vars := by
  unfold PatternMeets at h_meets
  split at h_meets
  · rename_i h_entity
    exact ⟨by simpa [domain, h_entity] using (h.assigned n).2 ⟨name, h_meets.1⟩,
      h.registered n name (.inl h_meets.1)⟩
  · rename_i h_entity
    exact ⟨by simpa [domain, h_entity] using h.whileLoop n name h_meets,
      h.registered n name (.inr (.inl h_meets))⟩
  · rename_i h_entity
    exact ⟨by simpa [domain, h_entity] using h.ifElse n name h_meets,
      h.registered n name (.inr (.inr h_meets))⟩
  · exact h_meets.elim

theorem holds_patternTable (h : b.Regular) {s : Synonym} {var : Ref} {expr : ExprSpec}
    (h_typed : (Condition.pattern s var expr).Typed) {t : Table}
    (h_t : b.patternTable s var expr = .ok t) {ν : Valuation} : t.Holds ν ↔
      (∀ u ∈ s :: var.synonym?.toList, ν u ∈ b.domain u) ∧
        b.ConditionHolds ν (.pattern s var expr) := by
  obtain ⟨h_entity, h_var, h_variable, h_expr⟩ := h_typed
  obtain ⟨⟨candidates, vars⟩, h_found⟩ := b.exists_patternCandidates h_entity
  obtain ⟨h_meets, h_named⟩ := mem_patternCandidates h h_expr h_found
  simp only [patternTable, h_found, bind, Except.bind] at h_t
  -- The statement of a match is in the domain of its synonym, and its variable is one.
  have h_reg : ∀ n name, n ∈ candidates → vars.contains n name = true →
      .number n ∈ b.domain s ∧ name ∈ b.vars := fun n name h_n h_name =>
    h.registered_of_patternMeets ((h_meets n name).1 ⟨h_n, h_name⟩)
  simp only [ConditionHolds, ← h_meets]
  cases var with
  | wildcard =>
    cases h_t
    simp only [Table.holds_column, List.mem_map, Ref.synonym?, Option.toList_none,
      List.forall_mem_singleton, Ref.Denotes, true_and]
    constructor
    · rintro ⟨n, h_n, h_s⟩
      obtain ⟨name, h_name⟩ := h_named n h_n
      exact ⟨h_s ▸ (h_reg n name h_n h_name).1, n, name, h_s.symm, h_n, h_name⟩
    · rintro ⟨-, n, name, h_s, h_n, -⟩
      exact ⟨n, h_n, h_s.symm⟩
  | ident name =>
    cases h_t
    simp only [Table.holds_column, List.mem_map, List.mem_filter, Ref.synonym?, Option.toList_none,
      List.forall_mem_singleton, Ref.Denotes, Value.name.injEq]
    constructor
    · rintro ⟨n, ⟨h_n, h_name⟩, h_s⟩
      exact ⟨h_s ▸ (h_reg n name h_n h_name).1, n, name, h_s.symm, rfl, h_n, h_name⟩
    · rintro ⟨-, n, _, h_s, rfl, h_n, h_name⟩
      exact ⟨n, ⟨h_n, h_name⟩, h_s.symm⟩
  | synonym v =>
    cases h_t
    rw [Table.holds_ofRows (List.cons_ne_nil s [v])]
    simp only [List.map_cons, List.map_nil, List.mem_flatMap, List.mem_map,
      Std.ExtTreeSet.mem_toList, PairStore.mem_image, List.cons.injEq, and_true, Ref.synonym?,
      Option.toList_some, List.forall_mem_cons, List.not_mem_nil, false_imp_iff, implies_true,
      Ref.Denotes]
    have h_domain : ∀ name, .name name ∈ b.domain v ↔ name ∈ b.vars := by
      simp [domain, h_variable v rfl]
    constructor
    · rintro ⟨n, h_n, name, h_name, h_s, h_v⟩
      obtain ⟨h_number, h_var⟩ := h_reg n name h_n h_name
      exact ⟨⟨h_s ▸ h_number, h_v ▸ (h_domain name).2 h_var⟩, n, name, h_s.symm, h_v.symm, h_n,
        h_name⟩
    · rintro ⟨-, n, name, h_s, h_v, h_n, h_name⟩
      exact ⟨n, h_n, name, h_name, h_s.symm, h_v.symm⟩
  | integer n => cases h_var

/-! ## Comparisons -/

theorem mem_attributed (h : b.Regular) {a : AttributeRef} {v : Value} {text : String} :
    (v, text) ∈ b.attributed a ↔ v ∈ b.domain a.synonym ∧ b.AttributeIs a v text := by
  simp only [attributed, List.mem_filterMap, Option.map_eq_some_iff, Prod.mk.injEq]
  constructor
  · rintro ⟨_, h_v, _, h_text, rfl, rfl⟩
    exact ⟨h_v, (h.attributes a _ _ h_v).1 h_text⟩
  · rintro ⟨h_v, h_text⟩
    exact ⟨v, h_v, text, (h.attributes a v text h_v).2 h_text, rfl, rfl⟩

theorem mem_withAttribute (h : b.Regular) {a : AttributeRef} {v : Value} {text : String} :
    v ∈ b.withAttribute a text ↔ v ∈ b.domain a.synonym ∧ b.AttributeIs a v text := by
  simp [withAttribute, mem_attributed h]

theorem holds_compareAttributes (h : b.Regular) {a c : AttributeRef} {ν : Valuation} :
    (b.compareAttributes a c).Holds ν ↔
      (ν a.synonym ∈ b.domain a.synonym ∧ ν c.synonym ∈ b.domain c.synonym) ∧
        ∃ text, b.AttributeIs a (ν a.synonym) text ∧ b.AttributeIs c (ν c.synonym) text := by
  unfold compareAttributes
  split
  · rename_i h_eq
    rw [← h_eq, and_self]
    simp only [Table.holds_column, List.mem_filterMap, Prod.exists, mem_attributed h,
      Option.ite_none_right_eq_some, Option.some.injEq]
    constructor
    · rintro ⟨v, text, ⟨h_v, h_a⟩, h_c, rfl⟩
      exact ⟨h_v, text, h_a, (h.attributes c _ text (h_eq ▸ h_v)).1 h_c⟩
    · rintro ⟨h_v, text, h_a, h_c⟩
      exact ⟨_, text, ⟨h_v, h_a⟩, (h.attributes c _ text (h_eq ▸ h_v)).2 h_c, rfl⟩
  · rw [Table.holds_ofRows (List.cons_ne_nil a.synonym [c.synonym])]
    simp only [List.map_cons, List.map_nil, List.mem_flatMap, List.mem_map, Prod.exists,
      mem_attributed h, mem_withAttribute h, List.cons.injEq, and_true]
    constructor
    · rintro ⟨v, text, ⟨h_v, h_a⟩, w, ⟨h_w, h_c⟩, rfl, rfl⟩
      exact ⟨⟨h_v, h_w⟩, text, h_a, h_c⟩
    · rintro ⟨⟨h_v, h_w⟩, text, h_a, h_c⟩
      exact ⟨_, text, ⟨h_v, h_a⟩, _, ⟨h_w, h_c⟩, rfl, rfl⟩

theorem holds_compareTable (h : b.Regular) {lhs rhs : WithRef} (h_kind : lhs.kind = rhs.kind)
    {ν : Valuation} : (b.compareTable lhs rhs).Holds ν ↔
      (∀ s ∈ lhs.synonym?.toList ++ rhs.synonym?.toList, ν s ∈ b.domain s) ∧
        b.ConditionHolds ν (.compare lhs rhs) := by
  rw [compareTable.eq_def, if_pos h_kind]
  cases lhs with
  | attr a =>
    cases rhs with
    | attr c => simpa [WithRef.synonym?, ConditionHolds, SideIs] using holds_compareAttributes h
    | ident text => simp [WithRef.synonym?, ConditionHolds, SideIs, mem_withAttribute h]
    | integer digits => simp [WithRef.synonym?, ConditionHolds, SideIs, mem_withAttribute h]
  | ident text => cases rhs <;> simp [WithRef.synonym?, ConditionHolds, SideIs, mem_withAttribute h]
  | integer digits =>
    cases rhs <;> simp [WithRef.synonym?, ConditionHolds, SideIs, mem_withAttribute h]

/-! ## Clauses -/

theorem holds_conditionTable (h : b.Regular) {c : Condition} (h_typed : c.Typed) {t : Table}
    (h_t : b.conditionTable c = .ok t) {ν : Valuation} :
    t.Holds ν ↔ (∀ s ∈ c.mentions, ν s ∈ b.domain s) ∧ b.ConditionHolds ν c := by
  cases c with
  | suchThat r lhs rhs => exact holds_suchThatTable h h_typed h_t
  | pattern s var expr => exact holds_patternTable h h_typed h_t
  | compare lhs rhs =>
    cases h_t
    exact holds_compareTable h h_typed

/-- A clause has the bindings from the domains of its synonyms that it is met by. -/
theorem clauseHolds_iff_meets (h : b.Regular) {c : Clause} (h_typed : c.condition.Typed)
    {ν : Valuation} :
    b.ClauseHolds c ν ↔ (∀ s ∈ c.synonyms, ν s ∈ b.domain s) ∧ b.Meets ν c := by
  obtain ⟨positive, t, h_positive, h_t, -, -, h_holds⟩ := b.exists_clauseTable h_typed
  have h_condition := holds_conditionTable h h_typed h_positive (ν := ν)
  simp only [← mem_synonyms] at h_condition
  rw [clauseHolds_iff h_t, h_holds, h_condition, Meets]
  split
  · -- The complement is taken in the domains, where the table of the condition says what it means.
    refine and_congr_right fun h_domain => not_congr ?_
    exact ⟨And.right, fun h_holds => ⟨h_domain, h_holds⟩⟩
  · exact Iff.rfl

end FactBase

end ProgramQuery
