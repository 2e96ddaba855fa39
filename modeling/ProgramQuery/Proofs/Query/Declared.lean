/-
  ProgramQuery.Proofs.Query.Declared

  The synonyms of a query that was read are among its declarations.

  No name is declared twice, so a name stands for one synonym wherever it is
  used, and clauses that share the name of a synonym share the synonym.
-/

import ProgramQuery.Proofs.Query.Typed

namespace ProgramQuery

/-- A query whose declarations have different names and cover all synonyms. -/
structure Query.Declared (q : Query) : Prop where
  distinct : (q.declarations.map Synonym.name).Nodup
  selected : ∀ s ∈ q.selected, s ∈ q.declarations
  clauses : ∀ c ∈ q.clauses, ∀ s ∈ c.synonyms, s ∈ q.declarations

namespace Query.Declared

variable {q : Query}

/-- Declared synonyms with one name are the same. -/
theorem eq_of_name (h : q.Declared) {s t : Synonym} (h_s : s ∈ q.declarations)
    (h_t : t ∈ q.declarations) (h_name : s.name = t.name) : s = t :=
  List.inj_on_of_nodup_map h.distinct h_s h_t h_name

end Query.Declared

namespace Scope

variable {scope : Scope}

theorem declare_distinct {ds : List (Entity × String)} {result : Scope}
    (h : scope.declare ds = .ok result) (h_distinct : (scope.map Synonym.name).Nodup) :
    (result.map Synonym.name).Nodup := by
  induction ds generalizing scope with
  | nil =>
    cases h
    exact h_distinct
  | cons d ds ih =>
    obtain ⟨entity, name⟩ := d
    rw [declare] at h
    split at h
    · cases h
    · rename_i h_new
      have h_fresh : name ∉ scope.map Synonym.name := by
        intro h_mem
        apply h_new
        simpa using h_mem
      apply ih h
      rw [List.map_append, List.map_singleton, List.nodup_append]
      refine ⟨h_distinct, List.nodup_singleton _, fun a h_a b h_b => ?_⟩
      rw [List.mem_singleton] at h_b
      subst h_b
      rintro rfl
      exact h_fresh h_a

theorem mem_of_resolve {name : String} {s : Synonym} (h : scope.resolve name = .ok s) :
    s ∈ scope := by
  unfold resolve at h
  split at h
  · rename_i h_find
    cases h
    exact List.mem_of_find?_eq_some h_find
  · cases h

theorem synonym_of_attrOf {s : Synonym} {a : Attribute} {r : AttributeRef}
    (h : attrOf s a = .ok r) : r.synonym = s := by
  unfold attrOf at h
  split at h
  · cases h
    rfl
  · cases h

/-! ## Results -/

theorem base_mem_of_element {d : Draft.Element} {e : Element} (h : scope.element d = .ok e) :
    e.base ∈ scope := by
  obtain ⟨s, h_s, h⟩ := bind_eq_ok.1 h
  split at h
  · cases h
    exact mem_of_resolve h_s
  · obtain ⟨r, h_r, h⟩ := bind_eq_ok.1 h
    cases h
    rw [Element.base, synonym_of_attrOf h_r]
    exact mem_of_resolve h_s

theorem selection_declared {d : Draft.Selection} {selection : Selection}
    (h : scope.selection d = .ok selection) : ∀ s ∈ selection.synonyms, s ∈ scope := by
  intro s hs
  rw [Selection.synonyms, List.mem_eraseDups, List.mem_map] at hs
  obtain ⟨e, he, rfl⟩ := hs
  cases d with
  | boolean =>
    simp only [Scope.selection] at h
    split at h
    · rename_i t h_find
      cases h
      obtain rfl := List.mem_singleton.1 he
      exact List.mem_of_find?_eq_some h_find
    · cases h
      cases he
  | tuple ds =>
    obtain ⟨es, h_es, h⟩ := bind_eq_ok.1 h
    cases h
    obtain ⟨d, -, h_d⟩ := (results_of_mapM h_es).1 e he
    exact base_mem_of_element h_d

/-! ## Clauses -/

theorem ref_declared {d : Draft.Ref} {r : Ref} (h : scope.ref d = .ok r) :
    ∀ s ∈ r.synonym?.toList, s ∈ scope := by
  cases d with
  | name text =>
    obtain ⟨s, h_s, h⟩ := bind_eq_ok.1 h
    cases h
    simpa [Ref.synonym?] using mem_of_resolve h_s
  | ident text =>
    cases h
    simp [Ref.synonym?]
  | integer n =>
    cases h
    simp [Ref.synonym?]
  | wildcard =>
    cases h
    simp [Ref.synonym?]

theorem withRef_declared {d : Draft.WithRef} {r : WithRef} (h : scope.withRef d = .ok r) :
    ∀ s ∈ r.synonym?.toList, s ∈ scope := by
  cases d with
  | ident text =>
    cases h
    simp [WithRef.synonym?]
  | integer digits =>
    cases h
    simp [WithRef.synonym?]
  | attr e =>
    obtain ⟨s, a, r, h_s, -, h_r, rfl⟩ := withRef_attr_eq_ok.1 h
    simpa [WithRef.synonym?, synonym_of_attrOf h_r] using mem_of_resolve h_s

/-- Whatever relationship is chosen, its arguments are the two that were written. -/
theorem mentions_of_suchThat {lhs rhs : Ref} {word : String} {c : Condition}
    (h : suchThat lhs rhs word = .ok c) :
    c.mentions = lhs.synonym?.toList ++ rhs.synonym?.toList := by
  obtain ⟨r, -, h⟩ := suchThat_eq_ok.1 h
  cases r with
  | uses | modifies =>
    obtain ⟨_, -, h⟩ := bind_eq_ok.1 h
    obtain ⟨_, -, h⟩ := bind_eq_ok.1 h
    cases h
    rfl
  | _ =>
    obtain ⟨_, -, h⟩ := bind_eq_ok.1 h
    obtain ⟨_, -, h⟩ := bind_eq_ok.1 h
    cases h
    rfl

theorem condition_declared {d : Draft.Condition} {c : Condition}
    (h : scope.condition d = .ok c) : ∀ s ∈ c.mentions, s ∈ scope := by
  cases d with
  | suchThat name lhs rhs =>
    obtain ⟨lhs', h_lhs, h⟩ := bind_eq_ok.1 h
    obtain ⟨rhs', h_rhs, h⟩ := bind_eq_ok.1 h
    rw [mentions_of_suchThat h, List.forall_mem_append]
    exact ⟨ref_declared h_lhs, ref_declared h_rhs⟩
  | pattern name var expr form =>
    obtain ⟨s, h_s, h⟩ := bind_eq_ok.1 h
    split at h
    · obtain ⟨var', h_var, h⟩ := bind_eq_ok.1 h
      obtain ⟨_, -, h⟩ := bind_eq_ok.1 h
      cases h
      exact List.forall_mem_cons.2 ⟨mem_of_resolve h_s, ref_declared h_var⟩
    · cases h
  | compare lhs rhs =>
    obtain ⟨lhs', h_lhs, h⟩ := bind_eq_ok.1 h
    obtain ⟨rhs', h_rhs, h⟩ := bind_eq_ok.1 h
    split at h
    · cases h
      exact List.forall_mem_append.2 ⟨withRef_declared h_lhs, withRef_declared h_rhs⟩
    · cases h

end Scope

/-- A query that was read declares its synonyms. -/
theorem Query.declared_of_read {text : String} {q : Query} (h : Query.read text = .ok q) :
    q.Declared := by
  obtain ⟨draft, -, h⟩ := Query.exists_draft_of_read h
  obtain ⟨scope, h_scope, h⟩ := bind_eq_ok.1 h
  obtain ⟨selection, h_selection, h⟩ := bind_eq_ok.1 h
  obtain ⟨clauses, h_clauses, h⟩ := bind_eq_ok.1 h
  cases h
  refine ⟨Scope.declare_distinct h_scope List.nodup_nil, Scope.selection_declared h_selection, ?_⟩
  intro c hc s hs
  obtain ⟨d, -, h_d⟩ := (results_of_mapM h_clauses).1 c hc
  obtain ⟨condition, h_condition, h_d⟩ := bind_eq_ok.1 h_d
  cases h_d
  exact Scope.condition_declared h_condition s (List.mem_eraseDups.1 hs)

end ProgramQuery
