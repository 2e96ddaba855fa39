/-
  ProgramQuery.Proofs.Answer.Complete

  Queries about programs are answered soundly and completely.

  A valuation solves a query if it takes the synonyms of the query from their domains
  and meets every clause.  A query for a truth value is answered by whether there
  is a solution, and a query for tuples by the texts of all solutions, each
  text once.
-/

import ProgramQuery.Proofs.Answer.Regular

namespace ProgramQuery

open Facts

namespace FactBase

variable {b : FactBase}

/-! ## Solutions -/

/-- The valuation takes the synonyms of the query from their domains and meets its clauses. -/
def Solves (b : FactBase) (q : Query) (ν : Valuation) : Prop :=
  (∀ s, (s ∈ q.selected ∨ ∃ c ∈ q.clauses, s ∈ c.synonyms) → ν s ∈ b.domain s) ∧
    ∀ c ∈ q.clauses, b.Meets ν c

/-- A text is the value of an element of a tuple. -/
def ElementIs (b : FactBase) (ν : Valuation) : Element → String → Prop
  | .synonym s, text => (ν s).text = text
  | .attr a, text => b.AttributeIs a (ν a.synonym) text

/-- A text is the answer of a valuation: the values of all elements, separated by spaces. -/
def Renders (b : FactBase) (ν : Valuation) (elements : List Element) (answer : String) : Prop :=
  ∃ texts, List.Forall₂ (b.ElementIs ν) elements texts ∧ answer = String.intercalate " " texts

theorem allHold_iff_meets (h : b.Regular) {cs : List Clause} (h_typed : ∀ c ∈ cs, c.condition.Typed)
    {ν : Valuation} : b.AllHold cs ν ↔
      (∀ c ∈ cs, ∀ s ∈ c.synonyms, ν s ∈ b.domain s) ∧ ∀ c ∈ cs, b.Meets ν c := by
  rw [AllHold, ← forall₂_and]
  refine forall₂_congr fun c hc => ?_
  exact clauseHolds_iff_meets h (h_typed c hc)

/-- What satisfies the tables solves the query. -/
theorem satisfies_iff_solves (h : b.Regular) {q : Query} (h_typed : q.Typed) {ν : Valuation} :
    b.Satisfies q ν ↔ b.Solves q ν := by
  rw [Satisfies, allHold_iff_meets h h_typed.conditions, Solves]
  constructor
  · rintro ⟨⟨h_bound, h_meets⟩, h_free⟩
    refine ⟨fun s hs => ?_, h_meets⟩
    -- Bound synonyms get their values from tables, and the others from their domains.
    by_cases h_in : ∃ c ∈ q.clauses, s ∈ c.synonyms
    · obtain ⟨c, hc, h_c⟩ := h_in
      exact h_bound c hc s h_c
    · exact h_free s (hs.resolve_right h_in) fun c hc h_c => h_in ⟨c, hc, h_c⟩
  · rintro ⟨h_domain, h_meets⟩
    exact ⟨⟨fun c hc s hs => h_domain s (.inr ⟨c, hc, hs⟩), h_meets⟩,
      fun s hs _ => h_domain s (.inl hs)⟩

/-- A query for a truth value has no selected synonyms. -/
theorem allHold_iff_solves (h : b.Regular) {q : Query} (h_typed : q.Typed)
    (h_boolean : q.selection = .boolean) {ν : Valuation} :
    b.AllHold q.clauses ν ↔ b.Solves q ν := by
  have h_selected : q.selected = [] := by
    simp [Query.selected, Selection.synonyms, Selection.elements, h_boolean]
  rw [← satisfies_iff_solves h h_typed, Satisfies, h_selected]
  simp

/-! ## Texts -/

theorem elementText_eq_some_iff (h : b.Regular) {columns : List Synonym} {ν : Valuation}
    {e : Element} (h_mem : e.base ∈ columns) (h_domain : ν e.base ∈ b.domain e.base)
    (text : String) :
    b.elementText columns (columns.map ν) e = some text ↔ b.ElementIs ν e text := by
  obtain ⟨i, h_i⟩ := Option.isSome_iff_exists.1 (Table.isSome_position?.2 h_mem)
  have h_value : (columns.map ν)[i]? = some (ν e.base) := by
    rw [List.getElem?_map, Table.position?_eq_some h_i, Option.map_some]
  simp only [elementText, h_i, h_value, bind, Option.bind]
  cases e with
  | synonym s => simp [ElementIs, Element.base]
  | attr a => exact h.attributes a _ text h_domain

section

variable {columns : List Synonym} {ν : Valuation} {elements : List Element}

theorem mapM_elementText_eq_some_iff (h : b.Regular) (h_mem : ∀ e ∈ elements, e.base ∈ columns)
    (h_domain : ∀ s ∈ columns, ν s ∈ b.domain s) {texts : List String} :
    elements.mapM (b.elementText columns (columns.map ν)) = some texts ↔
      List.Forall₂ (b.ElementIs ν) elements texts := by
  induction elements generalizing texts with
  | nil => cases texts <;> simp
  | cons e rest ih =>
    obtain ⟨h_e, h_rest⟩ := List.forall_mem_cons.1 h_mem
    have h_text := elementText_eq_some_iff h h_e (h_domain _ h_e)
    cases texts <;> simp [List.mapM_cons, Option.bind_eq_some_iff, h_text, ih h_rest]

theorem rowText_eq_some_iff (h : b.Regular) (h_mem : ∀ e ∈ elements, e.base ∈ columns)
    (h_domain : ∀ s ∈ columns, ν s ∈ b.domain s) {answer : String} :
    b.rowText columns elements (columns.map ν) = some answer ↔ b.Renders ν elements answer := by
  simp only [rowText, Option.map_eq_some_iff, mapM_elementText_eq_some_iff h h_mem h_domain,
    Renders, @eq_comm _ answer]

theorem exists_forall₂ {α β : Type} {R : α → β → Prop} {l : List α} (h : ∀ a ∈ l, ∃ c, R a c) :
    ∃ r, List.Forall₂ R l r := by
  induction l with
  | nil => exact ⟨[], .nil⟩
  | cons a rest ih =>
    obtain ⟨c, h_c⟩ := h a (List.mem_cons_self ..)
    obtain ⟨r, h_r⟩ := ih fun x hx => h x (List.mem_cons_of_mem _ hx)
    exact ⟨c :: r, .cons h_c h_r⟩

/-- Values from the domains have one text. -/
theorem existsUnique_renders (h : b.Regular) (h_mem : ∀ e ∈ elements, e.base ∈ columns)
    (h_domain : ∀ s ∈ columns, ν s ∈ b.domain s) : ∃! answer, b.Renders ν elements answer := by
  have h_element : ∀ e ∈ elements, ∃ text, b.ElementIs ν e text := by
    intro e he
    cases e with
    | synonym s => exact ⟨_, rfl⟩
    | attr a => exact h.attributed a _ (h_domain _ (h_mem _ he))
  obtain ⟨texts, h_texts⟩ := exists_forall₂ h_element
  refine ⟨_, ⟨texts, h_texts, rfl⟩, fun answer h_answer => ?_⟩
  have h_row := (rowText_eq_some_iff h h_mem h_domain).2 ⟨texts, h_texts, rfl⟩
  rw [(rowText_eq_some_iff h h_mem h_domain).2 h_answer, Option.some.injEq] at h_row
  exact h_row

end

theorem base_mem_selected {q : Query} {elements : List Element} (h : q.selection = .tuple elements)
    {e : Element} (he : e ∈ elements) : e.base ∈ q.selected := by
  rw [Query.selected, h, Selection.synonyms, List.mem_eraseDups]
  exact List.mem_map_of_mem he

/-! ## Answers -/

theorem mem_sort {x : String} {answers : List String} : x ∈ Answer.sort answers ↔ x ∈ answers :=
  List.mem_mergeSort

theorem nodup_sort_toList (answers : Std.ExtTreeSet String) :
    (Answer.sort answers.toList).Nodup := by
  rw [Answer.sort, (List.mergeSort_perm ..).nodup_iff]
  exact Facts.nodup_toList answers

/-- Evaluation is sound and complete: a truth value says whether there is a solution, and the
    tuples are those of the solutions, each of which has one text. -/
theorem evaluate_sound_complete {source text : String} {p : Program} {q : Query}
    (h_program : Program.read source = .ok p) (h_query : Query.read text = .ok q)
    (strategy : Strategy) :
    ∃ e, (ofProgram p.numbered).evaluate strategy q = .ok e ∧
      (q.selection = .boolean →
        ((∃ ν, (ofProgram p.numbered).Solves q ν) → e.answers = ["TRUE"]) ∧
        ((¬ ∃ ν, (ofProgram p.numbered).Solves q ν) → e.answers = ["FALSE"])) ∧
      ∀ elements, q.selection = .tuple elements →
        e.answers.Nodup ∧
        (∀ ν, (ofProgram p.numbered).Solves q ν →
          ∃! answer, (ofProgram p.numbered).Renders ν elements answer) ∧
        ∀ answer, answer ∈ e.answers ↔ ∃ ν, (ofProgram p.numbered).Solves q ν ∧
          (ofProgram p.numbered).Renders ν elements answer := by
  have h_regular := regular_ofProgram (Program.wellFormed_of_read h_program)
  have h_typed := Query.typed_of_read h_query
  generalize ofProgram p.numbered = b at h_regular ⊢
  obtain ⟨e, h_e, h_answered⟩ := exists_answered_evaluate b strategy h_typed
  refine ⟨e, h_e, fun h_boolean => ?_, fun elements h_tuple => ?_⟩
  · have h_answers := h_answered.boolean h_boolean
    simp only [allHold_iff_solves h_regular h_typed h_boolean] at h_answers
    rcases h_answers with ⟨h_some, h_eq⟩ | ⟨h_none, h_eq⟩
    · exact ⟨fun _ => h_eq, fun h_none => absurd h_some h_none⟩
    · exact ⟨fun h_some => absurd h_some h_none, fun _ => h_eq⟩
  · obtain ⟨rows, h_rows, h_eq⟩ := h_answered.tuple elements h_tuple
    have h_mem : ∀ e ∈ elements, e.base ∈ q.selected := fun _ => base_mem_selected h_tuple
    have h_domain : ∀ ν, b.Solves q ν → ∀ s ∈ q.selected, ν s ∈ b.domain s :=
      fun ν h_ν s hs => h_ν.1 s (.inl hs)
    refine ⟨h_eq ▸ nodup_sort_toList _,
      fun ν h_ν => existsUnique_renders h_regular h_mem (h_domain ν h_ν), fun answer => ?_⟩
    rw [h_eq, mem_sort, Std.ExtTreeSet.mem_toList, Std.ExtTreeSet.mem_ofList, List.contains_iff_mem,
      List.mem_filterMap]
    simp only [h_rows, satisfies_iff_solves h_regular h_typed]
    constructor
    · rintro ⟨_, ⟨ν, h_ν, rfl⟩, h_text⟩
      exact ⟨ν, h_ν, (rowText_eq_some_iff h_regular h_mem (h_domain ν h_ν)).1 h_text⟩
    · rintro ⟨ν, h_ν, h_text⟩
      exact ⟨_, ⟨ν, h_ν, rfl⟩, (rowText_eq_some_iff h_regular h_mem (h_domain ν h_ν)).2 h_text⟩

/-- A negated clause with a wildcard: of two procedures, the one that calls nothing. -/
theorem answers_procedures_without_calls :
    ∃ p, Program.read
        "procedure main \x7b call helper; \x7d procedure helper \x7b read x; \x7d" = .ok p ∧
      ∃ q, Query.read "procedure p; Select p such that not Calls(p, _)" = .ok q ∧
        ∀ strategy, ∃ e, (ofProgram p.numbered).evaluate strategy q = .ok e ∧
          e.answers = ["helper"] := by
  refine exists_ok_of_test (fun p => p.numbered.procedures.map (fun r => (r.name, r.callees)) =
    [("main", ["helper"]), ("helper", [])]) (by decide +kernel) fun p h_program h_p => ?_
  refine exists_ok_of_test (fun q => q.selection = .tuple [.synonym ⟨"p", .procedure⟩] ∧
    q.clauses = [⟨.suchThat .calls (.synonym ⟨"p", .procedure⟩) .wildcard, true⟩])
    (by decide +kernel) fun q h_query h_q strategy => ?_
  obtain ⟨h_selection, h_clauses⟩ := of_decide_eq_true h_q
  obtain ⟨e, h_e, -, h_tuple⟩ := evaluate_sound_complete h_program h_query strategy
  obtain ⟨h_nodup, -, h_mem⟩ := h_tuple _ h_selection
  refine ⟨e, h_e, List.perm_singleton.1 ((List.perm_ext_iff_of_nodup h_nodup
    (List.nodup_singleton _)).2 fun answer => (h_mem answer).trans ?_)⟩
  -- The names of the two procedures, and which of them calls any.
  have h_list := of_decide_eq_true h_p
  have h_names : ∀ name, name ∈ (ofProgram p.numbered).procedures ↔
      name = "main" ∨ name = "helper" := by
    intro name
    have h_map : (∃ r ∈ p.numbered.procedures, r.name = name) ↔
        ∃ r ∈ p.numbered.procedures.map fun r => (r.name, r.callees), r.1 = name := by simp
    rw [mem_procedures_iff (Program.wellFormed_of_read h_program), h_map, h_list]
    simp [@eq_comm _ name]
  have h_calls : ∀ name, (∃ c, (ofProgram p.numbered).calls.direct.contains name c = true) ↔
      name = "main" := by
    intro name
    have h_map : ∀ c, p.numbered.Calls name c ↔
        ∃ r ∈ p.numbered.procedures.map fun r => (r.name, r.callees), r.1 = name ∧ c ∈ r.2 := by
      simp [NumberedProgram.Calls]
    simp only [contains_calls, h_map, h_list]
    simp [@eq_comm _ name]
  have h_solves : ∀ ν, (ofProgram p.numbered).Solves q ν ↔
      ν ⟨"p", .procedure⟩ = .name "helper" := by
    intro ν
    have h_synonyms : ∀ s, (s ∈ q.selected ∨ ∃ c ∈ q.clauses, s ∈ c.synonyms) ↔
        s = ⟨"p", .procedure⟩ := by
      simp [Query.selected, Selection.synonyms, Selection.elements, h_selection, h_clauses,
        Element.base, mem_synonyms, Condition.mentions, Ref.synonym?]
    simp only [Solves, h_synonyms, forall_eq]
    simp only [h_clauses, List.forall_mem_singleton, Meets, if_true, ConditionHolds, Ref.Denotes,
      Relates, true_and, domain, List.mem_map, Std.ExtTreeSet.mem_toList, h_names]
    constructor
    · rintro ⟨⟨name, rfl | rfl, h_name⟩, h_none⟩
      · obtain ⟨c, h_c⟩ := (h_calls "main").2 rfl
        exact absurd ⟨_, _, h_name.symm, "main", c, h_c, rfl, rfl⟩ h_none
      · exact h_name.symm
    · intro h_helper
      refine ⟨⟨"helper", .inr rfl, h_helper.symm⟩, ?_⟩
      rintro ⟨_, _, h_s, name, c, h_c, rfl, rfl⟩
      obtain rfl := (h_calls name).1 ⟨c, h_c⟩
      rw [h_helper] at h_s
      exact absurd (Value.name.inj h_s) (by decide)
  simp only [h_solves, Renders, List.mem_singleton]
  constructor
  · rintro ⟨ν, h_ν, texts, h_texts, rfl⟩
    cases h_texts with
    | cons h_text h_rest =>
      cases h_rest
      rw [← h_text, h_ν]
      rfl
  · rintro rfl
    exact ⟨fun _ => .name "helper", rfl, ["helper"], .cons rfl .nil, rfl⟩

end FactBase

end ProgramQuery
