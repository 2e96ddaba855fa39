/-
  ProgramQuery.Proofs.Query.Written

  The comparisons of a query as they are written.

  The tokens of a query are those up to its result, followed by a run of tokens for
  each clause.  The run of a comparison is the word that opens it, perhaps `not`,
  and two sides around an equality sign, and each side of the clause is the
  attribute, the name or the number that its tokens write down.
-/

import Mathlib.Data.List.Forall2
import ProgramQuery.Proofs.Query.Declared
import ProgramQuery.Proofs.Query.Recognise

namespace ProgramQuery

/-! ## Sides -/

/-- The tokens of a side of a comparison. -/
def Draft.WithRef.Written : Draft.WithRef → List QueryToken → Prop
  | .attr e, ts => ∃ a, e.attr = some a ∧ ts = [.name e.name, .symbol '.', .name a.text]
  | .ident name, ts => ∃ text, ts = [.quoted text] ∧ name = Text.trimString text
  | .integer form, ts => ∃ digits, ts = [.integer digits] ∧ form = Text.canonicalInteger digits

/-- The tokens of a side of a comparison, whose synonym is declared and has the attribute. -/
def WithRef.Written (declared : List Synonym) : WithRef → List QueryToken → Prop
  | .attr a, ts => a.synonym ∈ declared ∧ a.synonym.entity.supports a.attr = true ∧
      ts = [.name a.synonym.name, .symbol '.', .name a.attr.text]
  | .ident name, ts => ∃ text, ts = [.quoted text] ∧ name = Text.trimString text
  | .integer form, ts => ∃ digits, ts = [.integer digits] ∧ form = Text.canonicalInteger digits

/-- A comparison of two sides: the word that opens it or goes on with one, perhaps `not`, and
    the sides around an equality sign. -/
def QueryToken.IsComparison (negated : Bool) (lhs rhs ts : List QueryToken) : Prop :=
  ∃ word, (word = "with" ∨ word = "and") ∧
    ts = .name word :: ((if negated then [.name "not"] else []) ++ (lhs ++ .symbol '=' :: rhs))

/-- If the clause is a comparison, the tokens write it down. -/
def Draft.Clause.Written (ts : List QueryToken) (c : Draft.Clause) : Prop :=
  ∀ lhs rhs, c.condition = .compare lhs rhs → ∃ ls rs, lhs.Written ls ∧ rhs.Written rs ∧
    QueryToken.IsComparison c.negated ls rs ts

/-- If the resolved clause is a comparison, the tokens write it down. -/
def Clause.Written (declared : List Synonym) (ts : List QueryToken) (c : Clause) : Prop :=
  ∀ lhs rhs, c.condition = .compare lhs rhs → ∃ ls rs, lhs.Written declared ls ∧
    rhs.Written declared rs ∧ QueryToken.IsComparison c.negated ls rs ts

/-! ## Reading -/

namespace QueryReader

theorem withRef_written {ts rest : List QueryToken} {r : Draft.WithRef}
    (h : withRef ts = .ok (r, rest)) : ∃ us, r.Written us ∧ ts = us ++ rest := by
  unfold withRef at h
  split at h
  · rename_i text _
    obtain ⟨name, h_name, h⟩ := bind_eq_ok.1 h
    cases h
    exact ⟨_, ⟨text, rfl, (quotedName_eq_ok.1 h_name).2⟩, rfl⟩
  · rename_i digits _
    cases h
    exact ⟨_, ⟨digits, rfl, rfl⟩, rfl⟩
  · obtain ⟨⟨name, ts₁⟩, h_name, h⟩ := bind_eq_ok.1 h
    obtain ⟨ts₂, h_point, h⟩ := bind_eq_ok.1 h
    obtain ⟨⟨a, ts₃⟩, h_a, h⟩ := bind_eq_ok.1 h
    cases h
    obtain rfl := attrName_eq_ok.1 h_a
    obtain rfl := symbol_eq_ok.1 h_point
    exact ⟨_, ⟨a, rfl, rfl⟩, (synonym_eq_ok.1 h_name).1⟩
  · cases h

theorem comparison_written {ts rest : List QueryToken} {c : Draft.Condition}
    (h : comparison ts = .ok (c, rest)) : ∃ lhs rhs ls rs, c = .compare lhs rhs ∧
      lhs.Written ls ∧ rhs.Written rs ∧ ts = ls ++ .symbol '=' :: rs ++ rest := by
  obtain ⟨⟨lhs, ts₁⟩, h_lhs, h⟩ := bind_eq_ok.1 h
  obtain ⟨ts₂, h_equal, h⟩ := bind_eq_ok.1 h
  obtain ⟨⟨rhs, ts₃⟩, h_rhs, h⟩ := bind_eq_ok.1 h
  cases h
  obtain ⟨ls, h_ls, rfl⟩ := withRef_written h_lhs
  obtain ⟨rs, h_rs, rfl⟩ := withRef_written h_rhs
  have h_eq : ts₁ = .symbol '=' :: (rs ++ rest) := symbol_eq_ok.1 h_equal
  exact ⟨lhs, rhs, ls, rs, rfl, h_ls, h_rs, by rw [h_eq]; simp⟩

/-- Only the reader of comparisons gives one. -/
theorem condition_ne_compare {kind : Section} {ts rest : List QueryToken} {c : Draft.Condition}
    (h : condition kind ts = .ok (c, rest)) (h_kind : kind ≠ .compare) :
    ∀ lhs rhs, c ≠ .compare lhs rhs := by
  rintro lhs rhs rfl
  cases kind with
  | compare => exact h_kind rfl
  | pattern =>
    obtain ⟨_, -, h⟩ := bind_eq_ok.1 h
    obtain ⟨_, -, h⟩ := bind_eq_ok.1 h
    obtain ⟨_, -, h⟩ := bind_eq_ok.1 h
    obtain ⟨_, -, h⟩ := bind_eq_ok.1 h
    obtain ⟨_, -, h⟩ := bind_eq_ok.1 h
    obtain ⟨_, -, h⟩ := bind_eq_ok.1 h
    cases h
  | suchThat =>
    simp only [condition, suchThat] at h
    split at h
    · cases h
    · split at h
      · cases h
      · obtain ⟨_, -, h⟩ := bind_eq_ok.1 h
        obtain ⟨_, -, h⟩ := bind_eq_ok.1 h
        obtain ⟨_, -, h⟩ := bind_eq_ok.1 h
        obtain ⟨_, -, h⟩ := bind_eq_ok.1 h
        obtain ⟨_, -, h⟩ := bind_eq_ok.1 h
        cases h

theorem append_negation (kind : Section) (ts : List QueryToken) :
    ts = (if (negation kind ts).1 then [.name "not"] else []) ++ (negation kind ts).2 := by
  unfold negation
  split
  · rename_i h_not
    obtain ⟨rest, rfl⟩ := frontName?_eq_some.1 h_not.1
    rfl
  · rfl

/-- The tokens of clauses are a run for each of them. -/
theorem clauses_written {fuel : Nat} {previous : Option Section} {ts : List QueryToken}
    {cs : List Draft.Clause} (h : clauses fuel previous ts = .ok cs) :
    ∃ runs : List (List QueryToken), ts = runs.flatten ∧
      List.Forall₂ Draft.Clause.Written runs cs := by
  induction fuel generalizing previous ts cs with
  | zero =>
    cases ts <;> cases h
    exact ⟨[], rfl, .nil⟩
  | succ fuel ih =>
    cases ts with
    | nil =>
      cases h
      exact ⟨[], rfl, .nil⟩
    | cons t ts =>
      obtain ⟨⟨kind, rest⟩, h_opening, h⟩ := bind_eq_ok.1 h
      obtain ⟨⟨c, rest'⟩, h_c, h⟩ := bind_eq_ok.1 h
      obtain ⟨more, h_more, h⟩ := bind_eq_ok.1 h
      cases h
      obtain ⟨runs, rfl, h_runs⟩ := ih h_more
      obtain ⟨words, h_words, h_ts⟩ : ∃ words,
          (words = QueryGrammar.opener kind ∨ words = [.name "and"]) ∧ t :: ts = words ++ rest := by
        obtain h_ts | ⟨-, h_ts⟩ := opening_eq_ok h_opening
        · exact ⟨_, .inl rfl, h_ts⟩
        · exact ⟨_, .inr rfl, h_ts⟩
      have h_sign := append_negation kind rest
      have h_c : condition kind (negation kind rest).2 = .ok (c, runs.flatten) := h_c
      by_cases h_kind : kind = .compare
      · subst h_kind
        obtain ⟨lhs, rhs, ls, rs, rfl, h_ls, h_rs, h_body⟩ := comparison_written h_c
        refine ⟨(words ++ ((if (negation .compare rest).1 then [.name "not"] else []) ++
          (ls ++ .symbol '=' :: rs))) :: runs, ?_, .cons ?_ h_runs⟩
        · rw [h_body] at h_sign
          rw [h_ts, List.flatten_cons, List.append_assoc, List.append_assoc, ← h_sign]
        · rintro _ _ ⟨⟩
          refine ⟨ls, rs, h_ls, h_rs, ?_⟩
          rcases h_words with rfl | rfl
          · exact ⟨"with", .inl rfl, rfl⟩
          · exact ⟨"and", .inr rfl, rfl⟩
      · -- Whatever the other readers take is the run of their clause.
        obtain ⟨us, -, h_body⟩ := condition_sound kind _ _ _ h_c
        refine ⟨(words ++ ((if (negation kind rest).1 then [.name "not"] else []) ++ us)) :: runs,
          ?_, .cons ?_ h_runs⟩
        · rw [h_body] at h_sign
          rw [h_ts, List.flatten_cons, List.append_assoc, List.append_assoc, ← h_sign]
        · intro lhs rhs h_eq
          exact (condition_ne_compare h_c h_kind lhs rhs h_eq).elim

end QueryReader

theorem Draft.written_of_ofTokens {ts : List QueryToken} {d : Draft}
    (h : Draft.ofTokens ts = .ok d) :
    ∃ (front : List QueryToken) (runs : List (List QueryToken)), ts = front ++ runs.flatten ∧
      List.Forall₂ Draft.Clause.Written runs d.clauses := by
  obtain ⟨⟨ds, rest⟩, h_ds, h⟩ := bind_eq_ok.1 h
  simp only at h
  split at h
  · rename_i h_select
    obtain ⟨⟨result, rest'⟩, h_result, h⟩ := bind_eq_ok.1 h
    obtain ⟨cs, h_cs, h⟩ := bind_eq_ok.1 h
    cases h
    obtain ⟨us, -, rfl⟩ := QueryReader.declarations_sound _ _ _ _ h_ds
    obtain ⟨more, rfl⟩ := QueryReader.frontName?_eq_some.1 h_select
    obtain ⟨vs, -, h_more⟩ := QueryReader.selection_sound _ _ _ _ h_result
    obtain ⟨runs, rfl, h_runs⟩ := QueryReader.clauses_written h_cs
    refine ⟨us ++ .name "Select" :: vs, runs, ?_, h_runs⟩
    rw [show more = _ from h_more]
    simp
  · cases h

/-! ## Resolving -/

/-- What relates members of two lists relates the first to the results of mapping the second. -/
theorem forall₂_of_mapM {ε α β γ : Type} {R : α → β → Prop} {S : α → γ → Prop} {f : β → Except ε γ}
    (h_step : ∀ a b c, R a b → f b = .ok c → S a c) {as : List α} {bs : List β} {cs : List γ}
    (h_bs : List.Forall₂ R as bs) (h : bs.mapM f = .ok cs) : List.Forall₂ S as cs := by
  induction h_bs generalizing cs with
  | nil =>
    rw [List.mapM_nil] at h
    cases h
    exact .nil
  | cons h_first _ ih =>
    rw [List.mapM_cons] at h
    obtain ⟨c, h_c, h⟩ := bind_eq_ok.1 h
    obtain ⟨more, h_more, h⟩ := bind_eq_ok.1 h
    cases h
    exact .cons (h_step _ _ c h_first h_c) (ih h_more)

namespace Scope

variable {scope : Scope}

theorem name_of_resolve {name : String} {s : Synonym} (h : scope.resolve name = .ok s) :
    s.name = name := by
  unfold resolve at h
  split at h
  · rename_i t h_find
    cases h
    have h_name := List.find?_some h_find
    exact beq_iff_eq.1 h_name
  · cases h

theorem withRef_written {d : Draft.WithRef} {r : WithRef} {ts : List QueryToken}
    (h : scope.withRef d = .ok r) (h_ts : d.Written ts) : r.Written scope ts := by
  cases d with
  | ident | integer =>
    cases h
    exact h_ts
  | attr e =>
    obtain ⟨s, a, ref, h_s, h_a, h_ref, rfl⟩ := withRef_attr_eq_ok.1 h
    obtain ⟨a', h_a', rfl⟩ := h_ts
    obtain rfl : a' = a := Option.some.inj (h_a'.symm.trans h_a)
    unfold attrOf at h_ref
    split at h_ref
    · rename_i h_supports
      cases h_ref
      exact ⟨mem_of_resolve h_s, h_supports, by rw [name_of_resolve h_s]⟩
    · cases h_ref

theorem suchThat_ne_compare {lhs rhs : Ref} {word : String} {c : Condition}
    (h : suchThat lhs rhs word = .ok c) : ∀ l r, c ≠ .compare l r := by
  rintro l r rfl
  obtain ⟨name, -, h⟩ := suchThat_eq_ok.1 h
  cases name <;>
  · obtain ⟨_, -, h⟩ := bind_eq_ok.1 h
    obtain ⟨_, -, h⟩ := bind_eq_ok.1 h
    cases h

theorem clause_written {d : Draft.Clause} {c : Clause} {ts : List QueryToken}
    (h : scope.clause d = .ok c) (h_ts : d.Written ts) : c.Written scope ts := by
  obtain ⟨condition, h_condition, h⟩ := bind_eq_ok.1 h
  cases h
  rintro lhs rhs rfl
  cases h_d : d.condition with
  | suchThat r l r' =>
    rw [h_d] at h_condition
    obtain ⟨_, -, h_condition⟩ := bind_eq_ok.1 h_condition
    obtain ⟨_, -, h_condition⟩ := bind_eq_ok.1 h_condition
    exact (suchThat_ne_compare h_condition lhs rhs rfl).elim
  | pattern name var expr form =>
    rw [h_d] at h_condition
    obtain ⟨s, -, h_condition⟩ := bind_eq_ok.1 h_condition
    split at h_condition
    · obtain ⟨_, -, h_condition⟩ := bind_eq_ok.1 h_condition
      obtain ⟨_, -, h_condition⟩ := bind_eq_ok.1 h_condition
      cases h_condition
    · cases h_condition
  | compare l r =>
    rw [h_d] at h_condition
    obtain ⟨_, h_l, h_condition⟩ := bind_eq_ok.1 h_condition
    obtain ⟨_, h_r, h_condition⟩ := bind_eq_ok.1 h_condition
    split at h_condition
    · cases h_condition
      obtain ⟨ls, rs, h_ls, h_rs, h_comparison⟩ := h_ts l r h_d
      exact ⟨ls, rs, withRef_written h_l h_ls, withRef_written h_r h_rs, h_comparison⟩
    · cases h_condition

end Scope

/-- A query that was read has a run of tokens for each of its clauses. -/
theorem Query.written_of_read {text : String} {q : Query} (h : Query.read text = .ok q) :
    ∃ (front : List QueryToken) (runs : List (List QueryToken)),
      QueryToken.scan text = .ok (front ++ runs.flatten) ∧
        List.Forall₂ (Clause.Written q.declarations) runs q.clauses := by
  obtain ⟨draft, h_draft, h_query⟩ := Query.exists_draft_of_read h
  obtain ⟨ts, h_ts, h_draft⟩ := bind_eq_ok.1 h_draft
  obtain ⟨front, runs, rfl, h_runs⟩ := Draft.written_of_ofTokens h_draft
  obtain ⟨scope, -, h_query⟩ := bind_eq_ok.1 h_query
  obtain ⟨selection, -, h_query⟩ := bind_eq_ok.1 h_query
  obtain ⟨cs, h_cs, h_query⟩ := bind_eq_ok.1 h_query
  cases h_query
  refine ⟨front, runs, h_ts, forall₂_of_mapM ?_ h_runs h_cs⟩
  intro ts d c h_d h_c
  exact Scope.clause_written h_c h_d

end ProgramQuery
