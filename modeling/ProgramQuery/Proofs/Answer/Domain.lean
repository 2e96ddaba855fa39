/-
  ProgramQuery.Proofs.Answer.Domain

  The two ways to ask whether a synonym can have a value.

  `domain` lists the values and `inDomain` tests one.  For statements of a type the
  list is read from the numbers under this type, the test from the type of the
  number.  A base keeps both up to date with every write (`TypesListed`), and they
  agree exactly as long as no number is registered under two types.
-/

import ProgramQuery.Answer.Domain
import ProgramQuery.Proofs.Facts.Base

namespace ProgramQuery

open Facts

namespace FactBase

variable {b : FactBase}

/-! ## Types -/

/-- A number is listed under the type it has, and what is listed has some type. -/
structure TypesListed (b : FactBase) : Prop where
  listed : ∀ n t, b.typeOf? n = some t → n ∈ b.ofType t
  typed : ∀ n t, n ∈ b.ofType t → ∃ u, b.typeOf? n = some u

theorem mem_ofType_iff_knows {n : StatementNumber} {t : StatementType} :
    n ∈ b.ofType t ↔ b.Knows (.statement n t) :=
  Std.ExtTreeSet.mem_toList

theorem typesListed_empty : ({} : FactBase).TypesListed where
  listed n t h_t := by simp [typeOf?] at h_t
  typed n t h_n := absurd (mem_ofType_iff_knows.1 h_n) (not_knows_empty _)

theorem TypesListed.add (h : b.TypesListed) (f : Fact) : (b.add f).TypesListed where
  listed n t h_t := by
    rw [mem_ofType_iff_knows, knows_add]
    rw [typeOf?_add, Option.or_eq_some_iff, registered?_eq_some] at h_t
    rcases h_t with rfl | ⟨-, h_before⟩
    · exact .inl rfl
    · exact .inr (mem_ofType_iff_knows.1 (h.listed n t h_before))
  typed n t h_n := by
    rw [mem_ofType_iff_knows, knows_add] at h_n
    rw [typeOf?_add]
    cases h_f : registered? n f with
    | some u => exact ⟨u, rfl⟩
    | none =>
      -- The fact is about something else, so the number was listed before.
      rcases h_n with h_bare | h_before
      · have h_same : f = .statement n t := by cases f <;> simp_all [bare]
        rw [registered?_eq_some.2 h_same] at h_f
        cases h_f
      · exact h.typed n t (mem_ofType_iff_knows.2 h_before)

theorem TypesListed.finalize (h : b.TypesListed) : b.finalize.TypesListed :=
  ⟨h.listed, h.typed⟩

theorem TypesListed.writeAll (h : b.TypesListed) (ws : List Write) :
    (b.writeAll ws).TypesListed :=
  writeAll_preserves (fun _ f h => h.add f) (fun _ h => h.finalize) h ws

/-- No number is registered under two types. -/
def OneTypeEach (ws : List Write) : Prop :=
  ∀ n t u, .add (.statement n t) ∈ ws → .add (.statement n u) ∈ ws → t = u

theorem mem_ofType_writeAll {ws : List Write} {n : StatementNumber} {t : StatementType} :
    n ∈ (({} : FactBase).writeAll ws).ofType t ↔ .add (.statement n t) ∈ ws := by
  have h_bare : ∀ f, bare (.statement n t) = bare f ↔ f = .statement n t := by
    intro f
    cases f <;> simp [bare, @eq_comm _ n, @eq_comm _ t]
  rw [mem_ofType_iff_knows, knows_writeAll]
  simp only [not_knows_empty, or_false, h_bare, exists_eq_right]

/-- A number has the type under which it is listed. -/
theorem typeOf?_writeAll {ws : List Write} (h : OneTypeEach ws) {n : StatementNumber}
    {t : StatementType} : (({} : FactBase).writeAll ws).typeOf? n = some t ↔
      n ∈ (({} : FactBase).writeAll ws).ofType t := by
  have h_types := typesListed_empty.writeAll ws
  refine ⟨h_types.listed n t, fun h_t => ?_⟩
  obtain ⟨u, h_u⟩ := h_types.typed n t h_t
  have h_same : t = u :=
    h n t u (mem_ofType_writeAll.1 h_t) (mem_ofType_writeAll.1 (h_types.listed n u h_u))
  rw [h_u, h_same]

/-! ## Values -/

/-- Where types are unique, the test for a value finds what the list of values has. -/
theorem inDomain_iff_of_types (h : ∀ n t, b.typeOf? n = some t ↔ n ∈ b.ofType t) {s : Synonym}
    {v : Value} : b.inDomain s v = true ↔ v ∈ b.domain s := by
  unfold inDomain domain
  cases v with
  | number n => cases s.entity <;> simp [isStatement, Entity.statementType?, h]
  | name text => cases s.entity <;> simp

theorem inDomain_writeAll {ws : List Write} (h : OneTypeEach ws) (s : Synonym) (v : Value) :
    (({} : FactBase).writeAll ws).inDomain s v = true ↔
      v ∈ (({} : FactBase).writeAll ws).domain s :=
  inDomain_iff_of_types fun _ _ => typeOf?_writeAll h

/-- The values of a synonym are listed once each. -/
theorem nodup_domain (b : FactBase) (s : Synonym) : (b.domain s).Nodup := by
  have h_numbers : ∀ numbers : NumberSet, (numbers.toList.map Value.number).Nodup := fun numbers =>
    (nodup_toList numbers).map fun _ _ => Value.number.inj
  have h_names : ∀ names : NameSet, (names.toList.map Value.name).Nodup := fun names =>
    (nodup_toList names).map fun _ _ => Value.name.inj
  unfold domain
  cases s.entity with
  | «variable» => exact h_names b.vars
  | constant => exact h_names b.constants
  | procedure => exact h_names b.procedures
  | _ => exact h_numbers _

/-- Every type of statements has a kind of synonyms for itself, which range over its numbers and
    test for them by type. -/
theorem exists_synonym_of_type (t : StatementType) : ∃ s : Synonym, ∀ (b : FactBase) n,
    (.number n ∈ b.domain s ↔ n ∈ b.ofType t) ∧
      (b.inDomain s (.number n) = true ↔ b.typeOf? n = some t) := by
  have h_kind : ∀ e : Entity, e.statementType? = some t → ∃ s : Synonym, ∀ (b : FactBase) n,
      (.number n ∈ b.domain s ↔ n ∈ b.ofType t) ∧
        (b.inDomain s (.number n) = true ↔ b.typeOf? n = some t) := by
    intro e h_e
    refine ⟨⟨"s", e⟩, fun b n => ?_⟩
    cases e <;> simp_all [domain, inDomain, Entity.statementType?]
  cases t with
  | read => exact h_kind .read rfl
  | print => exact h_kind .print rfl
  | call => exact h_kind .call rfl
  | whileLoop => exact h_kind .whileLoop rfl
  | ifElse => exact h_kind .ifElse rfl
  | assign => exact h_kind .assign rfl

/-- After any writes a synonym has its values listed once each, and the test for a value agrees
    with the list for all synonyms and values exactly if no number was registered under two
    types. -/
theorem domains_agree_iff_one_type_each (ws : List Write) :
    (∀ s, ((({} : FactBase).writeAll ws).domain s).Nodup) ∧
      ((∀ s v, (({} : FactBase).writeAll ws).inDomain s v = true ↔
        v ∈ (({} : FactBase).writeAll ws).domain s) ↔ OneTypeEach ws) := by
  refine ⟨nodup_domain _, fun h_agree n t u h_t h_u => ?_, fun h => inDomain_writeAll h⟩
  -- A number is listed under each of its types, so the test finds it to have each of them.
  have h_type : ∀ t, .add (.statement n t) ∈ ws →
      (({} : FactBase).writeAll ws).typeOf? n = some t := by
    intro t h_t
    obtain ⟨s, h_s⟩ := exists_synonym_of_type t
    have h_listed := (h_s _ n).1.2 (mem_ofType_writeAll.2 h_t)
    exact (h_s _ n).2.1 ((h_agree s _).2 h_listed)
  exact Option.some.inj ((h_type t h_t).symm.trans (h_type u h_u))

/-- A statement that is registered twice under one type, and one that shares its number with a
    constant. -/
theorem domains_agree_after_second_registration :
    let ws : List Write := [.add (.statement 1 .read), .finalize, .add (.statement 2 .assign),
      .add (.constant "2"), .add (.statement 1 .read)]
    let b := ({} : FactBase).writeAll ws
    OneTypeEach ws ∧ b.domain ⟨"s", .stmt⟩ = [.number 1, .number 2] ∧
      (∀ v, b.inDomain ⟨"r", .read⟩ v = true ↔ v = .number 1) ∧
      ∀ v, b.inDomain ⟨"c", .constant⟩ v = true ↔ v = .name "2" := by
  intro ws b
  have h_types : OneTypeEach ws := by
    intro n t u h_t h_u
    simp only [ws, List.mem_cons, Write.add.injEq, Fact.statement.injEq, reduceCtorEq,
      List.not_mem_nil, or_false, false_or] at h_t h_u
    grind
  have h_agree := (domains_agree_iff_one_type_each ws).2.2 h_types
  have h_read : b.domain ⟨"r", .read⟩ = [.number 1] := by decide +kernel
  have h_constant : b.domain ⟨"c", .constant⟩ = [.name "2"] := by decide +kernel
  refine ⟨h_types, by decide +kernel, fun v => ?_, fun v => ?_⟩
  · rw [h_agree, h_read, List.mem_singleton]
  · rw [h_agree, h_constant, List.mem_singleton]

end FactBase

end ProgramQuery
