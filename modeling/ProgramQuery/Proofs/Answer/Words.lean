/-
  ProgramQuery.Proofs.Answer.Words

  Answers about programs are made of words.

  A program that was read has names for procedures and variables, numerals for
  constants and numbers for statements, and these are all the values that synonyms
  and attributes can have.  No word holds a space, so the fields of an answer are
  the words that it was put together from.
-/

import ProgramQuery.Answer.Order
import ProgramQuery.Proofs.Answer.Complete
import ProgramQuery.Proofs.Facts.Integrity
import ProgramQuery.Proofs.Program.Lexical

namespace ProgramQuery

open Facts

/-! ## Programs -/

/-- What a canonical expression mentions are names and numerals. -/
theorem Expr.words_of_isCanonical {e : Expr} (h : e.isCanonical = true) :
    (∀ var, e.Mentions var → Text.isNameString var = true) ∧
      ∀ digits, e.MentionsConstant digits → Text.isNumeral digits = true := by
  induction e with
  | var name => exact ⟨fun _ h_eq => h_eq ▸ h, fun _ => False.elim⟩
  | const digits => exact ⟨fun _ => False.elim, fun _ h_eq => h_eq ▸ h⟩
  | binary op lhs rhs ih_lhs ih_rhs =>
    rw [isCanonical, Bool.and_eq_true] at h
    have ih_lhs := ih_lhs h.1
    have ih_rhs := ih_rhs h.2
    exact ⟨fun var h_var => h_var.elim (ih_lhs.1 var) (ih_rhs.1 var),
      fun digits h_digits => h_digits.elim (ih_lhs.2 digits) (ih_rhs.2 digits)⟩

/-- What a canonical condition mentions are names and numerals. -/
theorem Cond.words_of_isCanonical {c : Cond} (h : c.isCanonical = true) :
    (∀ var, c.Mentions var → Text.isNameString var = true) ∧
      ∀ digits, c.MentionsConstant digits → Text.isNumeral digits = true := by
  induction c with
  | rel op lhs rhs =>
    rw [isCanonical, Bool.and_eq_true] at h
    have h_lhs := Expr.words_of_isCanonical h.1
    have h_rhs := Expr.words_of_isCanonical h.2
    exact ⟨fun var h_var => h_var.elim (h_lhs.1 var) (h_rhs.1 var),
      fun digits h_digits => h_digits.elim (h_lhs.2 digits) (h_rhs.2 digits)⟩
  | not arg ih => exact ih h
  | and lhs rhs ih_lhs ih_rhs | or lhs rhs ih_lhs ih_rhs =>
    rw [isCanonical, Bool.and_eq_true] at h
    have ih_lhs := ih_lhs h.1
    have ih_rhs := ih_rhs h.2
    exact ⟨fun var h_var => h_var.elim (ih_lhs.1 var) (ih_rhs.1 var),
      fun digits h_digits => h_digits.elim (ih_lhs.2 digits) (ih_rhs.2 digits)⟩

/-- What a canonical statement writes and mentions are names and numerals. -/
theorem Stmt.words_of_isCanonical {s : Stmt StatementId} (h : s.isCanonical = true) :
    (∀ var, s.Writes var ∨ s.Mentions var → Text.isNameString var = true) ∧
      ∀ digits, s.MentionsConstant digits → Text.isNumeral digits = true := by
  cases s with
  | simple tag action =>
    cases action with
    | read name =>
      exact ⟨fun _ h_var => h_var.elim (fun h_eq => h_eq ▸ h) False.elim, fun _ => False.elim⟩
    | print name =>
      exact ⟨fun _ h_var => h_var.elim False.elim (fun h_eq => h_eq ▸ h), fun _ => False.elim⟩
    | call name => exact ⟨fun _ h_var => h_var.elim False.elim False.elim, fun _ => False.elim⟩
    | assign name e =>
      obtain ⟨h_name, h_e⟩ := Bool.and_eq_true_iff.1 h
      have h_words := Expr.words_of_isCanonical h_e
      exact ⟨fun var h_var => h_var.elim (fun h_eq => h_eq ▸ h_name) (h_words.1 var), h_words.2⟩
  | whileLoop tag cond body | ifElse tag cond thenBranch elseBranch =>
    have h_words := Cond.words_of_isCanonical h
    exact ⟨fun var h_var => h_words.1 var (h_var.resolve_left id), h_words.2⟩

namespace FactBase

variable {p : NumberedProgram}

/-! ## Values -/

/-- The values of synonyms are words. -/
theorem isWord_of_mem_domain (h : p.WellFormed) (h_words : p.Canonical) {s : Synonym} {v : Value}
    (h_v : v ∈ (ofProgram p).domain s) : Text.isWord v.text = true := by
  cases v with
  | number n => exact Text.isWord_of_isNumeral (Text.isNumeral_toString n)
  | name text =>
    -- The domains of statements have numbers only.
    have h_text : text ∈ (ofProgram p).vars ∨ text ∈ (ofProgram p).constants ∨
        text ∈ (ofProgram p).procedures := by
      unfold domain at h_v
      split at h_v <;> simp_all
    rcases h_text with h_var | h_constant | h_procedure
    · obtain ⟨t, ht, h_t⟩ := (mem_vars_iff h).1 h_var
      exact Text.isWord_of_isNameString
        ((Stmt.words_of_isCanonical (h_words.statements t ht)).1 text h_t)
    · obtain ⟨t, ht, h_t⟩ := (mem_constants_iff h).1 h_constant
      exact Text.isWord_of_isNumeral
        ((Stmt.words_of_isCanonical (h_words.statements t ht)).2 text h_t)
    · obtain ⟨q, hq, rfl⟩ := (mem_procedures_iff h).1 h_procedure
      exact Text.isWord_of_isNameString (h_words.procedures q hq)

theorem NamesActions.isNameString {store : PairStore StatementNumber String}
    {action : String → Action} {type : StatementType} (h_store : NamesActions p store action type)
    (h_words : p.Canonical) (h_action : ∀ name, (action name).isCanonical = Text.isNameString name)
    {n : StatementNumber} {name : String} (h_name : store.contains n name = true) :
    Text.isNameString name = true := by
  obtain ⟨s, hs, -, tag, rfl⟩ := (h_store.contains n name).1 h_name
  rw [← h_action]
  exact h_words.statements _ hs

/-- The attributes of values are words. -/
theorem isWord_of_attributeIs (h : p.WellFormed) (h_words : p.Canonical) {a : AttributeRef}
    {v : Value} (h_v : v ∈ (ofProgram p).domain a.synonym) {text : String}
    (h_text : (ofProgram p).AttributeIs a v text) : Text.isWord text = true := by
  unfold AttributeIs at h_text
  split at h_text
  · obtain ⟨n, -, h_n⟩ := h_text
    exact Text.isWord_of_isNameString
      ((namesActions_callees h).isNameString h_words (fun _ => rfl) h_n)
  · obtain ⟨n, -, h_n⟩ := h_text
    exact Text.isWord_of_isNameString
      ((namesActions_readVars h).isNameString h_words (fun _ => rfl) h_n)
  · obtain ⟨n, -, h_n⟩ := h_text
    exact Text.isWord_of_isNameString
      ((namesActions_printVars h).isNameString h_words (fun _ => rfl) h_n)
  · rw [← h_text]
    exact isWord_of_mem_domain h h_words h_v

theorem isWord_of_elementIs (h : p.WellFormed) (h_words : p.Canonical) {ν : Valuation}
    {e : Element} (h_e : ν e.base ∈ (ofProgram p).domain e.base) {text : String}
    (h_text : (ofProgram p).ElementIs ν e text) : Text.isWord text = true := by
  cases e with
  | synonym s =>
    rw [← show (ν s).text = text from h_text]
    exact isWord_of_mem_domain h h_words h_e
  | attr a => exact isWord_of_attributeIs h h_words h_e h_text

theorem isWord_of_elementsAre (h : p.WellFormed) (h_words : p.Canonical) {ν : Valuation}
    {elements : List Element} {texts : List String}
    (h_domain : ∀ e ∈ elements, ν e.base ∈ (ofProgram p).domain e.base)
    (h_texts : List.Forall₂ ((ofProgram p).ElementIs ν) elements texts) :
    ∀ text ∈ texts, Text.isWord text = true := by
  induction h_texts with
  | nil => simp
  | cons h_text _ ih =>
    obtain ⟨h_e, h_rest⟩ := List.forall_mem_cons.1 h_domain
    exact List.forall_mem_cons.2 ⟨isWord_of_elementIs h h_words h_e h_text, ih h_rest⟩

/-! ## Fields -/

/-- Words that are put together with spaces are the fields of the answer. -/
theorem fields_intercalate {texts : List String} (h_some : texts ≠ [])
    (h : ∀ text ∈ texts, Text.isWord text = true) :
    Answer.fields (String.intercalate " " texts) = texts.map String.toList := by
  unfold Answer.fields
  rw [String.toList_intercalate]
  refine Text.pieces_intercalate (by decide) (by simpa using h_some) ?_
  intro part h_part c hc
  obtain ⟨text, h_text, rfl⟩ := List.mem_map.1 h_part
  have h_blank := Text.not_isBlank_of_isWord (h text h_text) hc
  rw [beq_eq_false_iff_ne]
  rintro rfl
  cases h_blank

/-- The fields of an answer are words. -/
theorem isWord_of_mem_fields (h : p.WellFormed) (h_words : p.Canonical) {ν : Valuation}
    {elements : List Element} (h_some : elements ≠ [])
    (h_domain : ∀ e ∈ elements, ν e.base ∈ (ofProgram p).domain e.base) {answer : String}
    (h_answer : (ofProgram p).Renders ν elements answer) :
    ∀ field ∈ Answer.fields answer, Text.isWord (String.ofList field) = true := by
  obtain ⟨texts, h_texts, rfl⟩ := h_answer
  have h_all := isWord_of_elementsAre h h_words h_domain h_texts
  have h_nonempty : texts ≠ [] := by
    rintro rfl
    exact h_some (List.forall₂_nil_right_iff.1 h_texts)
  rw [fields_intercalate h_nonempty h_all]
  intro field h_field
  obtain ⟨text, h_text, rfl⟩ := List.mem_map.1 h_field
  rw [String.ofList_toList]
  exact h_all text h_text

/-! ## Answers -/

/-- The answers to a query for tuples are those of the solutions, sorted. -/
theorem Answered.exists_sorted {b : FactBase} (h : b.Regular) {q : Query} (h_typed : q.Typed)
    {answers : List String} (h_answered : b.Answered q answers) {elements : List Element}
    (h_tuple : q.selection = .tuple elements) :
    ∃ found : Std.ExtTreeSet String, answers = Answer.sort found.toList ∧
      ∀ answer, answer ∈ found ↔ ∃ ν, b.Solves q ν ∧ b.Renders ν elements answer := by
  obtain ⟨rows, h_rows, h_eq⟩ := h_answered.tuple elements h_tuple
  refine ⟨_, h_eq, fun answer => ?_⟩
  have h_text : ∀ ν, b.Solves q ν →
      (b.rowText q.selected elements (q.selected.map ν) = some answer ↔
        b.Renders ν elements answer) := fun ν h_ν =>
    rowText_eq_some_iff h (fun _ => base_mem_selected h_tuple) fun s hs => h_ν.1 s (.inl hs)
  rw [Std.ExtTreeSet.mem_ofList, List.contains_iff_mem, List.mem_filterMap]
  simp only [h_rows, satisfies_iff_solves h h_typed]
  constructor
  · rintro ⟨_, ⟨ν, h_ν, rfl⟩, h_row⟩
    exact ⟨ν, h_ν, (h_text ν h_ν).1 h_row⟩
  · rintro ⟨ν, h_ν, h_renders⟩
    exact ⟨_, ⟨ν, h_ν, rfl⟩, (h_text ν h_ν).2 h_renders⟩

/-- The fields of all answers about a program that was read are words. -/
theorem Answered.isWord_of_mem {source : String} {p : Program}
    (h_program : Program.read source = .ok p) {q : Query} (h_typed : q.Typed)
    {answers : List String} (h_answered : (ofProgram p.numbered).Answered q answers)
    {elements : List Element} (h_tuple : q.selection = .tuple elements) :
    ∀ answer ∈ answers, ∀ field ∈ Answer.fields answer,
      Text.isWord (String.ofList field) = true := by
  have h_wf := Program.wellFormed_of_read h_program
  obtain ⟨found, rfl, h_found⟩ := h_answered.exists_sorted (regular_ofProgram h_wf) h_typed h_tuple
  intro answer h_answer
  rw [mem_sort, Std.ExtTreeSet.mem_toList, h_found] at h_answer
  obtain ⟨ν, h_ν, h_renders⟩ := h_answer
  exact isWord_of_mem_fields h_wf (Program.canonical_of_read h_program)
    (h_typed.elements elements h_tuple)
    (fun e he => h_ν.1 e.base (.inl (base_mem_selected h_tuple he))) h_renders

end FactBase

end ProgramQuery
