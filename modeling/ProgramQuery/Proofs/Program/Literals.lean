/-
  ProgramQuery.Proofs.Program.Literals

  The numbers that are written in a program.

  A literal is a run of digits that no letter or digit touches from the left and no
  digit from the right (`LiteralIn`).  A text that can be scanned has an integer
  token for each of its literals and no other, a derivation keeps the tokens as
  constants of its trees, and laying trees out does not change them.  So a program
  mentions exactly the canonical forms of the literals of its text.
-/

import ProgramQuery.Proofs.Facts.Integrity
import ProgramQuery.Proofs.Program.Forest
import ProgramQuery.Proofs.Program.Recognise
import ProgramQuery.Proofs.Program.Scan

namespace ProgramQuery

/-! ## Literals of a text -/

/-- Digits that stand in a text as a number. -/
def LiteralIn (text digits : List Char) : Prop :=
  ∃ before after, text = before ++ (digits ++ after) ∧
    digits ≠ [] ∧ digits.all Char.isDigit = true ∧
    (∀ c ∈ before.getLast?, c.isAlphanum = false) ∧ ∀ c ∈ after.head?, c.isDigit = false

theorem LiteralIn.all_isDigit {text digits : List Char} (h : LiteralIn text digits) :
    digits.all Char.isDigit = true := by
  obtain ⟨-, -, -, -, h_all, -⟩ := h
  exact h_all

/-- A text without digits has no literal. -/
theorem not_literalIn_of_no_digit {text digits : List Char} (h : ∀ c ∈ text, c.isDigit = false) :
    ¬ LiteralIn text digits := by
  rintro ⟨before, after, rfl, h_some, h_all, -, -⟩
  obtain ⟨d, rest, rfl⟩ := List.exists_cons_of_ne_nil h_some
  have h_digit : d.isDigit = true := List.all_eq_true.1 h_all d (List.mem_cons_self ..)
  rw [h d (by simp)] at h_digit
  cases h_digit

/-- A name has no literal. -/
theorem not_literalIn_name {c : Char} {text digits : List Char} (h_c : c.isAlpha = true)
    (h_all : (c :: text).all Char.isAlphanum = true) : ¬ LiteralIn (c :: text) digits := by
  rintro ⟨before, after, h_eq, h_some, h_digits, h_before, -⟩
  obtain ⟨d, rest, rfl⟩ := List.exists_cons_of_ne_nil h_some
  have h_digit : d.isDigit = true := List.all_eq_true.1 h_digits d (List.mem_cons_self ..)
  cases h_last : before.getLast? with
  | none =>
    -- The first character of a name is a letter.
    rw [List.getLast?_eq_none_iff.1 h_last] at h_eq
    obtain rfl : c = d := by simpa using congrArg List.head? h_eq
    rw [Text.not_isDigit_of_isAlpha h_c] at h_digit
    cases h_digit
  | some e =>
    have h_mem : e ∈ c :: text := h_eq ▸ List.mem_append_left _ (List.mem_of_getLast? h_last)
    have h_e := List.all_eq_true.1 h_all e h_mem
    rw [h_before e h_last] at h_e
    cases h_e

/-- Digits alone are a literal, and none is inside them. -/
theorem literalIn_digits {text digits : List Char} (h_some : text ≠ [])
    (h_all : text.all Char.isDigit = true) : LiteralIn text digits ↔ digits = text := by
  constructor
  · rintro ⟨before, after, rfl, -, -, h_before, h_after⟩
    have h_digit := List.all_eq_true.1 h_all
    have h_nil : before = [] := by
      refine List.getLast?_eq_none_iff.1 (Option.eq_none_iff_forall_not_mem.2 fun c hc => ?_)
      have h_mem := List.mem_append_left (digits ++ after) (List.mem_of_getLast? hc)
      have h_c := isAlphanum_of_isDigit (h_digit c h_mem)
      rw [h_before c hc] at h_c
      cases h_c
    have h_end : after = [] := by
      refine List.head?_eq_none_iff.1 (Option.eq_none_iff_forall_not_mem.2 fun c hc => ?_)
      have h_mem := List.mem_append_right digits (List.mem_of_head? hc)
      have h_c := h_digit c (List.mem_append_right before h_mem)
      rw [h_after c hc] at h_c
      cases h_c
    rw [h_nil, h_end, List.nil_append, List.append_nil]
  · rintro rfl
    exact ⟨[], [], by simp, h_some, h_all, by simp, by simp⟩

/-- A letter or digit does not stand on both sides of the place between two texts. -/
def Apart (text rest : List Char) : Prop :=
  (∀ c ∈ text.getLast?, c.isAlphanum = false) ∨ EndsWord rest

theorem Apart.not_digits {text rest : List Char} (h : Apart text rest) {c d : Char}
    (h_c : text.getLast? = some c) (h_d : rest.head? = some d) (h_c_digit : c.isDigit = true)
    (h_d_digit : d.isDigit = true) : False := by
  rcases h with h | h
  · exact Bool.false_ne_true ((h c h_c).symm.trans (isAlphanum_of_isDigit h_c_digit))
  · exact Bool.false_ne_true ((h d h_d).symm.trans (isAlphanum_of_isDigit h_d_digit))

/-- A literal of two texts that are apart is one of the first or one of the second. -/
theorem LiteralIn.of_append {text rest digits : List Char} (h_apart : Apart text rest)
    (h : LiteralIn (text ++ rest) digits) : LiteralIn text digits ∨ LiteralIn rest digits := by
  obtain ⟨before, after, h_eq, h_some, h_all, h_before, h_after⟩ := h
  rcases List.append_eq_append_iff.1 h_eq with ⟨gap, rfl, rfl⟩ | ⟨inner, rfl, h_inner⟩
  · -- It starts behind the first text.
    refine .inr ⟨gap, after, rfl, h_some, h_all, fun c hc => h_before c ?_, h_after⟩
    rw [List.getLast?_append, hc]
    rfl
  rcases List.append_eq_append_iff.1 h_inner with ⟨gap, rfl, rfl⟩ | ⟨outer, rfl, rfl⟩
  · -- It ends inside the first text.
    refine .inl ⟨before, gap, rfl, h_some, h_all, h_before, fun c hc => h_after c ?_⟩
    rw [List.head?_append, hc]
    rfl
  · -- It is divided between them, but then one of the parts is empty.
    rcases List.eq_nil_or_concat' inner with rfl | ⟨front, c, rfl⟩
    · exact .inr ⟨[], after, rfl, h_some, h_all, by simp, h_after⟩
    cases outer with
    | nil =>
      rw [List.append_nil] at h_some h_all ⊢
      exact .inl ⟨before, [], by simp, h_some, h_all, h_before, by simp⟩
    | cons d outer =>
      simp only [List.all_append, List.all_cons, Bool.and_eq_true] at h_all
      exact (h_apart.not_digits (by simp) (by simp) h_all.1.2.1 h_all.2.1).elim

theorem LiteralIn.append_right {text rest digits : List Char} (h_apart : Apart text rest)
    (h : LiteralIn text digits) : LiteralIn (text ++ rest) digits := by
  obtain ⟨before, after, rfl, h_some, h_all, h_before, h_after⟩ := h
  refine ⟨before, after ++ rest, by simp, h_some, h_all, h_before, fun c hc => ?_⟩
  cases after with
  | cons d after => exact h_after c hc
  | nil =>
    -- The text ends with a digit, so the next one does not start with one.
    obtain ⟨front, d, rfl⟩ := (List.eq_nil_or_concat' digits).resolve_left h_some
    simp only [List.all_append, List.all_cons, Bool.and_eq_true] at h_all
    refine Bool.eq_false_iff.2 fun h_c => ?_
    exact h_apart.not_digits (by simp) hc h_all.2.1 h_c

theorem LiteralIn.append_left {text rest digits : List Char} (h_apart : Apart text rest)
    (h : LiteralIn rest digits) : LiteralIn (text ++ rest) digits := by
  obtain ⟨before, after, rfl, h_some, h_all, h_before, h_after⟩ := h
  refine ⟨text ++ before, after, by simp, h_some, h_all, fun c hc => ?_, h_after⟩
  rcases List.eq_nil_or_concat' before with rfl | ⟨front, d, rfl⟩
  · -- The second text starts with a digit, so the first one does not end with a word.
    obtain ⟨d, outer, rfl⟩ := List.exists_cons_of_ne_nil h_some
    rw [List.append_nil] at hc
    rcases h_apart with h | h
    · exact h c hc
    · have h_d : d.isDigit = true := List.all_eq_true.1 h_all d (List.mem_cons_self ..)
      have h_word := isAlphanum_of_isDigit h_d
      rw [h d rfl] at h_word
      cases h_word
  · exact h_before c (by simpa using hc)

theorem literalIn_append {text rest digits : List Char} (h_apart : Apart text rest) :
    LiteralIn (text ++ rest) digits ↔ LiteralIn text digits ∨ LiteralIn rest digits :=
  ⟨LiteralIn.of_append h_apart, fun h => h.elim (·.append_right h_apart) (·.append_left h_apart)⟩

/-! ## Literals and tokens -/

/-- The tokens have an integer with these digits. -/
def HasInteger (digits : String) (ts : List Located) : Prop :=
  ∃ t ∈ ts, t.token = .integer digits

@[simp] theorem hasInteger_nil {digits : String} : ¬ HasInteger digits [] := by
  simp [HasInteger]

@[simp] theorem hasInteger_cons {digits : String} {t : Located} {ts : List Located} :
    HasInteger digits (t :: ts) ↔ t.token = .integer digits ∨ HasInteger digits ts := by
  simp [HasInteger]

@[simp] theorem hasInteger_append {digits : String} {ts us : List Located} :
    HasInteger digits (ts ++ us) ↔ HasInteger digits ts ∨ HasInteger digits us := by
  simp [HasInteger, or_and_right, exists_or]

/-- Blanks are neither letters nor digits. -/
theorem not_isAlphanum_of_isBlank {c : Char} (h : Text.isBlank c = true) :
    c.isAlphanum = false := by
  refine Bool.eq_false_iff.2 fun h_word => ?_
  rw [Char.isAlphanum, Bool.or_eq_true] at h_word
  have h_not := h_word.elim Text.not_isBlank_of_isAlpha Text.not_isBlank_of_isDigit
  rw [h] at h_not
  cases h_not

theorem not_literalIn_of_no_word {text digits : List Char} (h : ∀ c ∈ text, c.isAlphanum = false) :
    ¬ LiteralIn text digits := by
  refine not_literalIn_of_no_digit fun c hc => ?_
  have h_c := h c hc
  rw [Char.isAlphanum, Bool.or_eq_false_iff] at h_c
  exact h_c.2

/-- The integer tokens of a text are the canonical forms of its literals. -/
theorem hasInteger_of_scanned {pos : Position} {cs : List Char} {stream : TokenStream}
    (h : Scanned pos cs stream) (digits : String) : HasInteger digits stream.tokens ↔
      ∃ ds, LiteralIn cs ds ∧ digits = String.ofList (Text.canonicalDigits ds) := by
  -- What has no letter and no digit adds no literal to the text behind it.
  have h_skip : ∀ text rest : List Char, (∀ c ∈ text, c.isAlphanum = false) → ∀ ds,
      (LiteralIn (text ++ rest) ds ↔ LiteralIn rest ds) := by
    intro text rest h_text ds
    rw [literalIn_append (.inl fun c hc => h_text c (List.mem_of_getLast? hc))]
    exact or_iff_right (not_literalIn_of_no_word h_text)
  induction h with
  | nil pos => simp [not_literalIn_of_no_digit]
  | @blank pos c cs stream h_blank _ ih =>
    have h_c : ∀ d ∈ [c], d.isAlphanum = false := by simpa using not_isAlphanum_of_isBlank h_blank
    have h_cons := h_skip [c] cs h_c
    simp only [List.singleton_append] at h_cons
    simp only [ih, h_cons]
  | @token pos c cs lexeme rest token stream h_blank h_token _ ih =>
    obtain ⟨-, h_eq⟩ := Token.append_of_atFront? h_token
    simp only [← h_eq, TokenStream.prepend, List.singleton_append, hasInteger_cons, ih]
    rcases Token.cases_of_atFront? h_token with
      ⟨d, word, rfl, h_d, h_all, h_ends, rfl⟩ | ⟨h_some, h_all, h_ends, rfl⟩ | ⟨s, rfl, rfl, -⟩
    · simp only [literalIn_append (.inr h_ends), not_literalIn_name h_d h_all, false_or,
        reduceCtorEq]
    · simp only [literalIn_append (.inr h_ends), literalIn_digits h_some h_all, or_and_right,
        exists_or, exists_eq_left, Token.integer.injEq]
      rw [eq_comm]
    · simp only [h_skip s.chars rest s.not_isAlphanum, reduceCtorEq, false_or]

/-! ## Tokens and trees -/

theorem ExprDerivation.hasInteger_tokens {p : Option Level} (d : ExprDerivation p)
    (digits : String) : HasInteger digits d.tokens ↔ d.expr.MentionsConstant digits := by
  induction d with
  | name | integer => simp [tokens, expr, Expr.MentionsConstant]
  | parens opening inner closing ih => simp [tokens, expr, ih]
  | single operand ih => exact ih
  | binary lhs op h_op pos rhs ih_lhs ih_rhs =>
    simp [tokens, expr, Expr.MentionsConstant, ih_lhs, ih_rhs]

theorem CondDerivation.hasInteger_tokens (d : CondDerivation) (digits : String) :
    HasInteger digits d.tokens ↔ d.cond.MentionsConstant digits := by
  induction d with
  | comparison lhs op pos rhs =>
    simp [tokens, cond, Cond.MentionsConstant, ExprDerivation.hasInteger_tokens]
  | negation bang opening arg closing ih => simp [tokens, cond, Cond.MentionsConstant, ih]
  | compound opening lhs closing connective pos opening' rhs closing' ih_lhs ih_rhs =>
    cases connective <;>
      simp [tokens, cond, Connective.join, Cond.MentionsConstant, ih_lhs, ih_rhs]

/-- Some statement of the list, or one inside it, mentions the constant. -/
def Stmt.ListMentions {α : Type} (digits : String) (ss : List (Stmt α)) : Prop :=
  ∃ t ∈ preorderList ss, t.MentionsConstant digits

namespace Stmt

variable {α : Type} {digits : String}

@[simp] theorem listMentions_nil : ¬ ListMentions digits ([] : List (Stmt α)) := by
  simp [ListMentions]

theorem listMentions_cons {s : Stmt α} {rest : List (Stmt α)} : ListMentions digits (s :: rest) ↔
    ListMentions digits [s] ∨ ListMentions digits rest := by
  simp [ListMentions, or_and_right, exists_or]

theorem listMentions_simple {tag : α} {action : Action} :
    ListMentions digits [.simple tag action] ↔ (simple tag action).MentionsConstant digits := by
  simp [ListMentions, preorder]

theorem listMentions_whileLoop {tag : α} {cond : Cond} {body : List (Stmt α)} :
    ListMentions digits [.whileLoop tag cond body] ↔
      cond.MentionsConstant digits ∨ ListMentions digits body := by
  simp [ListMentions, preorder, MentionsConstant]

theorem listMentions_ifElse {tag : α} {cond : Cond} {thenBranch elseBranch : List (Stmt α)} :
    ListMentions digits [.ifElse tag cond thenBranch elseBranch] ↔ cond.MentionsConstant digits ∨
      ListMentions digits thenBranch ∨ ListMentions digits elseBranch := by
  simp [ListMentions, preorder, MentionsConstant, or_and_right, exists_or]

/-- Laying trees out does not change what they mention. -/
theorem listMentions_place :
    (∀ (s : Stmt α) base, ListMentions digits [s.place base] ↔ ListMentions digits [s]) ∧
    (∀ (ss : List (Stmt α)) base,
      ListMentions digits (placeList base ss) ↔ ListMentions digits ss) := by
  refine induction ?_ ?_ ?_ ?_ ?_
  · intro tag action base
    simp only [place, listMentions_simple]
    cases action <;> rfl
  · intro tag cond body ih base
    simp only [place, listMentions_whileLoop, ih]
  · intro tag cond thenBranch elseBranch ih_then ih_else base
    simp only [place, listMentions_ifElse, ih_then, ih_else]
  · intro base
    simp
  · intro s rest ih_s ih_rest base
    rw [placeList_cons, listMentions_cons, listMentions_cons (s := s), ih_s, ih_rest]

end Stmt

/-- The derived statements mention the constant. -/
def StmtPart.Mentions (digits : String) : (p : StmtPart) → p.Value → Prop
  | .statement => fun s => Stmt.ListMentions digits [s]
  | .statements | .block => Stmt.ListMentions digits

/-- The integers among the tokens of a derivation are the constants of its trees. -/
theorem StmtDerivation.hasInteger_tokens {p : StmtPart} (d : StmtDerivation p) (digits : String) :
    HasInteger digits d.tokens ↔ p.Mentions digits d.value := by
  induction d with
  | assign var pos equal rhs semicolon =>
    show _ ↔ Stmt.ListMentions digits [.simple pos (.assign var rhs.expr)]
    rw [Stmt.listMentions_simple]
    simp [tokens, Stmt.MentionsConstant, ExprDerivation.hasInteger_tokens]
  | named kind pos name namePos semicolon =>
    show _ ↔ Stmt.ListMentions digits [.simple pos (kind.action name)]
    rw [Stmt.listMentions_simple]
    cases kind <;> simp [tokens, NamedAction.action, Stmt.MentionsConstant]
  | whileLoop pos opening cond closing body ih =>
    refine Iff.trans ?_ Stmt.listMentions_whileLoop.symm
    rw [← CondDerivation.hasInteger_tokens]
    simp only [tokens, List.cons_append, hasInteger_cons, hasInteger_append, ih, reduceCtorEq,
      false_or]
    rfl
  | ifElse pos opening cond closing thenPos thenBranch elsePos elseBranch ih_then ih_else =>
    refine Iff.trans ?_ Stmt.listMentions_ifElse.symm
    rw [← CondDerivation.hasInteger_tokens]
    simp only [tokens, List.cons_append, hasInteger_cons, hasInteger_append, ih_then, ih_else,
      reduceCtorEq, false_or, or_assoc]
    rfl
  | last s ih => exact ih
  | more s rest ih_s ih_rest =>
    refine Iff.trans ?_ Stmt.listMentions_cons.symm
    rw [tokens, hasInteger_append, ih_s, ih_rest]
    rfl
  | block opening body closing ih =>
    show _ ↔ Stmt.ListMentions digits body.value
    simp only [tokens, List.cons_append, hasInteger_cons, hasInteger_append, hasInteger_nil, ih,
      reduceCtorEq, false_or, or_false]
    rfl

theorem ProgramDerivation.hasInteger_tokens (d : ProgramDerivation) (digits : String) :
    HasInteger digits d.tokens ↔ ∃ q ∈ d.texts, Stmt.ListMentions digits q.body := by
  rw [ProgramDerivation.tokens, ProgramDerivation.texts]
  induction d.procedures with
  | nil => simp
  | cons first rest ih =>
    have h_first := first.body.hasInteger_tokens digits
    simp only [List.flatMap_cons, hasInteger_append, ih, List.map_cons, List.mem_cons,
      exists_eq_or_imp, ProcedureDerivation.tokens, hasInteger_cons, reduceCtorEq, false_or,
      h_first]
    rfl

/-! ## Constants of a program -/

namespace Program

/-- Laid out procedures mention the constants of their texts. -/
theorem mentions_placedFrom (digits : String) (base : Nat) (ps : List ProcedureText) :
    (∃ s ∈ (placedFrom base ps).flatMap ProcedureTree.statements, s.MentionsConstant digits) ↔
      ∃ q ∈ ps, Stmt.ListMentions digits q.body := by
  induction ps generalizing base with
  | nil => simp [placedFrom]
  | cons q rest ih =>
    have h_first : (∃ s ∈ Stmt.preorderList (Stmt.placeList base q.body),
        s.MentionsConstant digits) ↔ Stmt.ListMentions digits q.body :=
      Stmt.listMentions_place.2 q.body base
    simp only [placedFrom, List.flatMap_cons, List.mem_append, or_and_right, exists_or, ih,
      ProcedureTree.statements, h_first, List.mem_cons, exists_eq_left]

/-- The constants of a program are the canonical forms of the literals of its text. -/
theorem mem_constants_of_read {source : String} {p : Program} (h : read source = .ok p)
    (digits : String) : digits ∈ (FactBase.ofProgram p.numbered).constants ↔
      ∃ ds, LiteralIn source.toList ds ∧ digits = String.ofList (Text.canonicalDigits ds) := by
  have h_constants : digits ∈ (FactBase.ofProgram p.numbered).constants ↔
      ∃ s ∈ p.numbered.statements, s.MentionsConstant digits :=
    FactBase.mem_constants_iff (wellFormed_of_read h)
  obtain ⟨ps, h_ps, rfl, -⟩ := exists_texts_of_read h
  unfold readProcedures at h_ps
  split at h_ps
  · cases h_ps
  rename_i stream h_stream
  obtain ⟨d, h_tokens, rfl⟩ := TokenStream.procedures_eq_ok.1 h_ps
  have h_trees : (ofTexts d.texts).numbered.procedures = placedFrom 0 d.texts :=
    procedureTrees_ofTexts d.texts
  calc digits ∈ (FactBase.ofProgram (ofTexts d.texts).numbered).constants
      ↔ ∃ s ∈ (ofTexts d.texts).numbered.statements, s.MentionsConstant digits := h_constants
    _ ↔ ∃ q ∈ d.texts, Stmt.ListMentions digits q.body := by
      rw [NumberedProgram.statements, h_trees, mentions_placedFrom]
    _ ↔ HasInteger digits stream.tokens := by
      rw [← h_tokens, d.hasInteger_tokens]
    _ ↔ ∃ ds, LiteralIn source.toList ds ∧ digits = String.ofList (Text.canonicalDigits ds) :=
      hasInteger_of_scanned (TokenStream.scan_eq_ok.1 h_stream) digits

end Program

end ProgramQuery
