/-
  ProgramQuery.Proofs.Program.Recognise

  Reading programs against the grammar.

  Statements, blocks and procedures are read as they are derived, in the same
  three steps as expressions: what is read is derived, more fuel changes nothing,
  and what is derived is read.  So token streams are accepted exactly if they can
  be derived, and the trees that are read are those of the one derivation.
-/

import ProgramQuery.Proofs.Program.Phrases

namespace ProgramQuery

namespace Reader

/-! ## Statements -/

/-- Statements are read up to a closing brace. -/
theorem statementsFrom_sound {read : Reader (Stmt Position)}
    (h_read : Sound (StmtDerivation.tokens (p := .statement)) StmtDerivation.value read)
    (fuel : Nat) (ts rest : List Located) (ss : List (Stmt Position))
    (h : statementsFrom read fuel ts = .ok (ss, rest)) :
    front? rest = some (.symbol .closeBrace) ∧
      (ss = [] ∧ ts = rest ∨
        ∃ d : StmtDerivation .statements, ts = d.tokens ++ rest ∧ d.value = ss) := by
  induction fuel generalizing ts ss with
  | zero => cases h
  | succ fuel ih =>
    unfold statementsFrom at h
    split at h
    · cases h
    · rename_i h_front
      cases h
      exact ⟨h_front, Or.inl ⟨rfl, rfl⟩⟩
    · obtain ⟨⟨s, rest'⟩, h_s, h⟩ := bind_eq_ok.1 h
      obtain ⟨⟨more, rest''⟩, h_more, h⟩ := bind_eq_ok.1 h
      cases h
      obtain ⟨d, rfl, rfl⟩ := h_read _ _ _ h_s
      obtain ⟨h_brace, ⟨rfl, rfl⟩ | ⟨ds, rfl, rfl⟩⟩ := ih _ _ h_more
      · exact ⟨h_brace, Or.inr ⟨.last d, rfl, rfl⟩⟩
      · exact ⟨h_brace, Or.inr ⟨.more d ds, by simp [StmtDerivation.tokens], rfl⟩⟩

theorem block_sound {read : Reader (Stmt Position)}
    (h_read : Sound (StmtDerivation.tokens (p := .statement)) StmtDerivation.value read)
    (fuel : Nat) :
    Sound (StmtDerivation.tokens (p := .block)) StmtDerivation.value (block read fuel) := by
  intro ts body rest h
  obtain ⟨mid, h_open, h⟩ := bind_eq_ok.1 h
  obtain ⟨⟨found, mid'⟩, h_found, h⟩ := bind_eq_ok.1 h
  obtain ⟨opening, rfl⟩ := symbol_eq_ok.1 h_open
  obtain ⟨h_brace, h_derived⟩ := statementsFrom_sound h_read _ _ _ _ h_found
  obtain ⟨closing, rest', rfl⟩ := front?_eq_some.1 h_brace
  simp only [List.tail_cons] at h
  split at h
  · cases h
  · rename_i h_some
    cases h
    obtain ⟨rfl, -⟩ | ⟨d, rfl, rfl⟩ := h_derived
    · exact absurd rfl h_some
    · exact ⟨.block opening d closing, by simp [StmtDerivation.tokens], rfl⟩

theorem nameAction_eq_ok {pos : Position} {action : String → Action} {ts rest : List Located}
    {s : Stmt Position} : nameAction pos action ts = .ok (s, rest) ↔ ∃ text namePos semicolon,
      ts = ⟨.name text, namePos⟩ :: ⟨.symbol .semicolon, semicolon⟩ :: rest ∧
        s = .simple pos (action text) := by
  constructor
  · intro h
    obtain ⟨⟨text, mid⟩, h_name, h⟩ := bind_eq_ok.1 h
    obtain ⟨mid', h_semicolon, h⟩ := bind_eq_ok.1 h
    cases h
    obtain ⟨namePos, rfl⟩ := name_eq_ok.1 h_name
    obtain ⟨semicolon, rfl⟩ := symbol_eq_ok.1 h_semicolon
    exact ⟨text, namePos, semicolon, rfl, rfl⟩
  · rintro ⟨text, namePos, semicolon, rfl, rfl⟩
    refine bind_eq_ok.2 ⟨_, name_eq_ok.2 ⟨namePos, rfl⟩, ?_⟩
    exact bind_eq_ok.2 ⟨_, symbol_eq_ok.2 ⟨semicolon, rfl⟩, rfl⟩

/-- The ways in which a statement is read. -/
theorem statement_eq_ok {fuel : Nat} {ts rest : List Located} {s : Stmt Position}
    (h : statement (fuel + 1) ts = .ok (s, rest)) :
    (∃ var pos equal mid e semicolon, ts = ⟨.name var, pos⟩ :: ⟨.symbol .equal, equal⟩ :: mid ∧
      expr (fuel + 1) mid = .ok (e, ⟨.symbol .semicolon, semicolon⟩ :: rest) ∧
      s = .simple pos (.assign var e)) ∨
    (∃ kind : NamedAction, ∃ pos mid, ts = ⟨.name kind.word, pos⟩ :: mid ∧
      nameAction pos kind.action mid = .ok (s, rest)) ∨
    (∃ pos mid c mid' body, ts = ⟨.name "while", pos⟩ :: mid ∧
      parenthesised (cond fuel) mid = .ok (c, mid') ∧
      block (statement fuel) fuel mid' = .ok (body, rest) ∧ s = .whileLoop pos c body) ∨
    ∃ pos mid c thenPos mid' thenBranch elsePos mid'' elseBranch, ts = ⟨.name "if", pos⟩ :: mid ∧
      parenthesised (cond fuel) mid = .ok (c, ⟨.name "then", thenPos⟩ :: mid') ∧
      block (statement fuel) fuel mid' = .ok (thenBranch, ⟨.name "else", elsePos⟩ :: mid'') ∧
      block (statement fuel) fuel mid'' = .ok (elseBranch, rest) ∧
      s = .ifElse pos c thenBranch elseBranch := by
  unfold statement at h
  split at h
  · contradiction
  · rename_i fuel' word pos mid h_fuel
    obtain rfl := Nat.succ.inj h_fuel
    -- An assignment; then `read`, `print` and `call`; then the two containers.
    split at h
    · rename_i h_front
      obtain ⟨equal, mid', rfl⟩ := front?_eq_some.1 h_front
      obtain ⟨⟨e, mid''⟩, h_expr, h⟩ := bind_eq_ok.1 h
      obtain ⟨rest', h_semicolon, h⟩ := bind_eq_ok.1 h
      cases h
      obtain ⟨semicolon, rfl⟩ := symbol_eq_ok.1 h_semicolon
      exact Or.inl ⟨word, pos, equal, mid', e, semicolon, rfl, h_expr, rfl⟩
    · split at h
      · subst word
        exact Or.inr (Or.inl ⟨.read, pos, mid, rfl, h⟩)
      · split at h
        · subst word
          exact Or.inr (Or.inl ⟨.print, pos, mid, rfl, h⟩)
        · split at h
          · subst word
            exact Or.inr (Or.inl ⟨.call, pos, mid, rfl, h⟩)
          · split at h
            · subst word
              obtain ⟨⟨c, mid'⟩, h_cond, h⟩ := bind_eq_ok.1 h
              obtain ⟨⟨body, rest'⟩, h_body, h⟩ := bind_eq_ok.1 h
              cases h
              exact Or.inr (Or.inr (Or.inl ⟨pos, mid, c, mid', body, rfl, h_cond, h_body, rfl⟩))
            · split at h
              · subst word
                obtain ⟨⟨c, mid₁⟩, h_cond, h⟩ := bind_eq_ok.1 h
                obtain ⟨mid₂, h_then, h⟩ := bind_eq_ok.1 h
                obtain ⟨⟨thenBranch, mid₃⟩, h_thenBranch, h⟩ := bind_eq_ok.1 h
                obtain ⟨mid₄, h_else, h⟩ := bind_eq_ok.1 h
                obtain ⟨⟨elseBranch, mid₅⟩, h_elseBranch, h⟩ := bind_eq_ok.1 h
                cases h
                obtain ⟨thenPos, rfl⟩ := keyword_eq_ok.1 h_then
                obtain ⟨elsePos, rfl⟩ := keyword_eq_ok.1 h_else
                exact Or.inr (Or.inr (Or.inr ⟨pos, mid, c, thenPos, mid₂, thenBranch, elsePos, mid₄,
                  elseBranch, rfl, h_cond, h_thenBranch, h_elseBranch, rfl⟩))
              · cases h
  · cases h

theorem statement_sound (fuel : Nat) :
    Sound (StmtDerivation.tokens (p := .statement)) StmtDerivation.value (statement fuel) := by
  induction fuel with
  | zero =>
    intro ts s rest h
    cases h
  | succ fuel ih =>
    intro ts s rest h
    have h_block := block_sound ih fuel
    obtain ⟨var, pos, equal, mid, e, semicolon, rfl, h_expr, rfl⟩ | ⟨kind, pos, mid, rfl, h_named⟩ |
      ⟨pos, mid, c, mid', body, rfl, h_cond, h_body, rfl⟩ |
      ⟨pos, mid, c, thenPos, mid', thenBranch, elsePos, mid'', elseBranch, rfl, h_cond, h_then,
        h_else, rfl⟩ := statement_eq_ok h
    · obtain ⟨d, rfl, rfl⟩ := part_sound (some .sum) (fuel + 1) _ _ _ h_expr
      exact ⟨.assign var pos equal d semicolon, by simp [StmtDerivation.tokens], rfl⟩
    · obtain ⟨text, namePos, semicolon, rfl, rfl⟩ := nameAction_eq_ok.1 h_named
      exact ⟨.named kind pos text namePos semicolon, rfl, rfl⟩
    · obtain ⟨opening, closing, inner, rfl, h_inner⟩ := parenthesised_eq_ok.1 h_cond
      obtain ⟨d, rfl, rfl⟩ := cond_sound fuel _ _ _ h_inner
      obtain ⟨b, rfl, rfl⟩ := h_block _ _ _ h_body
      exact ⟨.whileLoop pos opening d closing b, by simp [StmtDerivation.tokens], rfl⟩
    · obtain ⟨opening, closing, inner, rfl, h_inner⟩ := parenthesised_eq_ok.1 h_cond
      obtain ⟨d, rfl, rfl⟩ := cond_sound fuel _ _ _ h_inner
      obtain ⟨b, rfl, rfl⟩ := h_block _ _ _ h_then
      obtain ⟨b', rfl, rfl⟩ := h_block _ _ _ h_else
      exact ⟨.ifElse pos opening d closing thenPos b elsePos b', by simp [StmtDerivation.tokens],
        rfl⟩

/-- The leaves of a derivation are read as what is derived: a statement, a block,
    or statements up to the closing brace. -/
def StatementReads : {p : StmtPart} → StmtDerivation p → Prop
  | .statement, d => ∀ fuel rest, (d.tokens ++ rest).length ≤ fuel →
    statement fuel (d.tokens ++ rest) = .ok (d.value, rest)
  | .statements, d => ∀ fuel k pos rest,
    (d.tokens ++ ⟨.symbol .closeBrace, pos⟩ :: rest).length ≤ fuel →
    (d.tokens ++ ⟨.symbol .closeBrace, pos⟩ :: rest).length ≤ k →
    statementsFrom (statement fuel) k (d.tokens ++ ⟨.symbol .closeBrace, pos⟩ :: rest) =
      .ok (d.value, ⟨.symbol .closeBrace, pos⟩ :: rest)
  | .block, d => ∀ fuel rest, (d.tokens ++ rest).length ≤ fuel →
    block (statement fuel) fuel (d.tokens ++ rest) = .ok (d.value, rest)

theorem isEmpty_value (d : StmtDerivation .statements) :
    List.isEmpty (α := Stmt Position) d.value = false := by
  cases d <;> rfl

theorem statementsFrom_of_statement {read : Reader (Stmt Position)} {k : Nat} {s : Stmt Position}
    {ss : List (Stmt Position)} {ts mid rest : List Located} {text : String}
    (h_front : front? ts = some (.name text)) (h_s : read ts = .ok (s, mid))
    (h_ss : statementsFrom read k mid = .ok (ss, rest)) :
    statementsFrom read (k + 1) ts = .ok (s :: ss, rest) := by
  simp only [statementsFrom, h_front]
  refine bind_eq_ok.2 ⟨_, h_s, ?_⟩
  exact bind_eq_ok.2 ⟨_, h_ss, rfl⟩

theorem statementReads {p : StmtPart} (d : StmtDerivation p) : StatementReads d := by
  induction d with
  | assign var pos equal rhs semicolon =>
    intro fuel rest h_fuel
    simp only [StmtDerivation.tokens, List.cons_append, List.append_assoc, List.nil_append,
      List.length_cons] at h_fuel ⊢
    obtain ⟨fuel, rfl⟩ : ∃ k, fuel = k + 1 := ⟨fuel - 1, by omega⟩
    have h_stops : Stops (some .sum) (⟨.symbol .semicolon, semicolon⟩ :: rest) :=
      stops_of_not_arithmetic rfl rest
    have h_rhs := expr_tokens rhs (show _ ≤ fuel + 1 by omega) h_stops
    refine bind_eq_ok.2 ⟨_, h_rhs, ?_⟩
    exact bind_eq_ok.2 ⟨rest, symbol_eq_ok.2 ⟨semicolon, rfl⟩, rfl⟩
  | named kind pos name namePos semicolon =>
    intro fuel rest h_fuel
    simp only [StmtDerivation.tokens, List.cons_append, List.nil_append, List.length_cons]
      at h_fuel ⊢
    obtain ⟨fuel, rfl⟩ : ∃ k, fuel = k + 1 := ⟨fuel - 1, by omega⟩
    have h_named : nameAction pos kind.action
        (⟨.name name, namePos⟩ :: ⟨.symbol .semicolon, semicolon⟩ :: rest) =
          .ok (.simple pos (kind.action name), rest) :=
      nameAction_eq_ok.2 ⟨name, namePos, semicolon, rfl, rfl⟩
    cases kind <;> exact h_named
  | whileLoop pos opening c closing body ih =>
    intro fuel rest h_fuel
    simp only [StmtDerivation.tokens, List.cons_append, List.append_assoc, List.length_cons]
      at h_fuel ⊢
    obtain ⟨fuel, rfl⟩ : ∃ k, fuel = k + 1 := ⟨fuel - 1, by omega⟩
    have h_inner := cond_tokens c (show _ ≤ fuel by omega)
      (stops_closeParen closing (body.tokens ++ rest))
    have h_cond := parenthesised_eq_ok.2 ⟨opening, closing, _, rfl, h_inner⟩
    have h_body := ih fuel rest (by
      simp only [List.length_append, List.length_cons] at h_fuel ⊢
      omega)
    refine bind_eq_ok.2 ⟨_, h_cond, ?_⟩
    exact bind_eq_ok.2 ⟨_, h_body, rfl⟩
  | ifElse pos opening c closing thenPos thenBranch elsePos elseBranch ih_then ih_else =>
    intro fuel rest h_fuel
    simp only [StmtDerivation.tokens, List.cons_append, List.append_assoc, List.length_cons]
      at h_fuel ⊢
    obtain ⟨fuel, rfl⟩ : ∃ k, fuel = k + 1 := ⟨fuel - 1, by omega⟩
    have h_inner := cond_tokens c (show _ ≤ fuel by omega) (stops_closeParen closing
      (⟨.name "then", thenPos⟩ :: (thenBranch.tokens ++
        ⟨.name "else", elsePos⟩ :: (elseBranch.tokens ++ rest))))
    have h_cond := parenthesised_eq_ok.2 ⟨opening, closing, _, rfl, h_inner⟩
    simp only [List.length_append, List.length_cons] at h_fuel
    have h_then := ih_then fuel (⟨.name "else", elsePos⟩ :: (elseBranch.tokens ++ rest)) (by
      simp only [List.length_append, List.length_cons]
      omega)
    have h_else := ih_else fuel rest (by
      simp only [List.length_append]
      omega)
    refine bind_eq_ok.2 ⟨_, h_cond, ?_⟩
    refine bind_eq_ok.2 ⟨_, keyword_eq_ok.2 ⟨thenPos, rfl⟩, ?_⟩
    refine bind_eq_ok.2 ⟨_, h_then, ?_⟩
    refine bind_eq_ok.2 ⟨_, keyword_eq_ok.2 ⟨elsePos, rfl⟩, ?_⟩
    exact bind_eq_ok.2 ⟨_, h_else, rfl⟩
  | last s ih =>
    intro fuel k pos rest h_fuel h_k
    obtain ⟨text, namePos, tail, h_name⟩ := s.exists_tokens_eq_name
    simp only [StmtDerivation.tokens, List.length_append, List.length_cons] at h_fuel h_k ⊢
    obtain ⟨k, rfl⟩ : ∃ j, k = j + 2 := ⟨k - 2, by rw [h_name, List.length_cons] at h_k; omega⟩
    have h_s := ih fuel (⟨.symbol .closeBrace, pos⟩ :: rest) (by
      simp only [List.length_append, List.length_cons]
      omega)
    exact statementsFrom_of_statement (by rw [h_name]; rfl) h_s rfl
  | more s more ih_s ih_more =>
    intro fuel k pos rest h_fuel h_k
    obtain ⟨text, namePos, tail, h_name⟩ := s.exists_tokens_eq_name
    simp only [StmtDerivation.tokens, List.append_assoc, List.length_append, List.length_cons]
      at h_fuel h_k ⊢
    obtain ⟨k, rfl⟩ : ∃ j, k = j + 1 := ⟨k - 1, by omega⟩
    have h_s := ih_s fuel (more.tokens ++ ⟨.symbol .closeBrace, pos⟩ :: rest) (by
      simp only [List.length_append, List.length_cons]
      omega)
    have h_pos : 0 < s.tokens.length := by simp [h_name]
    have h_more := ih_more fuel k pos rest (by
      simp only [List.length_append, List.length_cons]
      omega) (by
      simp only [List.length_append, List.length_cons]
      omega)
    exact statementsFrom_of_statement (by rw [h_name]; rfl) h_s h_more
  | block opening body closing ih =>
    intro fuel rest h_fuel
    simp only [StmtDerivation.tokens, List.cons_append, List.append_assoc, List.nil_append,
      List.length_cons] at h_fuel ⊢
    have h_body := ih fuel fuel closing rest (by omega) (by omega)
    refine bind_eq_ok.2 ⟨_, symbol_eq_ok.2 ⟨opening, rfl⟩, ?_⟩
    refine bind_eq_ok.2 ⟨_, h_body, ?_⟩
    simp only [isEmpty_value]
    rfl

/-! ## Procedures -/

theorem procedure_sound (fuel : Nat) :
    Sound ProcedureDerivation.tokens ProcedureDerivation.text (procedure fuel) := by
  intro ts p rest h
  obtain ⟨mid, h_keyword, h⟩ := bind_eq_ok.1 h
  obtain ⟨⟨text, mid'⟩, h_name, h⟩ := bind_eq_ok.1 h
  obtain ⟨⟨body, rest'⟩, h_body, h⟩ := bind_eq_ok.1 h
  cases h
  obtain ⟨pos, rfl⟩ := keyword_eq_ok.1 h_keyword
  obtain ⟨namePos, rfl⟩ := name_eq_ok.1 h_name
  obtain ⟨d, rfl, rfl⟩ := block_sound (statement_sound fuel) fuel _ _ _ h_body
  exact ⟨⟨pos, text, namePos, d⟩, rfl, rfl⟩

theorem procedure_tokens (d : ProcedureDerivation) {fuel : Nat} {rest : List Located}
    (h_fuel : (d.tokens ++ rest).length ≤ fuel) :
    procedure fuel (d.tokens ++ rest) = .ok (d.text, rest) := by
  simp only [ProcedureDerivation.tokens, List.cons_append, List.length_cons] at h_fuel ⊢
  have h_body := statementReads d.body fuel rest (by omega)
  refine bind_eq_ok.2 ⟨_, keyword_eq_ok.2 ⟨d.pos, rfl⟩, ?_⟩
  refine bind_eq_ok.2 ⟨_, name_eq_ok.2 ⟨d.namePos, rfl⟩, ?_⟩
  exact bind_eq_ok.2 ⟨_, h_body, rfl⟩

theorem procedures_sound (fuel : Nat) (ts : List Located) (ps : List ProcedureText)
    (h : procedures fuel ts = .ok ps) : ∃ ds : List ProcedureDerivation,
      ts = ds.flatMap ProcedureDerivation.tokens ∧ ds.map ProcedureDerivation.text = ps := by
  induction fuel generalizing ts ps with
  | zero =>
    cases ts with
    | nil =>
      cases h
      exact ⟨[], rfl, rfl⟩
    | cons t ts => cases h
  | succ fuel ih =>
    cases ts with
    | nil =>
      cases h
      exact ⟨[], rfl, rfl⟩
    | cons t ts =>
      obtain ⟨⟨p, rest⟩, h_p, h⟩ := bind_eq_ok.1 h
      obtain ⟨more, h_more, h⟩ := bind_eq_ok.1 h
      cases h
      obtain ⟨d, h_tokens, rfl⟩ := procedure_sound (fuel + 1) _ _ _ h_p
      obtain ⟨ds, rfl, rfl⟩ := ih _ _ h_more
      exact ⟨d :: ds, by simpa using h_tokens, rfl⟩

theorem procedures_tokens (ds : List ProcedureDerivation) {fuel : Nat}
    (h_fuel : (ds.flatMap ProcedureDerivation.tokens).length ≤ fuel) :
    procedures fuel (ds.flatMap ProcedureDerivation.tokens) =
      .ok (ds.map ProcedureDerivation.text) := by
  induction ds generalizing fuel with
  | nil => cases fuel <;> rfl
  | cons d ds ih =>
    simp only [List.flatMap_cons] at h_fuel ⊢
    have h_d := procedure_tokens d h_fuel
    simp only [ProcedureDerivation.tokens, List.cons_append, List.length_cons,
      List.length_append] at h_fuel
    obtain ⟨fuel, rfl⟩ : ∃ k, fuel = k + 1 := ⟨fuel - 1, by omega⟩
    have h_ds := ih (show _ ≤ fuel by omega)
    refine bind_eq_ok.2 ⟨_, h_d, ?_⟩
    exact bind_eq_ok.2 ⟨_, h_ds, rfl⟩

end Reader

/-! ## Programs -/

theorem TokenStream.procedures_eq_ok {stream : TokenStream} {ps : List ProcedureText} :
    stream.procedures = .ok ps ↔
      ∃ d : ProgramDerivation, d.tokens = stream.tokens ∧ d.texts = ps := by
  unfold TokenStream.procedures
  constructor
  · intro h
    split at h
    · cases h
    · cases h
    · rename_i ps' h_some h_read
      cases h
      obtain ⟨ds, h_tokens, rfl⟩ := Reader.procedures_sound _ _ _ h_read
      cases ds with
      | nil => exact absurd rfl h_some
      | cons first rest => exact ⟨⟨first, rest⟩, h_tokens.symm, rfl⟩
  · rintro ⟨d, h_tokens, rfl⟩
    have h_read := Reader.procedures_tokens d.procedures (le_refl _)
    rw [show d.procedures.flatMap ProcedureDerivation.tokens = stream.tokens from h_tokens]
      at h_read
    rw [h_read]
    rfl

/-- How many statement rules a derivation uses. -/
def StmtDerivation.count : {p : StmtPart} → StmtDerivation p → Nat
  | _, .assign .. | _, .named .. => 1
  | _, .whileLoop _ _ _ _ body => body.count + 1
  | _, .ifElse _ _ _ _ _ thenBranch _ elseBranch => thenBranch.count + elseBranch.count + 1
  | _, .last s => s.count
  | _, .more s rest => s.count + rest.count
  | _, .block _ body _ => body.count

/-- How many statements a derived tree has. -/
def StmtPart.size : (p : StmtPart) → p.Value → Nat
  | .statement => Stmt.size
  | .statements | .block => Stmt.sizeList

/-- How many statement rules a derivation of a program uses. -/
def ProgramDerivation.count (d : ProgramDerivation) : Nat :=
  (d.procedures.map (fun q => q.body.count)).sum

/-- A condition is parsed from the tokens of a derivation, and the program stays as it is. -/
theorem Parser.cond_sound {fuel : Nat} {s s' : ParseState} {c : Cond}
    (h : (cond fuel).run s = (.ok c, s')) :
    s'.program = s.program ∧
      ∃ d : CondDerivation, s.tokens = d.tokens ++ s'.tokens ∧ d.cond = c := by
  rcases (keeps_cond (p := s.program) fuel s.tokens).cases with
    ⟨a, rest, h_read, h_run⟩ | ⟨stuck, rest, -, h_run⟩
  · obtain ⟨h_c, h_s⟩ := Prod.mk.inj (h_run.symm.trans h)
    cases h_c
    cases h_s
    exact ⟨rfl, Reader.cond_sound fuel s.tokens c rest h_read⟩
  · cases h_run.symm.trans h

end ProgramQuery
