/-
  ProgramQuery.Proofs.Program.Lexical

  Programs that were read are made of names and numerals.

  The scanner makes a name of letters and digits, and an integer of digits only,
  which it brings into canonical form.  Readers take the words of expressions and
  statements from such tokens as they are, so the variables, procedures and
  constants of everything that was read have the same shape.  What a reader does
  to the tokens is said once, by `Reader.Gives`.
-/

import ProgramQuery.Proofs.Program.Read
import ProgramQuery.Proofs.Text.Words

namespace ProgramQuery

/-! ## Tokens -/

/-- The word of a token has the shape of its kind. -/
def Token.Lexical : Token → Prop
  | .name text => Text.isNameString text = true
  | .integer digits => Text.isNumeral digits = true
  | .symbol _ => True

/-- All tokens have the shape of their kind. -/
def LexicalTokens (ts : List Located) : Prop :=
  ∀ t ∈ ts, t.token.Lexical

theorem LexicalTokens.tail {ts : List Located} (h : LexicalTokens ts) : LexicalTokens ts.tail :=
  fun t ht => h t (List.mem_of_mem_tail ht)

theorem lexicalTokens_cons {t : Located} {ts : List Located} :
    LexicalTokens (t :: ts) ↔ t.token.Lexical ∧ LexicalTokens ts := by
  simp [LexicalTokens]

theorem Token.lexical_of_atFront? {pos : Position} {cs lexeme rest : List Char} {token : Token}
    (h : Token.atFront? pos cs = .ok (token, lexeme, rest)) : token.Lexical := by
  unfold Token.atFront? at h
  split at h
  · cases h
  rename_i c cs
  split at h
  · rename_i h_alpha
    cases h
    have h_first : c.isAlphanum = true := by simp [Char.isAlphanum, h_alpha]
    simp [Token.Lexical, Text.isNameString, Text.isName, h_first, h_alpha]
  split at h
  · -- The digits of the run, whatever character ends it.
    have h_run : Text.isNumeral
        (String.ofList (Text.canonicalDigits ((c :: cs).takeWhile Char.isDigit))) = true :=
      Text.isNumeral_canonicalDigits List.all_takeWhile
    simp only at h
    split at h
    · split at h
      · cases h
      · cases h
        exact h_run
    · cases h
      exact h_run
  · split at h
    · cases h
      trivial
    · cases h

namespace TokenStream

theorem lexical_of_scanFrom {fuel : Nat} {pos : Position} {cs : List Char} {stream : TokenStream}
    (h : scanFrom fuel pos cs = .ok stream) : LexicalTokens stream.tokens := by
  induction fuel generalizing pos cs stream with
  | zero =>
    cases cs <;> cases h <;> simp [LexicalTokens]
  | succ fuel ih =>
    cases cs with
    | nil =>
      cases h
      simp [LexicalTokens]
    | cons c cs =>
      rw [scanFrom] at h
      split at h
      · exact ih h
      split at h
      · cases h
      rename_i token lexeme rest h_token
      split at h
      · cases h
      rename_i more h_more
      cases h
      exact lexicalTokens_cons.2 ⟨Token.lexical_of_atFront? h_token, ih h_more⟩

theorem lexical_of_scan {cs : List Char} {stream : TokenStream} (h : scan cs = .ok stream) :
    LexicalTokens stream.tokens :=
  lexical_of_scanFrom h

end TokenStream

/-! ## Expressions -/

/-- The variables are names and the constants are strings of digits. -/
def Expr.Lexical : Expr → Prop
  | .var name => Text.isNameString name = true
  | .const digits => Text.isDigitString digits = true
  | .binary _ lhs rhs => lhs.Lexical ∧ rhs.Lexical

/-- The variables are names and the constants are numerals. -/
def Expr.isCanonical : Expr → Bool
  | .var name => Text.isNameString name
  | .const digits => Text.isNumeral digits
  | .binary _ lhs rhs => lhs.isCanonical && rhs.isCanonical

theorem Expr.lexical_of_isCanonical {e : Expr} (h : e.isCanonical = true) : e.Lexical := by
  induction e with
  | var name => exact h
  | const digits => exact (Text.isNumeral_iff.1 h).1
  | binary op lhs rhs ih_lhs ih_rhs =>
    rw [isCanonical, Bool.and_eq_true] at h
    exact ⟨ih_lhs h.1, ih_rhs h.2⟩

namespace Reader

/-- From lexical tokens the reader gives a value with the property and leaves lexical tokens. -/
def Gives {α : Type} (read : Reader α) (P : α → Prop) : Prop :=
  ∀ ts a rest, LexicalTokens ts → read ts = .ok (a, rest) → P a ∧ LexicalTokens rest

theorem lexical_of_symbol {s : Symbol} {ts rest : List Located} (h_ts : LexicalTokens ts)
    (h : symbol s ts = .ok rest) : LexicalTokens rest := by
  unfold symbol at h
  split at h
  · cases h
    exact h_ts.tail
  · cases h

theorem lexical_of_keyword {text : String} {ts rest : List Located} (h_ts : LexicalTokens ts)
    (h : keyword text ts = .ok rest) : LexicalTokens rest := by
  unfold keyword at h
  split at h
  · cases h
    exact h_ts.tail
  · cases h

theorem gives_name : Gives name fun text => Text.isNameString text = true := by
  intro ts text rest h_ts h
  unfold name at h
  split at h
  · cases h
    exact lexicalTokens_cons.1 h_ts
  · cases h

/-- Every round joins two canonical operands. -/
theorem gives_chainFrom {op? : Token → Option BinOp} {operand : Reader Expr}
    (h_operand : operand.Gives (·.isCanonical = true)) (fuel : Nat) {lhs : Expr}
    (h_lhs : lhs.isCanonical = true) :
    (chainFrom op? operand fuel lhs).Gives (·.isCanonical = true) := by
  induction fuel generalizing lhs with
  | zero =>
    intro ts e rest h_ts h
    cases h
    exact ⟨h_lhs, h_ts⟩
  | succ fuel ih =>
    intro ts e rest h_ts h
    rw [chainFrom] at h
    split at h
    · cases h
      exact ⟨h_lhs, h_ts⟩
    · rename_i op h_op
      obtain ⟨⟨rhs, rest₁⟩, h_rhs, h⟩ := bind_eq_ok.1 h
      obtain ⟨h_rhs, h_rest⟩ := h_operand _ _ _ h_ts.tail h_rhs
      have h_joined : (Expr.binary op lhs rhs).isCanonical = true :=
        Bool.and_eq_true_iff.2 ⟨h_lhs, h_rhs⟩
      exact ih h_joined _ _ _ h_rest h

theorem gives_chain {op? : Token → Option BinOp} {operand : Reader Expr}
    (h_operand : operand.Gives (·.isCanonical = true)) (fuel : Nat) :
    (chain op? operand fuel).Gives (·.isCanonical = true) := by
  intro ts e rest h_ts h
  obtain ⟨⟨lhs, rest₁⟩, h_lhs, h⟩ := bind_eq_ok.1 h
  obtain ⟨h_lhs, h_rest⟩ := h_operand _ _ _ h_ts h_lhs
  exact gives_chainFrom h_operand fuel h_lhs _ _ _ h_rest h

theorem gives_sum {factor : Reader Expr} (h_factor : factor.Gives (·.isCanonical = true))
    (fuel : Nat) : (sum factor fuel).Gives (·.isCanonical = true) :=
  gives_chain (gives_chain h_factor fuel) fuel

theorem gives_factor (fuel : Nat) : (factor fuel).Gives (·.isCanonical = true) := by
  induction fuel using Nat.strongRecOn with
  | ind fuel ih =>
    intro ts e rest h_ts h
    unfold factor at h
    split at h
    · cases h
      exact lexicalTokens_cons.1 h_ts
    · cases h
      exact lexicalTokens_cons.1 h_ts
    · -- The parentheses themselves leave no trace in the expression.
      rename_i fuel pos inner
      obtain ⟨⟨e', rest₁⟩, h_inner, h⟩ := bind_eq_ok.1 h
      obtain ⟨rest₂, h_close, h⟩ := bind_eq_ok.1 h
      cases h
      have h_sum := gives_sum (ih fuel (Nat.lt_succ_self fuel)) fuel
      obtain ⟨h_e, h_rest⟩ := h_sum _ _ _ (lexicalTokens_cons.1 h_ts).2 h_inner
      exact ⟨h_e, lexical_of_symbol h_rest h_close⟩
    · cases h

theorem gives_expr (fuel : Nat) : (expr fuel).Gives (·.isCanonical = true) :=
  gives_sum (gives_factor fuel) fuel

end Reader

/-- An expression that was read is lexical. -/
theorem Expr.lexical_of_read {text : String} {e : Expr} (h : Expr.read text = .ok e) :
    e.Lexical := by
  rw [Expr.read_eq] at h
  split at h
  · cases h
  rename_i stream h_stream
  split at h
  · cases h
  · rename_i h_expr
    cases h
    exact Expr.lexical_of_isCanonical
      (Reader.gives_expr _ _ _ _ (TokenStream.lexical_of_scan h_stream) h_expr).1
  · cases h

/-! ## Conditions -/

/-- The variables are names and the constants are numerals. -/
def Cond.isCanonical : Cond → Bool
  | .rel _ lhs rhs => lhs.isCanonical && rhs.isCanonical
  | .not arg => arg.isCanonical
  | .and lhs rhs | .or lhs rhs => lhs.isCanonical && rhs.isCanonical

namespace Reader

theorem gives_parenthesised {α : Type} {inner : Reader α} {P : α → Prop} (h_inner : inner.Gives P) :
    (parenthesised inner).Gives P := by
  intro ts a rest h_ts h
  obtain ⟨rest₁, h_open, h⟩ := bind_eq_ok.1 h
  obtain ⟨⟨a', rest₂⟩, h_a, h⟩ := bind_eq_ok.1 h
  obtain ⟨rest₃, h_close, h⟩ := bind_eq_ok.1 h
  cases h
  obtain ⟨h_a, h_rest⟩ := h_inner _ _ _ (lexical_of_symbol h_ts h_open) h_a
  exact ⟨h_a, lexical_of_symbol h_rest h_close⟩

theorem gives_comparison (fuel : Nat) : (comparison fuel).Gives (·.isCanonical = true) := by
  intro ts c rest h_ts h
  obtain ⟨⟨lhs, rest₁⟩, h_lhs, h⟩ := bind_eq_ok.1 h
  obtain ⟨h_lhs, h_rest⟩ := gives_expr fuel _ _ _ h_ts h_lhs
  simp only at h
  split at h
  · cases h
  · obtain ⟨⟨rhs, rest₂⟩, h_rhs, h⟩ := bind_eq_ok.1 h
    cases h
    obtain ⟨h_rhs, h_rest⟩ := gives_expr fuel _ _ _ h_rest.tail h_rhs
    exact ⟨Bool.and_eq_true_iff.2 ⟨h_lhs, h_rhs⟩, h_rest⟩

theorem isCanonical_connective {token : Token} {join : Cond → Cond → Cond}
    (h : Token.connective? token = some join) (lhs rhs : Cond) :
    (join lhs rhs).isCanonical = (lhs.isCanonical && rhs.isCanonical) := by
  unfold Token.connective? at h
  split at h <;> cases h <;> rfl

/-- A condition that is read is canonical, whichever way its parentheses are taken. -/
theorem gives_cond (fuel : Nat) : (cond fuel).Gives (·.isCanonical = true) := by
  induction fuel with
  | zero => exact gives_comparison 0
  | succ fuel ih =>
    intro ts c rest h_ts h
    rw [cond] at h
    split at h
    · obtain ⟨⟨arg, rest₁⟩, h_arg, h⟩ := bind_eq_ok.1 h
      cases h
      obtain ⟨h_arg, h_rest⟩ := gives_parenthesised ih _ _ _ h_ts.tail h_arg
      exact ⟨h_arg, h_rest⟩
    · split at h
      · exact gives_comparison _ _ _ _ h_ts h
      · rename_i h_lhs
        split at h
        · exact gives_comparison _ _ _ _ h_ts h
        · rename_i join h_join
          obtain ⟨h_lhs, h_rest⟩ := gives_parenthesised ih _ _ _ h_ts h_lhs
          obtain ⟨⟨rhs, rest₂⟩, h_rhs, h⟩ := bind_eq_ok.1 h
          cases h
          obtain ⟨h_rhs, h_rest⟩ := gives_parenthesised ih _ _ _ h_rest.tail h_rhs
          obtain ⟨token, -, h_token⟩ := Option.bind_eq_some_iff.1 h_join
          have h_joined := isCanonical_connective h_token
          exact ⟨(h_joined _ _).trans (Bool.and_eq_true_iff.2 ⟨h_lhs, h_rhs⟩), h_rest⟩
    · exact gives_comparison _ _ _ _ h_ts h

end Reader

/-! ## Statements -/

/-- The name in an action, and the expression that it assigns, are canonical. -/
def Action.isCanonical : Action → Bool
  | .read name | .print name | .call name => Text.isNameString name
  | .assign name e => Text.isNameString name && e.isCanonical

namespace Stmt

variable {α : Type}

/-- The words of the statement itself, apart from those nested in it, are canonical. -/
def isCanonical : Stmt α → Bool
  | .simple _ action => action.isCanonical
  | .whileLoop _ cond _ | .ifElse _ cond _ _ => cond.isCanonical

/-- Some statements, and all nested in them, are canonical. -/
def CanonicalList (ss : List (Stmt α)) : Prop :=
  ∀ s ∈ preorderList ss, s.isCanonical = true

theorem canonicalList_nil : CanonicalList ([] : List (Stmt α)) := by
  simp [CanonicalList]

theorem canonicalList_cons {s : Stmt α} {rest : List (Stmt α)} :
    CanonicalList (s :: rest) ↔ CanonicalList [s] ∧ CanonicalList rest := by
  simp [CanonicalList, or_imp, forall_and]

theorem canonicalList_append {ss ts : List (Stmt α)} :
    CanonicalList (ss ++ ts) ↔ CanonicalList ss ∧ CanonicalList ts := by
  simp [CanonicalList, or_imp, forall_and]

theorem canonicalList_singleton {s : Stmt α} :
    CanonicalList [s] ↔ s.isCanonical = true ∧ CanonicalList s.children := by
  simp [CanonicalList, preorder_eq s]

theorem canonicalList_simple {tag : α} {action : Action} :
    CanonicalList [simple tag action] ↔ action.isCanonical = true := by
  simp [canonicalList_singleton, isCanonical, children, blocks, canonicalList_nil]

/-- Placing statements leaves their words as they are. -/
theorem isCanonical_place :
    (∀ (s : Stmt α) base,
      (s.place base).preorder.map isCanonical = s.preorder.map isCanonical) ∧
    (∀ (ss : List (Stmt α)) base,
      (preorderList (placeList base ss)).map isCanonical =
        (preorderList ss).map isCanonical) := by
  refine induction ?_ ?_ ?_ ?_ ?_
  · intro tag action base
    rfl
  · intro tag cond body ih base
    simp only [place, preorder, List.map_cons, ih]
    rfl
  · intro tag cond thenBranch elseBranch ih_then ih_else base
    simp only [place, preorder, List.map_cons, List.map_append, ih_then, ih_else]
    rfl
  · intro base
    simp
  · intro s rest ih_s ih_rest base
    simp [ih_s, ih_rest]

theorem CanonicalList.place {ss : List (Stmt α)} (h : CanonicalList ss) (base : Nat) :
    CanonicalList (placeList base ss) := by
  intro s hs
  have h_mem : s.isCanonical ∈ (preorderList (placeList base ss)).map isCanonical :=
    List.mem_map.2 ⟨s, hs, rfl⟩
  rw [isCanonical_place.2] at h_mem
  obtain ⟨t, ht, h_t⟩ := List.mem_map.1 h_mem
  rw [← h_t, h t ht]

end Stmt

namespace Reader

theorem gives_statementsFrom {read : Reader (Stmt Position)}
    (h_read : read.Gives fun s => Stmt.CanonicalList [s]) (fuel : Nat) :
    (statementsFrom read fuel).Gives Stmt.CanonicalList := by
  induction fuel with
  | zero =>
    intro ts body rest h_ts h
    cases h
  | succ fuel ih =>
    intro ts body rest h_ts h
    rw [statementsFrom] at h
    split at h
    · cases h
    · cases h
      exact ⟨Stmt.canonicalList_nil, h_ts⟩
    · obtain ⟨⟨s, rest₁⟩, h_s, h⟩ := bind_eq_ok.1 h
      obtain ⟨⟨more, rest₂⟩, h_more, h⟩ := bind_eq_ok.1 h
      cases h
      obtain ⟨h_s, h_rest⟩ := h_read _ _ _ h_ts h_s
      obtain ⟨h_more, h_rest⟩ := ih _ _ _ h_rest h_more
      exact ⟨Stmt.canonicalList_cons.2 ⟨h_s, h_more⟩, h_rest⟩

theorem gives_block {read : Reader (Stmt Position)}
    (h_read : read.Gives fun s => Stmt.CanonicalList [s]) (fuel : Nat) :
    (block read fuel).Gives Stmt.CanonicalList := by
  intro ts body rest h_ts h
  obtain ⟨rest₁, h_open, h⟩ := bind_eq_ok.1 h
  obtain ⟨⟨found, rest₂⟩, h_found, h⟩ := bind_eq_ok.1 h
  obtain ⟨h_body, h_rest⟩ :=
    gives_statementsFrom h_read fuel _ _ _ (lexical_of_symbol h_ts h_open) h_found
  simp only at h
  split at h
  · cases h
  · cases h
    exact ⟨h_body, h_rest.tail⟩

theorem gives_nameAction {pos : Position} {action : String → Action}
    (h_action : ∀ text, (action text).isCanonical = Text.isNameString text) :
    (nameAction pos action).Gives fun s => Stmt.CanonicalList [s] := by
  intro ts s rest h_ts h
  obtain ⟨⟨text, rest₁⟩, h_name, h⟩ := bind_eq_ok.1 h
  obtain ⟨rest₂, h_close, h⟩ := bind_eq_ok.1 h
  cases h
  obtain ⟨h_name, h_rest⟩ := gives_name _ _ _ h_ts h_name
  refine ⟨Stmt.canonicalList_simple.2 ?_, lexical_of_symbol h_rest h_close⟩
  rw [h_action, h_name]

/-- A statement that is read is canonical, with all nested in it. -/
theorem gives_statement (fuel : Nat) :
    (statement fuel).Gives fun s => Stmt.CanonicalList [s] := by
  induction fuel with
  | zero =>
    intro ts s rest h_ts h
    simp [statement] at h
  | succ fuel ih =>
    intro ts s rest h_ts h
    unfold statement at h
    split at h
    · cases h
    · rename_i fuel' word pos rest₀ h_fuel
      obtain rfl := Nat.succ.inj h_fuel
      obtain ⟨h_word, h_ts⟩ := lexicalTokens_cons.1 h_ts
      -- An assignment; then `read`, `print` and `call`; then the two containers.
      split at h
      · obtain ⟨⟨e, rest₁⟩, h_e, h⟩ := bind_eq_ok.1 h
        obtain ⟨rest₂, h_close, h⟩ := bind_eq_ok.1 h
        cases h
        obtain ⟨h_e, h_rest⟩ := gives_expr _ _ _ _ h_ts.tail h_e
        exact ⟨Stmt.canonicalList_simple.2 (Bool.and_eq_true_iff.2 ⟨h_word, h_e⟩),
          lexical_of_symbol h_rest h_close⟩
      split at h
      · exact gives_nameAction (fun _ => rfl) _ _ _ h_ts h
      split at h
      · exact gives_nameAction (fun _ => rfl) _ _ _ h_ts h
      split at h
      · exact gives_nameAction (fun _ => rfl) _ _ _ h_ts h
      split at h
      · obtain ⟨⟨c, rest₁⟩, h_c, h⟩ := bind_eq_ok.1 h
        obtain ⟨⟨body, rest₂⟩, h_body, h⟩ := bind_eq_ok.1 h
        cases h
        obtain ⟨h_c, h_rest⟩ := gives_parenthesised (gives_cond _) _ _ _ h_ts h_c
        obtain ⟨h_body, h_rest⟩ := gives_block ih _ _ _ _ h_rest h_body
        refine ⟨Stmt.canonicalList_singleton.2 ⟨h_c, ?_⟩, h_rest⟩
        simpa [Stmt.children, Stmt.blocks] using h_body
      split at h
      · obtain ⟨⟨c, rest₁⟩, h_c, h⟩ := bind_eq_ok.1 h
        obtain ⟨rest₂, h_kw₁, h⟩ := bind_eq_ok.1 h
        obtain ⟨⟨thenBranch, rest₃⟩, h_then, h⟩ := bind_eq_ok.1 h
        obtain ⟨rest₄, h_kw₂, h⟩ := bind_eq_ok.1 h
        obtain ⟨⟨elseBranch, rest₅⟩, h_else, h⟩ := bind_eq_ok.1 h
        cases h
        obtain ⟨h_c, h_rest⟩ := gives_parenthesised (gives_cond _) _ _ _ h_ts h_c
        obtain ⟨h_then, h_rest⟩ :=
          gives_block ih _ _ _ _ (lexical_of_keyword h_rest h_kw₁) h_then
        obtain ⟨h_else, h_rest⟩ :=
          gives_block ih _ _ _ _ (lexical_of_keyword h_rest h_kw₂) h_else
        refine ⟨Stmt.canonicalList_singleton.2 ⟨h_c, ?_⟩, h_rest⟩
        simpa [Stmt.children, Stmt.blocks] using Stmt.canonicalList_append.2 ⟨h_then, h_else⟩
      · cases h
    · cases h

/-- A procedure that is read has a name, and canonical statements. -/
theorem gives_procedure (fuel : Nat) : (procedure fuel).Gives fun p =>
    Text.isNameString p.name = true ∧ Stmt.CanonicalList p.body := by
  intro ts p rest h_ts h
  obtain ⟨rest₁, h_keyword, h⟩ := bind_eq_ok.1 h
  obtain ⟨⟨text, rest₂⟩, h_name, h⟩ := bind_eq_ok.1 h
  obtain ⟨⟨body, rest₃⟩, h_body, h⟩ := bind_eq_ok.1 h
  cases h
  obtain ⟨h_name, h_rest⟩ := gives_name _ _ _ (lexical_of_keyword h_ts h_keyword) h_name
  obtain ⟨h_body, h_rest⟩ := gives_block (gives_statement fuel) fuel _ _ _ h_rest h_body
  exact ⟨⟨h_name, h_body⟩, h_rest⟩

theorem canonical_of_procedures {fuel : Nat} {ts : List Located} {ps : List ProcedureText}
    (h_ts : LexicalTokens ts) (h : procedures fuel ts = .ok ps) :
    ∀ p ∈ ps, Text.isNameString p.name = true ∧ Stmt.CanonicalList p.body := by
  induction fuel generalizing ts ps with
  | zero =>
    cases ts with
    | nil =>
      cases h
      simp
    | cons t ts => cases h
  | succ fuel ih =>
    cases ts with
    | nil =>
      cases h
      simp
    | cons t ts =>
      obtain ⟨⟨p, rest⟩, h_p, h⟩ := bind_eq_ok.1 h
      obtain ⟨more, h_more, h⟩ := bind_eq_ok.1 h
      cases h
      obtain ⟨h_p, h_rest⟩ := gives_procedure _ _ _ _ h_ts h_p
      exact List.forall_mem_cons.2 ⟨h_p, ih h_rest h_more⟩

end Reader

theorem canonical_of_readProcedures {text : String} {ps : List ProcedureText}
    (h : readProcedures text = .ok ps) :
    ∀ p ∈ ps, Text.isNameString p.name = true ∧ Stmt.CanonicalList p.body := by
  unfold readProcedures at h
  split at h
  · cases h
  · rename_i stream h_stream
    unfold TokenStream.procedures at h
    split at h
    · cases h
    · cases h
    · rename_i h_ps
      cases h
      exact Reader.canonical_of_procedures (TokenStream.lexical_of_scan h_stream) h_ps

/-! ## Programs -/

/-- Procedures have names, and all statements are canonical. -/
structure NumberedProgram.Canonical (p : NumberedProgram) : Prop where
  procedures : ∀ q ∈ p.procedures, Text.isNameString q.name = true
  statements : ∀ s ∈ p.statements, s.isCanonical = true

namespace Program

theorem canonical_placedFrom (base : Nat) (ps : List ProcedureText)
    (h : ∀ p ∈ ps, Text.isNameString p.name = true ∧ Stmt.CanonicalList p.body) :
    ∀ q ∈ placedFrom base ps, Text.isNameString q.name = true ∧ Stmt.CanonicalList q.body := by
  induction ps generalizing base with
  | nil => simp [placedFrom]
  | cons p rest ih =>
    obtain ⟨h_p, h_rest⟩ := List.forall_mem_cons.1 h
    rw [placedFrom]
    exact List.forall_mem_cons.2 ⟨⟨h_p.1, h_p.2.place base⟩, ih _ h_rest⟩

/-- A program that was read is made of names and numerals. -/
theorem canonical_of_read {text : String} {p : Program} (h : read text = .ok p) :
    p.numbered.Canonical := by
  obtain ⟨ps, h_ps, rfl, -⟩ := exists_texts_of_read h
  have h_trees : (ofTexts ps).numbered.procedures = placedFrom 0 ps := procedureTrees_ofTexts ps
  have h_placed := canonical_placedFrom 0 ps (canonical_of_readProcedures h_ps)
  rw [← h_trees] at h_placed
  refine ⟨fun q hq => (h_placed q hq).1, fun s hs => ?_⟩
  obtain ⟨q, hq, hs⟩ := List.mem_flatMap.1 hs
  exact (h_placed q hq).2 s hs

/-- The assignments of a program that was read are of lexical expressions to names. -/
theorem lexical_of_assigns {text : String} {p : Program} (h : read text = .ok p)
    {n : StatementNumber} {var : String} {e : Expr} (h_assign : p.numbered.Assigns n var e) :
    Text.isNameString var = true ∧ e.Lexical := by
  obtain ⟨tag, hs, -⟩ := NumberedProgram.assigns_iff.1 h_assign
  have h_words := Bool.and_eq_true_iff.1 ((canonical_of_read h).statements _ hs)
  exact ⟨h_words.1, Expr.lexical_of_isCanonical h_words.2⟩

end Program

end ProgramQuery
