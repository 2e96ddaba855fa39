/-
  ProgramQuery.Proofs.Program.Parser

  The parser puts into the arena what the readers of trees read.

  A parser and a reader agree if they stop at the same token, and if the parser leaves the
  program as the tree of the reader makes it (`Agrees`).  Parsers of expressions and
  conditions leave the program as it is, also when they get stuck; so an attempt that is
  given up leaves no trace.  Parsers of statements leave the arena with the trees stored in
  it.  Hence the program of a token stream is that of its trees
  (`TokenStream.program_eq`).
-/

import ProgramQuery.Program.CallGraph
import ProgramQuery.Proofs.Program.Layout

namespace ProgramQuery

variable {α β γ δ : Type} {p q : Program} {ts rest : List Located}

/-! ## Steps of parsers -/

namespace Parser

theorem run_bind (x : Parser α) (next : α → Parser β) (s : ParseState) :
    (x >>= next).run s = match x.run s with
      | (.ok a, s) => (next a).run s
      | (.error stuck, s) => (.error stuck, s) :=
  rfl

theorem bind_bind (x : Parser α) (f : α → Parser β) (g : β → Parser γ) :
    x >>= f >>= g = x >>= fun a => f a >>= g := by
  refine congrArg Parser.mk (funext fun s => ?_)
  rw [run_bind]
  rcases x.run s with ⟨_ | a, s'⟩ <;> rfl

theorem pure_bind (a : α) (next : α → Parser β) : pure a >>= next = next a :=
  rfl

@[simp] theorem run_pure (a : α) (s : ParseState) : (pure a : Parser α).run s = (.ok a, s) :=
  rfl

@[simp] theorem run_stuck (wanted : Wanted) (s : ParseState) :
    (stuck wanted : Parser α).run s = (.error ⟨wanted, s.tokens⟩, s) :=
  rfl

@[simp] theorem run_tokens_bind (next : List Located → Parser α) :
    (tokens >>= next).run ⟨ts, p⟩ = (next ts).run ⟨ts, p⟩ :=
  rfl

@[simp] theorem run_front?_bind (next : Option Token → Parser α) :
    (front? >>= next).run ⟨ts, p⟩ = (next (Reader.front? ts)).run ⟨ts, p⟩ :=
  rfl

@[simp] theorem run_advance_bind (next : Unit → Parser α) :
    (advance >>= next).run ⟨ts, p⟩ = (next ()).run ⟨ts.tail, p⟩ :=
  rfl

end Parser

/-! ## Agreement -/

/-- A reader and a parser end alike: both get stuck for the same reason, with a program that
    satisfies `left`, or the parser leaves the value and the program that belong to the value of
    the reader. -/
inductive Agrees (left : Program → Prop) (out : α → β × Program) :
    Except Stuck (α × List Located) → Except Stuck β × ParseState → Prop
  | ok (a : α) (rest : List Located) :
    Agrees left out (.ok (a, rest)) (.ok (out a).1, ⟨rest, (out a).2⟩)
  | error (stuck : Stuck) (ts : List Located) (q : Program) (h : left q) :
    Agrees left out (.error stuck) (.error stuck, ⟨ts, q⟩)

/-- Two steps agree if the first ones do and then the second ones, whatever was found. -/
theorem Agrees.bind {left left' : Program → Prop} {out : α → β × Program}
    {out' : γ → δ × Program} {r : Except Stuck (α × List Located)} {x : Parser β} {s : ParseState}
    {next : α × List Located → Except Stuck (γ × List Located)} {next' : β → Parser δ}
    (h : Agrees left out r (x.run s)) (h_left : ∀ q, left q → left' q)
    (h_next : ∀ a rest,
      Agrees left' out' (next (a, rest)) ((next' (out a).1).run ⟨rest, (out a).2⟩)) :
    Agrees left' out' (r >>= next) ((x >>= next').run s) := by
  rw [Parser.run_bind]
  generalize x.run s = y at h
  cases h with
  | ok a rest => exact h_next a rest
  | error stuck ts q h_q => exact .error stuck ts q (h_left q h_q)

/-- The parser finds what the reader finds and leaves the program as it is, also when it gets
    stuck. -/
abbrev Keeps (p : Program) :
    Except Stuck (α × List Located) → Except Stuck α × ParseState → Prop :=
  Agrees (· = p) (·, p)

/-- The parser leaves the program with the tree of the reader stored in it. -/
abbrev Stores (out : α → β × Program) :
    Except Stuck (α × List Located) → Except Stuck β × ParseState → Prop :=
  Agrees (fun _ => True) out

theorem Keeps.bind {r : Except Stuck (α × List Located)} {x : Parser α} {s : ParseState}
    {next : α × List Located → Except Stuck (β × List Located)} {next' : α → Parser β}
    (h : Keeps p r (x.run s))
    (h_next : ∀ a rest, Keeps p (next (a, rest)) ((next' a).run ⟨rest, p⟩)) :
    Keeps p (r >>= next) ((x >>= next').run s) :=
  Agrees.bind h (fun _ h_q => h_q) h_next

/-- Either way the program is the one from before. -/
theorem Keeps.cases {r : Except Stuck (α × List Located)} {y : Except Stuck α × ParseState}
    (h : Keeps p r y) :
    (∃ a rest, r = .ok (a, rest) ∧ y = (.ok a, ⟨rest, p⟩)) ∨
      ∃ stuck rest, r = .error stuck ∧ y = (.error stuck, ⟨rest, p⟩) := by
  cases h with
  | ok a rest => exact .inl ⟨a, rest, rfl, rfl⟩
  | error stuck rest q h_q => exact .inr ⟨stuck, rest, rfl, by rw [h_q]⟩

/-- Storing goes on after a step that leaves the program as it is. -/
theorem Keeps.bind_stores {r : Except Stuck (α × List Located)} {x : Parser α} {s : ParseState}
    {out : γ → δ × Program} {next : α × List Located → Except Stuck (γ × List Located)}
    {next' : α → Parser δ} (h : Keeps p r (x.run s))
    (h_next : ∀ a rest, Stores out (next (a, rest)) ((next' a).run ⟨rest, p⟩)) :
    Stores out (r >>= next) ((x >>= next').run s) :=
  Agrees.bind h (fun _ _ => trivial) h_next

namespace Agrees

variable {left : Program → Prop} {out : α → β × Program}
  {next : List Located → Except Stuck (α × List Located)} {next' : Unit → Parser β}

/-- Taking a symbol. -/
theorem symbol (s : Symbol) (h_left : left p)
    (h_next : ∀ rest, Agrees left out (next rest) ((next' ()).run ⟨rest, p⟩)) :
    Agrees left out (Reader.symbol s ts >>= next) ((Parser.symbol s >>= next').run ⟨ts, p⟩) := by
  rw [Parser.symbol, Parser.bind_bind, Parser.run_front?_bind, Reader.symbol]
  by_cases h_front : Reader.front? ts = some (.symbol s)
  · rw [if_pos h_front, if_pos h_front]
    exact h_next ts.tail
  · rw [if_neg h_front, if_neg h_front]
    exact .error ⟨.symbol s, ts⟩ ts p h_left

/-- Taking a keyword. -/
theorem keyword (text : String) (h_left : left p)
    (h_next : ∀ rest, Agrees left out (next rest) ((next' ()).run ⟨rest, p⟩)) :
    Agrees left out (Reader.keyword text ts >>= next)
      ((Parser.keyword text >>= next').run ⟨ts, p⟩) := by
  rw [Parser.keyword, Parser.bind_bind, Parser.run_front?_bind, Reader.keyword]
  by_cases h_front : Reader.front? ts = some (.name text)
  · rw [if_pos h_front, if_pos h_front]
    exact h_next ts.tail
  · rw [if_neg h_front, if_neg h_front]
    exact .error ⟨.keyword text, ts⟩ ts p h_left

end Agrees

/-! ## Expressions -/

theorem keeps_name (ts : List Located) : Keeps p (Reader.name ts) (Parser.name.run ⟨ts, p⟩) := by
  rw [Parser.name, Parser.run_front?_bind]
  cases ts with
  | nil => exact .error ⟨.name, []⟩ [] p rfl
  | cons t rest =>
    obtain ⟨token, pos⟩ := t
    cases token with
    | name text => exact .ok text rest
    | integer digits => exact .error _ _ p rfl
    | symbol s => exact .error _ _ p rfl

section

variable {op? : Token → Option BinOp} {operand : Reader Expr} {operand' : Parser Expr}

theorem keeps_chainFrom (h : ∀ ts, Keeps p (operand ts) (operand'.run ⟨ts, p⟩)) (fuel : Nat)
    (lhs : Expr) (ts : List Located) :
    Keeps p (Reader.chainFrom op? operand fuel lhs ts)
      ((Parser.chainFrom op? operand' fuel lhs).run ⟨ts, p⟩) := by
  induction fuel generalizing lhs ts with
  | zero => exact .ok lhs ts
  | succ fuel ih =>
    simp only [Reader.chainFrom, Parser.chainFrom, Parser.run_front?_bind]
    cases (Reader.front? ts).bind op? with
    | none => exact .ok lhs ts
    | some op => exact (h ts.tail).bind fun rhs rest => ih (.binary op lhs rhs) rest

theorem keeps_chain (h : ∀ ts, Keeps p (operand ts) (operand'.run ⟨ts, p⟩)) (fuel : Nat)
    (ts : List Located) :
    Keeps p (Reader.chain op? operand fuel ts) ((Parser.chain op? operand' fuel).run ⟨ts, p⟩) :=
  (h ts).bind (keeps_chainFrom h fuel)

theorem keeps_sum (h : ∀ ts, Keeps p (operand ts) (operand'.run ⟨ts, p⟩)) (fuel : Nat)
    (ts : List Located) :
    Keeps p (Reader.sum operand fuel ts) ((Parser.sum operand' fuel).run ⟨ts, p⟩) :=
  keeps_chain (keeps_chain h fuel) fuel ts

end

theorem keeps_factor (fuel : Nat) (ts : List Located) :
    Keeps p (Reader.factor fuel ts) ((Parser.factor fuel).run ⟨ts, p⟩) := by
  -- Only what follows a parenthesis depends on the fuel.
  induction fuel generalizing ts with
  | zero =>
    rcases ts with _ | ⟨⟨text | digits | s, pos⟩, rest⟩
    · exact .error ⟨.expression, []⟩ [] p rfl
    · exact .ok (Expr.var text) rest
    · exact .ok (Expr.const digits) rest
    · cases s <;> exact .error _ _ p rfl
  | succ fuel ih =>
    rcases ts with _ | ⟨⟨text | digits | s, pos⟩, rest⟩
    · exact .error ⟨.expression, []⟩ [] p rfl
    · exact .ok (Expr.var text) rest
    · exact .ok (Expr.const digits) rest
    · by_cases h_open : s = .openParen
      · subst h_open
        refine (keeps_sum ih fuel rest).bind fun e rest => ?_
        exact Agrees.symbol .closeParen rfl fun rest => .ok e rest
      · cases s <;> first | exact absurd rfl h_open | exact .error _ _ p rfl

theorem keeps_expr (fuel : Nat) (ts : List Located) :
    Keeps p (Reader.expr fuel ts) ((Parser.expr fuel).run ⟨ts, p⟩) :=
  keeps_sum (keeps_factor fuel) fuel ts

/-! ## Conditions -/

theorem keeps_comparison (fuel : Nat) (ts : List Located) :
    Keeps p (Reader.comparison fuel ts) ((Parser.comparison fuel).run ⟨ts, p⟩) := by
  refine (keeps_expr fuel ts).bind fun lhs rest => ?_
  simp only [Parser.run_front?_bind]
  cases (Reader.front? rest).bind Token.relOp? with
  | none => exact .error ⟨.relationalOperator, rest⟩ rest p rfl
  | some op => exact (keeps_expr fuel rest.tail).bind fun rhs rest => .ok (Cond.rel op lhs rhs) rest

theorem keeps_parenthesised {inner : Reader α} {inner' : Parser α}
    (h : ∀ ts, Keeps p (inner ts) (inner'.run ⟨ts, p⟩)) (ts : List Located) :
    Keeps p (Reader.parenthesised inner ts) ((Parser.parenthesised inner').run ⟨ts, p⟩) := by
  refine Agrees.symbol .openParen rfl fun rest => ?_
  refine (h rest).bind fun a rest => ?_
  exact Agrees.symbol .closeParen rfl fun rest => .ok a rest

theorem Parser.run_attempt_bind (x : Parser α) (next : Option α → Parser β) (s : ParseState) :
    (x.attempt >>= next).run s = match x.run s with
      | (.ok a, s) => (next (some a)).run s
      | (.error _, s) => (next none).run s := by
  simp only [run_bind, attempt]
  rcases x.run s with ⟨_ | a, s'⟩ <;> rfl

theorem keeps_cond (fuel : Nat) (ts : List Located) :
    Keeps p (Reader.cond fuel ts) ((Parser.cond fuel).run ⟨ts, p⟩) := by
  induction fuel generalizing ts with
  | zero => exact keeps_comparison 0 ts
  | succ fuel ih =>
    have h_inner := keeps_parenthesised ih
    have h_other := keeps_comparison (p := p) (fuel + 1) ts
    simp only [Reader.cond, Parser.cond, Parser.run_front?_bind]
    rcases Reader.front? ts with _ | text | digits | s
    · exact h_other
    · exact h_other
    · exact h_other
    by_cases h_bang : s = .bang
    · subst h_bang
      exact (h_inner ts.tail).bind fun arg rest => .ok (Cond.not arg) rest
    by_cases h_open : s = .openParen
    · subst h_open
      simp only [Parser.run_tokens_bind]
      -- The attempt fails, or it succeeds and a connective follows or not.
      rcases (h_inner ts).cases with ⟨lhs, rest, h_read, h_run⟩ | ⟨stuck, rest, h_read, h_run⟩
      · rw [Parser.run_attempt_bind, h_run]
        simp only [h_read, Parser.run_front?_bind]
        cases (Reader.front? rest).bind Token.connective? with
        | none => exact h_other
        | some join =>
          exact (h_inner rest.tail).bind fun rhs rest => .ok (join lhs rhs) rest
      · rw [Parser.run_attempt_bind, h_run]
        simp only [h_read]
        exact h_other
    · cases s <;> first | exact absurd rfl h_bang | exact absurd rfl h_open | exact h_other

namespace Parser

end Parser

/-! ## Statements -/

theorem isEmpty_storeList (ss : List (Stmt Position)) (p : Program) :
    (Stmt.storeList ss p).1.isEmpty = ss.isEmpty := by
  cases ss <;> simp [Stmt.storeList]

section

variable {read : Reader (Stmt Position)} {parse : Parser StatementId}

theorem stores_statementsFrom
    (h : ∀ ts p, Stores (fun s => s.store p) (read ts) (parse.run ⟨ts, p⟩)) (fuel : Nat)
    (ts : List Located) (p : Program) :
    Stores (fun ss => Stmt.storeList ss p) (Reader.statementsFrom read fuel ts)
      ((Parser.statementsFrom parse fuel).run ⟨ts, p⟩) := by
  induction fuel generalizing ts p with
  | zero => exact .error ⟨.symbol .closeBrace, ts⟩ ts p trivial
  | succ fuel ih =>
    have h_more : Stores (fun ss => Stmt.storeList ss p)
        (do
          let first ← read ts
          let more ← Reader.statementsFrom read fuel first.2
          .ok (first.1 :: more.1, more.2))
        ((do
          let id ← parse
          let more ← Parser.statementsFrom parse fuel
          return id :: more : Parser (List StatementId)).run ⟨ts, p⟩) := by
      refine (h ts p).bind (fun _ h_q => h_q) fun s rest => ?_
      refine (ih rest (s.store p).2).bind (fun _ h_q => h_q) fun more rest => ?_
      exact .ok (s :: more) rest
    simp only [Reader.statementsFrom, Parser.statementsFrom, Parser.run_front?_bind]
    rcases Reader.front? ts with _ | text | digits | s
    · exact .error ⟨.symbol .closeBrace, ts⟩ ts p trivial
    · exact h_more
    · exact h_more
    by_cases h_close : s = .closeBrace
    · subst h_close
      exact .ok [] ts
    · cases s <;> first | exact absurd rfl h_close | exact h_more

theorem stores_block
    (h : ∀ ts p, Stores (fun s => s.store p) (read ts) (parse.run ⟨ts, p⟩)) (fuel : Nat)
    (ts : List Located) (p : Program) :
    Stores (fun ss => Stmt.storeList ss p) (Reader.block read fuel ts)
      ((Parser.block parse fuel).run ⟨ts, p⟩) := by
  refine Agrees.symbol .openBrace trivial fun rest => ?_
  refine (stores_statementsFrom h fuel rest p).bind (fun _ h_q => h_q) fun ss rest => ?_
  simp only [isEmpty_storeList]
  cases ss.isEmpty with
  | true => exact .error ⟨.statement, rest⟩ rest _ trivial
  | false => exact .ok ss rest.tail

end

theorem stores_nameAction (pos : Position) (action : String → Action) (ts : List Located)
    (p : Program) :
    Stores (fun s => s.store p) (Reader.nameAction pos action ts)
      ((Parser.nameAction action >>= (Parser.push · pos)).run ⟨ts, p⟩) := by
  simp only [Parser.nameAction, Parser.bind_bind, Parser.pure_bind]
  refine (keeps_name ts).bind_stores fun text rest => ?_
  exact Agrees.symbol .semicolon trivial fun rest => .ok (Stmt.simple pos (action text)) rest

/-- What follows the first word of a statement, with the push that ends it. -/
theorem stores_statementAfter {fuel : Nat}
    (h : ∀ ts p, Stores (fun s => s.store p) (Reader.statement fuel ts)
      ((Parser.statement fuel).run ⟨ts, p⟩))
    (word : String) (pos : Position) (ts : List Located) (p : Program) :
    Stores (fun s => s.store p) (Reader.statement (fuel + 1) (⟨.name word, pos⟩ :: ts))
      ((Parser.statementAfter (Parser.statement fuel) fuel word >>=
        (Parser.push · pos)).run ⟨ts, p⟩) := by
  have h_block := stores_block h fuel
  have h_cond := keeps_parenthesised (keeps_cond (p := p) fuel)
  simp only [Reader.statement, Parser.statementAfter, Parser.bind_bind, Parser.run_front?_bind]
  -- An assignment; then `read`, `print` and `call`; then the two containers.
  by_cases h_assign : Reader.front? ts = some (.symbol .equal)
  · simp only [h_assign, if_pos, Parser.bind_bind, Parser.pure_bind, Parser.run_advance_bind]
    refine (keeps_expr (fuel + 1) ts.tail).bind_stores fun e rest => ?_
    exact Agrees.symbol .semicolon trivial fun rest => .ok (Stmt.simple pos (.assign word e)) rest
  simp only [if_neg h_assign]
  by_cases h_read : word = "read"
  · simp only [if_pos h_read]
    exact stores_nameAction pos .read ts p
  simp only [if_neg h_read]
  by_cases h_print : word = "print"
  · simp only [if_pos h_print]
    exact stores_nameAction pos .print ts p
  simp only [if_neg h_print]
  by_cases h_call : word = "call"
  · simp only [if_pos h_call]
    exact stores_nameAction pos .call ts p
  simp only [if_neg h_call]
  by_cases h_while : word = "while"
  · simp only [if_pos h_while, Parser.bind_bind, Parser.pure_bind]
    refine (h_cond ts).bind_stores fun c rest => ?_
    refine (h_block rest p).bind (fun _ h_q => h_q) fun body rest => ?_
    exact .ok (Stmt.whileLoop pos c body) rest
  simp only [if_neg h_while]
  by_cases h_if : word = "if"
  · simp only [if_pos h_if, Parser.bind_bind, Parser.pure_bind]
    refine (h_cond ts).bind_stores fun c rest => ?_
    refine Agrees.keyword "then" trivial fun rest => ?_
    refine (h_block rest p).bind (fun _ h_q => h_q) fun thenBranch rest => ?_
    refine Agrees.keyword "else" trivial fun rest => ?_
    refine (h_block rest _).bind (fun _ h_q => h_q) fun elseBranch rest => ?_
    exact .ok (Stmt.ifElse pos c thenBranch elseBranch) rest
  · simp only [if_neg h_if]
    exact .error ⟨.symbol .equal, ts⟩ ts p trivial

/-- A statement enters the arena when it has been read, after all that is nested in it. -/
theorem stores_statement (fuel : Nat) (ts : List Located) (p : Program) :
    Stores (fun s => s.store p) (Reader.statement fuel ts)
      ((Parser.statement fuel).run ⟨ts, p⟩) := by
  induction fuel generalizing ts p with
  | zero => exact .error ⟨.statement, ts⟩ ts p trivial
  | succ fuel ih =>
    rcases ts with _ | ⟨⟨word | digits | s, pos⟩, rest⟩
    · exact .error ⟨.statement, []⟩ [] p trivial
    · exact stores_statementAfter ih word pos rest p
    · exact .error _ _ p trivial
    · exact .error _ _ p trivial

/-! ## Procedures -/

theorem stores_procedure (fuel : Nat) (ts : List Located) (p : Program) :
    Stores (fun q => ((⟨q.name, q.pos, (Stmt.storeList q.body p).1⟩ : Procedure),
        (Stmt.storeList q.body p).2))
      (Reader.procedure fuel ts) ((Parser.procedure fuel).run ⟨ts, p⟩) := by
  simp only [Parser.procedure, Parser.run_tokens_bind]
  refine Agrees.keyword "procedure" trivial fun rest => ?_
  refine (keeps_name rest).bind_stores fun text rest => ?_
  refine (stores_block (stores_statement fuel) fuel rest p).bind (fun _ h_q => h_q)
    fun body rest => ?_
  exact .ok (ProcedureText.mk text _ body) rest

/-- What is left after all procedures is nothing. -/
def Reader.allProcedures (fuel : Nat) : Reader (List ProcedureText) := fun ts => do
  let ps ← procedures fuel ts
  .ok (ps, [])

theorem Reader.allProcedures_cons (fuel : Nat) (t : Located) (rest : List Located) :
    allProcedures (fuel + 1) (t :: rest) = (do
      let (p, rest) ← procedure (fuel + 1) (t :: rest)
      let (more, rest) ← allProcedures fuel rest
      .ok (p :: more, rest)) := by
  simp only [allProcedures, procedures, bind_assoc]
  rfl

/-- All procedures that are read are put into the program, one after the other. -/
theorem stores_procedures (fuel : Nat) (ts : List Located) (p : Program) :
    Stores (fun ps => ((), ps.foldl Program.pushText p))
      (Reader.allProcedures fuel ts) ((Parser.procedures fuel).run ⟨ts, p⟩) := by
  induction fuel generalizing ts p with
  | zero =>
    cases ts with
    | nil => exact .ok [] []
    | cons t rest => exact .error _ _ p trivial
  | succ fuel ih =>
    cases ts with
    | nil => exact .ok [] []
    | cons t rest =>
      rw [Reader.allProcedures_cons, Parser.procedures, Parser.run_tokens_bind]
      refine (stores_procedure (fuel + 1) (t :: rest) p).bind (fun _ h_q => h_q) fun q rest => ?_
      have h_more := ih rest (p.pushText q)
      change Stores _ _ ((Parser.procedures fuel).run ⟨rest, p.pushText q⟩)
      dsimp only
      generalize (Parser.procedures fuel).run ⟨rest, p.pushText q⟩ = y at h_more ⊢
      generalize Reader.allProcedures fuel rest = r at h_more ⊢
      cases h_more with
      | ok more rest => exact .ok (q :: more) rest
      | error stuck rest q' h_q => exact .error stuck rest q' h_q

theorem Expr.read_eq (text : String) :
    Expr.read text = match TokenStream.scan text.toList with
      | .error stray => .error (.ofStray stray)
      | .ok stream =>
        match Reader.expr stream.tokens.length stream.tokens with
        | .error stuck => .error (.ofStuck stream.finish stuck)
        | .ok (e, []) => .ok e
        | .ok (_, rest) => .error (.ofStuck stream.finish ⟨.endOfExpression, rest⟩) := by
  rw [Expr.read]
  cases TokenStream.scan text.toList with
  | error stray => rfl
  | ok stream =>
    have h := keeps_expr (p := {}) stream.tokens.length stream.tokens
    dsimp only
    generalize (Parser.expr stream.tokens.length).run ⟨stream.tokens, {}⟩ = y at h ⊢
    generalize Reader.expr stream.tokens.length stream.tokens = r at h ⊢
    cases h with
    | ok e rest => cases rest <;> rfl
    | error stuck ts q h_q => rfl

/-- The program of a token stream has the trees that are read from it stored one after the other. -/
theorem TokenStream.program_eq (stream : TokenStream) :
    stream.program = stream.procedures.map Program.ofTexts := by
  have h := stores_procedures stream.tokens.length stream.tokens {}
  rw [TokenStream.program, TokenStream.procedures]
  generalize (Parser.procedures stream.tokens.length).run ⟨stream.tokens, {}⟩ = y at h ⊢
  rw [Reader.allProcedures] at h
  cases h_read : Reader.procedures stream.tokens.length stream.tokens with
  | error stuck =>
    rw [h_read] at h
    cases h
    rfl
  | ok ps =>
    rw [h_read] at h
    cases h
    have h_length : (Program.ofTexts ps).procedures.length = 0 + ps.length :=
      Program.length_procedures_foldl_pushText ps {}
    cases ps with
    | nil => rfl
    | cons q rest =>
      refine if_neg fun h_empty => ?_
      have h_nil : (Program.ofTexts (q :: rest)).procedures = [] := List.isEmpty_iff.1 h_empty
      simp [h_nil] at h_length

theorem Program.parse_eq (text : String) :
    Program.parse text = (readProcedures text).map Program.ofTexts := by
  rw [Program.parse, readProcedures]
  cases TokenStream.scan text.toList with
  | error stray => rfl
  | ok stream => exact stream.program_eq

end ProgramQuery
