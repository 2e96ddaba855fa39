/-
  ProgramQuery.Proofs.Program.Reader

  Reading statement trees from tokens.

  These readers follow the grammar as the parser does, but they leave no program behind:
  they give trees, and a statement is known by its position in the text.
-/

import ProgramQuery.Program.Parser

namespace ProgramQuery

/-! ## Single tokens -/

/-- A reader of values of type `α`. -/
abbrev Reader (α : Type) := List Located → Except Stuck (α × List Located)

namespace Reader

/-- The token at the front. -/
def front? (ts : List Located) : Option Token :=
  ts.head?.map Located.token

/-- Takes a given symbol. -/
def symbol (s : Symbol) (ts : List Located) : Except Stuck (List Located) :=
  if front? ts = some (.symbol s) then .ok ts.tail else .error ⟨.symbol s, ts⟩

/-- Takes a name that has to be a given keyword. -/
def keyword (text : String) (ts : List Located) : Except Stuck (List Located) :=
  if front? ts = some (.name text) then .ok ts.tail else .error ⟨.keyword text, ts⟩

/-- Takes a name. -/
def name : Reader String
  | ⟨.name text, _⟩ :: rest => .ok (text, rest)
  | ts => .error ⟨.name, ts⟩

/-! ## Expressions -/

/-- Reads operators and operands as long as there are any, grouping to the left. -/
def chainFrom (op? : Token → Option BinOp) (operand : Reader Expr) : Nat → Expr → Reader Expr
  | 0, lhs, ts => .ok (lhs, ts)
  | fuel + 1, lhs, ts =>
    match (front? ts).bind op? with
    | none => .ok (lhs, ts)
    | some op => do
      let (rhs, rest) ← operand ts.tail
      chainFrom op? operand fuel (.binary op lhs rhs) rest

/-- Reads operands joined by the operators of one precedence. -/
def chain (op? : Token → Option BinOp) (operand : Reader Expr) (fuel : Nat) : Reader Expr :=
  fun ts => do
    let (lhs, rest) ← operand ts
    chainFrom op? operand fuel lhs rest

/-- Reads a sum of products of factors, given how to read a factor. -/
def sum (factor : Reader Expr) (fuel : Nat) : Reader Expr :=
  chain Token.sumOp? (chain Token.productOp? factor fuel) fuel

/-- Reads a name, an integer or an expression in parentheses. -/
def factor : Nat → Reader Expr
  | _, ⟨.name text, _⟩ :: rest => .ok (.var text, rest)
  | _, ⟨.integer digits, _⟩ :: rest => .ok (.const digits, rest)
  | fuel + 1, ⟨.symbol .openParen, _⟩ :: rest => do
    let (e, rest) ← sum (factor fuel) fuel rest
    let rest ← symbol .closeParen rest
    .ok (e, rest)
  | _, ts => .error ⟨.expression, ts⟩

/-- Reads an expression. -/
def expr (fuel : Nat) : Reader Expr :=
  sum (factor fuel) fuel

/-! ## Conditions -/

/-- Reads a comparison of two expressions. -/
def comparison (fuel : Nat) : Reader Cond := fun ts => do
  let (lhs, rest) ← expr fuel ts
  match (front? rest).bind Token.relOp? with
  | none => .error ⟨.relationalOperator, rest⟩
  | some op => do
    let (rhs, rest) ← expr fuel rest.tail
    .ok (.rel op lhs rhs, rest)

/-- Reads something in parentheses. -/
def parenthesised {α : Type} (inner : Reader α) : Reader α := fun ts => do
  let rest ← symbol .openParen ts
  let (a, rest) ← inner rest
  let rest ← symbol .closeParen rest
  .ok (a, rest)

/-- Reads a condition.  A parenthesis may open the first part of a compound
    condition or just an expression: it is a compound one exactly if a whole
    condition in parentheses can be read and a connective follows. -/
def cond : Nat → Reader Cond
  | 0, ts => comparison 0 ts
  | fuel + 1, ts =>
    match front? ts with
    | some (.symbol .bang) => do
      let (arg, rest) ← parenthesised (cond fuel) ts.tail
      .ok (.not arg, rest)
    | some (.symbol .openParen) =>
      match parenthesised (cond fuel) ts with
      | .error _ => comparison (fuel + 1) ts
      | .ok (lhs, rest) =>
        match (front? rest).bind Token.connective? with
        | none => comparison (fuel + 1) ts
        | some join => do
          let (rhs, rest) ← parenthesised (cond fuel) rest.tail
          .ok (join lhs rhs, rest)
    | _ => comparison (fuel + 1) ts

/-! ## Statements -/

/-- Reads statements up to a closing brace, which is left standing. -/
def statementsFrom (statement : Reader (Stmt Position)) : Nat → Reader (List (Stmt Position))
  | 0, ts => .error ⟨.symbol .closeBrace, ts⟩
  | fuel + 1, ts =>
    match front? ts with
    | none => .error ⟨.symbol .closeBrace, ts⟩
    | some (.symbol .closeBrace) => .ok ([], ts)
    | some _ => do
      let (s, rest) ← statement ts
      let (more, rest) ← statementsFrom statement fuel rest
      .ok (s :: more, rest)

/-- Reads a block: one statement or more in braces. -/
def block (statement : Reader (Stmt Position)) (fuel : Nat) : Reader (List (Stmt Position)) :=
  fun ts => do
    let rest ← symbol .openBrace ts
    let (body, rest) ← statementsFrom statement fuel rest
    if body.isEmpty then
      .error ⟨.statement, rest⟩
    else
      .ok (body, rest.tail)

/-- Reads a name and a semicolon, and makes an action of the name. -/
def nameAction (pos : Position) (action : String → Action) : Reader (Stmt Position) :=
  fun ts => do
    let (text, rest) ← name ts
    let rest ← symbol .semicolon rest
    .ok (.simple pos (action text), rest)

/-- Reads a statement.  A name before `=` is a variable, whatever it spells. -/
def statement : Nat → Reader (Stmt Position)
  | 0, ts => .error ⟨.statement, ts⟩
  | fuel + 1, ⟨.name word, pos⟩ :: rest =>
    if front? rest = some (.symbol .equal) then do
      let (e, rest) ← expr (fuel + 1) rest.tail
      let rest ← symbol .semicolon rest
      .ok (.simple pos (.assign word e), rest)
    else if word = "read" then
      nameAction pos .read rest
    else if word = "print" then
      nameAction pos .print rest
    else if word = "call" then
      nameAction pos .call rest
    else if word = "while" then do
      let (c, rest) ← parenthesised (cond fuel) rest
      let (body, rest) ← block (statement fuel) fuel rest
      .ok (.whileLoop pos c body, rest)
    else if word = "if" then do
      let (c, rest) ← parenthesised (cond fuel) rest
      let rest ← keyword "then" rest
      let (thenBranch, rest) ← block (statement fuel) fuel rest
      let rest ← keyword "else" rest
      let (elseBranch, rest) ← block (statement fuel) fuel rest
      .ok (.ifElse pos c thenBranch elseBranch, rest)
    else
      .error ⟨.symbol .equal, rest⟩
  | _, ts => .error ⟨.statement, ts⟩

/-! ## Procedures -/

end Reader

/-- A procedure as it is read. -/
structure ProcedureText where
  name : String
  pos : Position
  body : List (Stmt Position)
  deriving Repr

namespace Reader

/-- Reads a procedure. -/
def procedure (fuel : Nat) : Reader ProcedureText := fun ts => do
  let rest ← keyword "procedure" ts
  let (text, rest) ← name rest
  let (body, rest) ← block (statement fuel) fuel rest
  let pos := match ts with
    | t :: _ => t.pos
    | [] => .start
  .ok (⟨text, pos, body⟩, rest)

/-- Reads procedures until no token is left. -/
def procedures : Nat → List Located → Except Stuck (List ProcedureText)
  | _, [] => .ok []
  | 0, ts => .error ⟨.keyword "procedure", ts⟩
  | fuel + 1, ts => do
    let (p, rest) ← procedure (fuel + 1) ts
    let more ← procedures fuel rest
    .ok (p :: more)

end Reader

/-! ## Whole texts -/

/-- Reads the procedures that make up a token stream; there is one at least. -/
def TokenStream.procedures (stream : TokenStream) : Except ProgramFault (List ProcedureText) :=
  match Reader.procedures stream.tokens.length stream.tokens with
  | .error stuck => .error (.ofStuck stream.finish stuck)
  | .ok [] => .error .emptyProgram
  | .ok ps => .ok ps

/-- Reads the procedures that make up a whole text. -/
def readProcedures (text : String) : Except ProgramFault (List ProcedureText) :=
  match TokenStream.scan text.toList with
  | .error stray => .error (.ofStray stray)
  | .ok stream => stream.procedures

end ProgramQuery
