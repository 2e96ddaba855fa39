/-
  ProgramQuery.Program.Parser

  Reading a program from its tokens.

    program   = procedure+
    procedure = 'procedure' NAME block
    block     = '{' statement+ '}'
    statement = NAME '=' expr ';'
              | ('read' | 'print' | 'call') NAME ';'
              | 'while' '(' cond ')' block
              | 'if' '(' cond ')' 'then' block 'else' block
    cond      = expr relop expr
              | '!' '(' cond ')'
              | '(' cond ')' ('&&' | '||') '(' cond ')'

  Expressions group to the left over `+ -` and over `* / %`, which bind tighter.
  A parser works on the tokens that are left and on the program so far: a statement
  enters the arena as soon as it has been read, while the blocks around it are still
  open.  Parsers of nested things take a fuel that is at least the number of tokens
  left; each level of nesting has consumed a token, so it never runs out.
-/

import ProgramQuery.Program.Basic

namespace ProgramQuery

/-! ## Faults -/

/-- What a reader wanted to see. -/
inductive Wanted where
  | symbol (symbol : Symbol)
  | keyword (text : String)
  | name
  | statement
  | relationalOperator
  | expression
  | endOfExpression
  deriving DecidableEq, Repr

/-- What was wanted, as an error message says it. -/
def Wanted.describe : Wanted → String
  | .symbol s => "'" ++ s.text ++ "'"
  | .keyword text => "'" ++ text ++ "'"
  | .name => "a name"
  | .statement => "a statement"
  | .relationalOperator => "a relational operator"
  | .expression => "an expression"
  | .endOfExpression => "end of expression"

/-- A reader got stuck: what it wanted, and the tokens it saw instead. -/
structure Stuck where
  wanted : Wanted
  seen : List Located
  deriving DecidableEq, Repr

/-- Why a text is not accepted as a program. -/
inductive ProgramFault where
  | unexpectedChar (char : Char) (pos : Position)
  | unexpected (wanted : Wanted) (found : Option Token) (pos : Position)
  | emptyProgram
  | duplicateProcedure (name : String)
  | undefinedProcedure (caller callee : String)
  | recursiveCall (name : String)
  deriving DecidableEq, Repr

namespace ProgramFault

/-- A position in front of a message. -/
def located (pos : Position) (message : String) : String :=
  toString pos.line ++ ":" ++ toString pos.column ++ ": " ++ message

/-- The wording of a fault. -/
def message : ProgramFault → String
  | .unexpectedChar char pos =>
    located pos ("unexpected character '" ++ String.ofList [char] ++ "'")
  | .unexpected wanted found pos =>
    located pos ("expected " ++ wanted.describe ++ ", found " ++
      (match found with
        | some token => token.describe
        | none => "end of input"))
  | .emptyProgram => "program has no procedures"
  | .duplicateProcedure name => "procedure '" ++ name ++ "' is declared more than once"
  | .undefinedProcedure caller callee =>
    "procedure '" ++ caller ++ "' calls undefined procedure '" ++ callee ++ "'"
  | .recursiveCall name => "recursive call chain through procedure '" ++ name ++ "'"

/-- A stray character as a fault. -/
def ofStray (stray : StrayChar) : ProgramFault :=
  .unexpectedChar stray.char stray.pos

/-- A stuck reader as a fault; past the last token it is stuck at the end of the text. -/
def ofStuck (finish : Position) (stuck : Stuck) : ProgramFault :=
  match stuck.seen with
  | [] => .unexpected stuck.wanted none finish
  | t :: _ => .unexpected stuck.wanted (some t.token) t.pos

end ProgramFault

/-! ## Parsers -/

/-- What a parser works on: the tokens that are left and the program so far. -/
structure ParseState where
  tokens : List Located
  program : Program := {}

/-- A parser of values of type `α`.  It finds a value or gets stuck, and leaves a state either
    way. -/
structure Parser (α : Type) where
  run : ParseState → Except Stuck α × ParseState

instance : Monad Parser where
  pure a := ⟨fun s => (.ok a, s)⟩
  bind p next := ⟨fun s =>
    match p.run s with
    | (.ok a, s) => (next a).run s
    | (.error stuck, s) => (.error stuck, s)⟩

namespace Parser

variable {α : Type}

/-- The tokens that are left. -/
def tokens : Parser (List Located) :=
  ⟨fun s => (.ok s.tokens, s)⟩

/-- The token at the front. -/
def front? : Parser (Option Token) := do
  return (← tokens).head?.map Located.token

/-- Goes on with other tokens. -/
def goTo (ts : List Located) : Parser Unit :=
  ⟨fun s => (.ok (), { s with tokens := ts })⟩

/-- Takes the token at the front. -/
def advance : Parser Unit := do
  goTo (← tokens).tail

/-- Gets stuck at the token at the front. -/
def stuck (wanted : Wanted) : Parser α :=
  ⟨fun s => (.error ⟨wanted, s.tokens⟩, s)⟩

/-- Tries a parser, and leaves what it leaves. -/
def attempt (p : Parser α) : Parser (Option α) :=
  ⟨fun s =>
    match p.run s with
    | (.ok a, s) => (.ok (some a), s)
    | (.error _, s) => (.ok none, s)⟩

/-- Takes a given symbol. -/
def symbol (s : Symbol) : Parser Unit := do
  if (← front?) = some (.symbol s) then advance else stuck (.symbol s)

/-- Takes a name that has to be a given keyword. -/
def keyword (text : String) : Parser Unit := do
  if (← front?) = some (.name text) then advance else stuck (.keyword text)

/-- Takes a name. -/
def name : Parser String := do
  match ← front? with
  | some (.name text) =>
    advance
    return text
  | _ => stuck .name

end Parser

/-! ## Expressions -/

namespace Token

/-- The operators of sums. -/
def sumOp? : Token → Option BinOp
  | .symbol .plus => some .add
  | .symbol .minus => some .sub
  | _ => none

/-- The operators of products. -/
def productOp? : Token → Option BinOp
  | .symbol .star => some .mul
  | .symbol .slash => some .div
  | .symbol .percent => some .mod
  | _ => none

/-- The comparison that a token stands for. -/
def relOp? : Token → Option RelOp
  | .symbol .greater => some .gt
  | .symbol .greaterEqual => some .ge
  | .symbol .less => some .lt
  | .symbol .lessEqual => some .le
  | .symbol .equalEqual => some .eq
  | .symbol .notEqual => some .ne
  | _ => none

/-- The connective that a token stands for. -/
def connective? : Token → Option (Cond → Cond → Cond)
  | .symbol .andAnd => some .and
  | .symbol .orOr => some .or
  | _ => none

end Token

namespace Parser

/-- Parses operators and operands as long as there are any, grouping to the left. -/
def chainFrom (op? : Token → Option BinOp) (operand : Parser Expr) : Nat → Expr → Parser Expr
  | 0, lhs => return lhs
  | fuel + 1, lhs => do
    match (← front?).bind op? with
    | none => return lhs
    | some op =>
      advance
      let rhs ← operand
      chainFrom op? operand fuel (.binary op lhs rhs)

/-- Parses operands joined by the operators of one precedence. -/
def chain (op? : Token → Option BinOp) (operand : Parser Expr) (fuel : Nat) : Parser Expr := do
  let lhs ← operand
  chainFrom op? operand fuel lhs

/-- Parses a sum of products of factors, given how to parse a factor. -/
def sum (factor : Parser Expr) (fuel : Nat) : Parser Expr :=
  chain Token.sumOp? (chain Token.productOp? factor fuel) fuel

/-- Parses a name or an integer, or what an opening parenthesis leads to. -/
def factorOr (parenthesis : Parser Expr) : Parser Expr := do
  match ← front? with
  | some (.name text) =>
    advance
    return .var text
  | some (.integer digits) =>
    advance
    return .const digits
  | some (.symbol .openParen) => parenthesis
  | _ => stuck .expression

/-- Parses a name, an integer or an expression in parentheses. -/
def factor : Nat → Parser Expr
  | 0 => factorOr (stuck .expression)
  | fuel + 1 => factorOr do
    advance
    let e ← sum (factor fuel) fuel
    symbol .closeParen
    return e

/-- Parses an expression. -/
def expr (fuel : Nat) : Parser Expr :=
  sum (factor fuel) fuel

/-! ## Conditions -/

/-- Parses a comparison of two expressions. -/
def comparison (fuel : Nat) : Parser Cond := do
  let lhs ← expr fuel
  match (← front?).bind Token.relOp? with
  | none => stuck .relationalOperator
  | some op =>
    advance
    let rhs ← expr fuel
    return .rel op lhs rhs

/-- Parses something in parentheses. -/
def parenthesised {α : Type} (inner : Parser α) : Parser α := do
  symbol .openParen
  let a ← inner
  symbol .closeParen
  return a

/-- Parses a condition.  A parenthesis may open the first part of a compound
    condition or just an expression: it is a compound one exactly if a whole
    condition in parentheses can be parsed and a connective follows.  Otherwise the
    attempt is given up and the same tokens are taken for a comparison. -/
def cond : Nat → Parser Cond
  | 0 => comparison 0
  | fuel + 1 => do
    match ← front? with
    | some (.symbol .bang) =>
      advance
      let arg ← parenthesised (cond fuel)
      return .not arg
    | some (.symbol .openParen) =>
      let saved ← tokens
      match ← attempt (parenthesised (cond fuel)) with
      | none =>
        goTo saved
        comparison (fuel + 1)
      | some lhs =>
        match (← front?).bind Token.connective? with
        | none =>
          goTo saved
          comparison (fuel + 1)
        | some join =>
          advance
          let rhs ← parenthesised (cond fuel)
          return join lhs rhs
    | _ => comparison (fuel + 1)

/-! ## Statements -/

/-- Puts a statement into the arena. -/
def push (kind : StatementKind) (pos : Position) : Parser StatementId :=
  ⟨fun s =>
    let (id, program) := s.program.pushStatement kind pos
    (.ok id, { s with program })⟩

/-- Parses statements up to a closing brace, which is left standing. -/
def statementsFrom (statement : Parser StatementId) : Nat → Parser (List StatementId)
  | 0 => stuck (.symbol .closeBrace)
  | fuel + 1 => do
    match ← front? with
    | none => stuck (.symbol .closeBrace)
    | some (.symbol .closeBrace) => return []
    | some _ =>
      let id ← statement
      let more ← statementsFrom statement fuel
      return id :: more

/-- Parses a block: one statement or more in braces. -/
def block (statement : Parser StatementId) (fuel : Nat) : Parser (List StatementId) := do
  symbol .openBrace
  let ids ← statementsFrom statement fuel
  if ids.isEmpty then
    stuck .statement
  else
    advance
    return ids

/-- Parses a name and a semicolon, and makes an action of the name. -/
def nameAction (action : String → Action) : Parser StatementKind := do
  let text ← name
  symbol .semicolon
  return .simple (action text)

/-- Parses what follows the first word of a statement, given how to parse a statement inside it.
    A name before `=` is a variable, whatever it spells. -/
def statementAfter (statement : Parser StatementId) (fuel : Nat) (word : String) :
    Parser StatementKind := do
  if (← front?) = some (.symbol .equal) then
    advance
    let e ← expr (fuel + 1)
    symbol .semicolon
    return .simple (.assign word e)
  else if word = "read" then
    nameAction .read
  else if word = "print" then
    nameAction .print
  else if word = "call" then
    nameAction .call
  else if word = "while" then
    let c ← parenthesised (cond fuel)
    let body ← block statement fuel
    return .whileLoop c body
  else if word = "if" then
    let c ← parenthesised (cond fuel)
    keyword "then"
    let thenBranch ← block statement fuel
    keyword "else"
    let elseBranch ← block statement fuel
    return .ifElse c thenBranch elseBranch
  else
    stuck (.symbol .equal)

/-- Parses a statement and puts it into the arena, after all that is nested in it. -/
def statement : Nat → Parser StatementId
  | 0 => stuck .statement
  | fuel + 1 => do
    match ← tokens with
    | ⟨.name word, pos⟩ :: _ =>
      advance
      let kind ← statementAfter (statement fuel) fuel word
      push kind pos
    | _ => stuck .statement

/-! ## Procedures -/

/-- Parses a procedure. -/
def procedure (fuel : Nat) : Parser Procedure := do
  let pos := match ← tokens with
    | t :: _ => t.pos
    | [] => .start
  keyword "procedure"
  let text ← name
  let body ← block (statement fuel) fuel
  return ⟨text, pos, body⟩

/-- Puts a procedure into the program. -/
def pushProcedure (q : Procedure) : Parser Unit :=
  ⟨fun s => (.ok (), { s with program := s.program.pushProcedure q })⟩

/-- Parses procedures until no token is left. -/
def procedures : Nat → Parser Unit
  | 0 => do
    if (← tokens).isEmpty then return else stuck (.keyword "procedure")
  | fuel + 1 => do
    if (← tokens).isEmpty then return
    let q ← procedure (fuel + 1)
    pushProcedure q
    procedures fuel

end Parser

/-! ## Whole texts -/

/-- Reads an expression that makes up a whole text. -/
def Expr.read (text : String) : Except ProgramFault Expr :=
  match TokenStream.scan text.toList with
  | .error stray => .error (.ofStray stray)
  | .ok stream =>
    match (Parser.expr stream.tokens.length).run ⟨stream.tokens, {}⟩ with
    | (.error stuck, _) => .error (.ofStuck stream.finish stuck)
    | (.ok e, ⟨[], _⟩) => .ok e
    | (.ok _, ⟨rest, _⟩) => .error (.ofStuck stream.finish ⟨.endOfExpression, rest⟩)

/-- The program that a token stream makes up; it has one procedure at least. -/
def TokenStream.program (stream : TokenStream) : Except ProgramFault Program :=
  match (Parser.procedures stream.tokens.length).run ⟨stream.tokens, {}⟩ with
  | (.error stuck, _) => .error (.ofStuck stream.finish stuck)
  | (.ok _, s) => if s.program.procedures.isEmpty then .error .emptyProgram else .ok s.program

/-- The program that a text makes up, whatever it calls. -/
def Program.parse (text : String) : Except ProgramFault Program :=
  match TokenStream.scan text.toList with
  | .error stray => .error (.ofStray stray)
  | .ok stream => stream.program

end ProgramQuery
