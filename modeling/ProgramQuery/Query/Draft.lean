/-
  ProgramQuery.Query.Draft

  Queries as they are written, before their synonyms are resolved.

    query   = (ENTITY SYN (',' SYN)* ';')* 'Select' result clause*
    result  = 'BOOLEAN' | elem | '<' elem (',' elem)* '>'
    elem    = SYN ('.' attribute)?
    clause  = ('such' 'that' | 'pattern' | 'with') 'not'? body ('and' 'not'? body)*
    body    = relationship '(' ref ',' ref ')'
            | SYN '(' ref ',' spec (',' '_')? ')'
            | withRef '=' withRef

  No word is reserved: synonyms may be called `not`, `Select` or `BOOLEAN`.  A reader
  takes the tokens that are left and gives back a value and the tokens after it.
-/

import ProgramQuery.Query.Basic
import ProgramQuery.Query.Token
import ProgramQuery.Text.Name

namespace ProgramQuery

namespace Draft

/-- An argument as it is written. -/
inductive Ref where
  | name (text : String)
  | ident (text : String)
  | integer (n : StatementNumber)
  | wildcard
  deriving DecidableEq, Repr

/-- An element of a result as it is written. -/
structure Element where
  name : String
  attr : Option Attribute
  deriving DecidableEq, Repr

/-- A result as it is written. -/
inductive Selection where
  | boolean
  | tuple (elements : List Element)
  deriving DecidableEq, Repr

/-- A side of a comparison as it is written. -/
inductive WithRef where
  | attr (element : Element)
  | ident (text : String)
  | integer (digits : String)
  deriving DecidableEq, Repr

/-- The two forms of patterns: with one and with two arguments after the variable. -/
inductive PatternForm where
  | short
  | long
  deriving DecidableEq, Repr

/-- What a clause says, as it is written. -/
inductive Condition where
  | suchThat (relationship : String) (lhs rhs : Ref)
  | pattern (synonym : String) (var : Ref) (expr : ExprSpec) (form : PatternForm)
  | compare (lhs rhs : WithRef)
  deriving DecidableEq, Repr

/-- A clause as it is written. -/
structure Clause where
  condition : Condition
  negated : Bool
  deriving DecidableEq, Repr

end Draft

/-- A query as it is written. -/
structure Draft where
  declarations : List (Entity × String)
  selection : Draft.Selection
  clauses : List Draft.Clause
  deriving DecidableEq, Repr

namespace QueryReader

/-! ## Single tokens -/

/-- A reader of values of type `α`. -/
abbrev Reader (α : Type) := List QueryToken → Except SyntaxFault (α × List QueryToken)

/-- The name at the front. -/
def frontName? : List QueryToken → Option String
  | .name text :: _ => some text
  | _ => none

/-- Takes a symbol if it is there. -/
def eat (c : Char) (ts : List QueryToken) : Option (List QueryToken) :=
  match ts with
  | .symbol d :: rest => if d = c then some rest else none
  | _ => none

/-- Takes a symbol that has to be there. -/
def symbol (c : Char) (ts : List QueryToken) : Except SyntaxFault (List QueryToken) :=
  match eat c ts with
  | some rest => .ok rest
  | none => .error (.expectedSymbol c)

/-- Takes a synonym: a name without a mark. -/
def synonym : Reader String
  | .name text :: rest =>
    if Text.isNameString text then .ok (text, rest) else .error .expectedSynonym
  | _ => .error .expectedSynonym

/-- Takes the name of an attribute. -/
def attrName (ts : List QueryToken) : Except SyntaxFault (Attribute × List QueryToken) :=
  match (frontName? ts).bind Attribute.ofText? with
  | some a => .ok (a, ts.tail)
  | none => .error .expectedAttribute

/-- The name between quotes, without the blanks around it. -/
def quotedName (text : String) : Except SyntaxFault String :=
  let name := Text.trimString text
  if Text.isNameString name then .ok name else .error (.notIdentifier text)

/-- The statement number that some digits denote. -/
def statementNumber (digits : String) : Except SyntaxFault StatementNumber :=
  match Text.readNumber Text.max32 (Text.canonicalDigits digits.toList) with
  | .ok n => .ok n
  | .error _ => .error (.numberOutOfRange digits)

/-- The reverse Polish form of an expression between quotes. -/
def quotedRpn (text : String) : Except SyntaxFault (List String) :=
  match Expr.read text with
  | .ok e => .ok e.rpn
  | .error fault => .error (.invalidExpression text fault)

/-! ## Declarations -/

/-- Reads the synonyms of one declaration, up to its semicolon. -/
def declared (entity : Entity) : Nat → Reader (List (Entity × String))
  | 0, _ => .error .expectedSynonym
  | fuel + 1, ts => do
    let (name, rest) ← synonym ts
    match eat ',' rest with
    | some rest => do
      let (more, rest) ← declared entity fuel rest
      .ok ((entity, name) :: more, rest)
    | none => do
      let rest ← symbol ';' rest
      .ok ([(entity, name)], rest)

/-- Reads all declarations. -/
def declarations : Nat → Reader (List (Entity × String))
  | 0, ts => .ok ([], ts)
  | fuel + 1, ts =>
    match (frontName? ts).bind Entity.ofKeyword? with
    | none => .ok ([], ts)
    | some entity => do
      let (first, rest) ← declared entity (fuel + 1) ts.tail
      let (more, rest) ← declarations fuel rest
      .ok (first ++ more, rest)

/-! ## Results -/

/-- Reads an element of a result. -/
def element : Reader Draft.Element := fun ts => do
  let (name, rest) ← synonym ts
  match eat '.' rest with
  | some rest => do
    let (a, rest) ← attrName rest
    .ok (⟨name, some a⟩, rest)
  | none => .ok (⟨name, none⟩, rest)

/-- Reads elements separated by commas. -/
def elements : Nat → Reader (List Draft.Element)
  | 0, _ => .error .expectedSynonym
  | fuel + 1, ts => do
    let (e, rest) ← element ts
    match eat ',' rest with
    | some rest => do
      let (more, rest) ← elements fuel rest
      .ok (e :: more, rest)
    | none => .ok ([e], rest)

/-- Reads a result.  `BOOLEAN` before a period is a synonym. -/
def selection (fuel : Nat) : Reader Draft.Selection := fun ts =>
  if frontName? ts = some "BOOLEAN" ∧ (eat '.' ts.tail).isNone then
    .ok (.boolean, ts.tail)
  else
    match eat '<' ts with
    | some rest => do
      let (es, rest) ← elements fuel rest
      let rest ← symbol '>' rest
      .ok (.tuple es, rest)
    | none => do
      let (e, rest) ← element ts
      .ok (.tuple [e], rest)

/-! ## Conditions -/

/-- What may stand in a place besides synonyms and wildcards. -/
inductive Slot where
  | statement
  | entity
  | any
  deriving DecidableEq, Repr

/-- Whether a statement number may stand in a place. -/
def Slot.takesNumber : Slot → Bool
  | .statement | .any => true
  | .entity => false

/-- Whether a quoted name may stand in a place. -/
def Slot.takesName : Slot → Bool
  | .entity | .any => true
  | .statement => false

/-- The places of a relationship. -/
def slots : RelationshipName → Slot × Slot
  | .calls | .callsStar => (.entity, .entity)
  | .uses | .modifies => (.any, .entity)
  | _ => (.statement, .statement)

/-- Reads an argument. -/
def ref (slot : Slot) : Reader Draft.Ref
  | [] => .error .expectedArgument
  | .symbol c :: rest => if c = '_' then .ok (.wildcard, rest) else .error .invalidArgument
  | .name text :: rest =>
    if Text.isNameString text then .ok (.name text, rest) else .error .invalidArgument
  | .integer digits :: rest =>
    if slot.takesNumber then do
      let n ← statementNumber digits
      .ok (.integer n, rest)
    else
      .error .invalidArgument
  | .quoted text :: rest =>
    if slot.takesName then do
      let name ← quotedName text
      .ok (.ident name, rest)
    else
      .error .invalidArgument

/-- Reads a relationship and its two arguments. -/
def suchThat : Reader Draft.Condition := fun ts =>
  match frontName? ts with
  | none => .error .expectedRelationship
  | some word =>
    match RelationshipName.ofText? word with
    | none => .error (.unknownRelationship word)
    | some relationship => do
      let rest ← symbol '(' ts.tail
      let (lhs, rest) ← ref (slots relationship).1 rest
      let rest ← symbol ',' rest
      let (rhs, rest) ← ref (slots relationship).2 rest
      let rest ← symbol ')' rest
      .ok (.suchThat word lhs rhs, rest)

/-- Reads what a pattern asks of an expression. -/
def exprSpec : Reader ExprSpec
  | .quoted text :: rest => do
    let rpn ← quotedRpn text
    .ok (.matching .whole rpn, rest)
  | .symbol c :: rest =>
    if c = '_' then
      match rest with
      | .quoted text :: rest => do
        let rpn ← quotedRpn text
        let rest ← symbol '_' rest
        .ok (.matching .part rpn, rest)
      | _ => .ok (.wildcard, rest)
    else
      .error .expectedExprSpec
  | _ => .error .expectedExprSpec

/-- Reads the end of a pattern: a third argument has to be a wildcard, after a wildcard. -/
def patternEnd (expr : ExprSpec) : Reader Draft.PatternForm := fun ts =>
  match eat ',' ts with
  | none => do
    let rest ← symbol ')' ts
    .ok (.short, rest)
  | some rest =>
    if expr = .wildcard then
      match eat '_' rest with
      | none => .error .ifPatternWildcards
      | some rest => do
        let rest ← symbol ')' rest
        .ok (.long, rest)
    else
      .error .ifPatternWildcards

/-- Reads a pattern. -/
def pattern : Reader Draft.Condition := fun ts => do
  let (name, rest) ← synonym ts
  let rest ← symbol '(' rest
  let (var, rest) ← ref .entity rest
  let rest ← symbol ',' rest
  let (expr, rest) ← exprSpec rest
  let (form, rest) ← patternEnd expr rest
  .ok (.pattern name var expr form, rest)

/-- Reads a side of a comparison. -/
def withRef : Reader Draft.WithRef
  | .quoted text :: rest => do
    let name ← quotedName text
    .ok (.ident name, rest)
  | .integer digits :: rest => .ok (.integer (Text.canonicalInteger digits), rest)
  | .name text :: rest => do
    let (name, rest) ← synonym (.name text :: rest)
    let rest ← symbol '.' rest
    let (a, rest) ← attrName rest
    .ok (.attr ⟨name, some a⟩, rest)
  | _ => .error .expectedAttributeRef

/-- Reads a comparison. -/
def comparison : Reader Draft.Condition := fun ts => do
  let (lhs, rest) ← withRef ts
  let rest ← symbol '=' rest
  let (rhs, rest) ← withRef rest
  .ok (.compare lhs rhs, rest)

/-! ## Clauses -/

/-- The three kinds of clauses. -/
inductive Section where
  | suchThat
  | pattern
  | compare
  deriving DecidableEq, Repr

/-- Reads a condition of a kind. -/
def condition : Section → Reader Draft.Condition
  | .suchThat => suchThat
  | .pattern => pattern
  | .compare => comparison

/-- Whether `not` negates in front of these tokens; otherwise it is a synonym. -/
def negates : Section → List QueryToken → Bool
  | .suchThat, .name _ :: _ => true
  | .pattern, .name _ :: _ => true
  | .compare, t :: _ => t != .symbol '.'
  | _, _ => false

/-- Takes `not` if it negates. -/
def negation (kind : Section) (ts : List QueryToken) : Bool × List QueryToken :=
  if frontName? ts = some "not" ∧ negates kind ts.tail then (true, ts.tail) else (false, ts)

/-- Takes the words that open a clause; `and` repeats the kind of the clause before. -/
def opening (previous : Option Section) (ts : List QueryToken) :
    Except SyntaxFault (Section × List QueryToken) :=
  match frontName? ts with
  | some "such" =>
    if frontName? ts.tail = some "that" then
      .ok (.suchThat, ts.tail.tail)
    else
      .error .expectedThat
  | some "pattern" => .ok (.pattern, ts.tail)
  | some "with" => .ok (.compare, ts.tail)
  | some "and" =>
    match previous with
    | some kind => .ok (kind, ts.tail)
    | none => .error .danglingAnd
  | _ => .error .expectedClause

/-- Reads clauses until no token is left. -/
def clauses : Nat → Option Section → List QueryToken → Except SyntaxFault (List Draft.Clause)
  | _, _, [] => .ok []
  | 0, _, _ => .error .expectedClause
  | fuel + 1, previous, ts => do
    let (kind, rest) ← opening previous ts
    let (negated, rest) := negation kind rest
    let (c, rest) ← condition kind rest
    let more ← clauses fuel (some kind) rest
    .ok (⟨c, negated⟩ :: more)

end QueryReader

namespace Draft

/-! ## Whole queries -/

/-- The query that some tokens make up. -/
def ofTokens (ts : List QueryToken) : Except SyntaxFault Draft := do
  let fuel := ts.length
  let (ds, rest) ← QueryReader.declarations fuel ts
  if QueryReader.frontName? rest = some "Select" then do
    let (result, rest) ← QueryReader.selection fuel rest.tail
    let cs ← QueryReader.clauses fuel none rest
    .ok ⟨ds, result, cs⟩
  else
    .error .expectedSelect

/-- The query that a text makes up. -/
def read (text : String) : Except SyntaxFault Draft := do
  let ts ← QueryToken.scan text
  ofTokens ts

end Draft

end ProgramQuery
