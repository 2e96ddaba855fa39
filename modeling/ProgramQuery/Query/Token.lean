/-
  ProgramQuery.Query.Token

  The tokens of a query text, and the ways in which a text fails to be a query.

  A name may be a word of the query language or a synonym; only its place
  decides.  A star directly after the name of a relationship that has a starred
  form belongs to the name, and so does the mark of `stmt#`.  What stands
  between double quotes is kept as it is.
-/

import ProgramQuery.Program.Parser

namespace ProgramQuery

/-! ## Faults -/

/-- Why a text is not a query. -/
inductive SyntaxFault where
  | digitFirst
  | unterminatedQuote
  | unexpectedChar (char : Char)
  | expectedSymbol (symbol : Char)
  | expectedSynonym
  | expectedSelect
  | expectedThat
  | danglingAnd
  | expectedClause
  | expectedAttribute
  | expectedRelationship
  | unknownRelationship (word : String)
  | expectedArgument
  | invalidArgument
  | numberOutOfRange (digits : String)
  | notIdentifier (text : String)
  | ifPatternWildcards
  | expectedExprSpec
  | invalidExpression (text : String) (fault : ProgramFault)
  | expectedAttributeRef
  deriving DecidableEq, Repr

/-- The wording of a fault. -/
def SyntaxFault.message : SyntaxFault → String
  | .digitFirst => "identifier cannot start with a digit"
  | .unterminatedQuote => "unterminated quote"
  | .unexpectedChar char => "unexpected character '" ++ String.ofList [char] ++ "'"
  | .expectedSymbol symbol => "expected '" ++ String.ofList [symbol] ++ "'"
  | .expectedSynonym => "expected a synonym"
  | .expectedSelect => "expected 'Select'"
  | .expectedThat => "expected 'that' after 'such'"
  | .danglingAnd => "'and' without a preceding clause"
  | .expectedClause => "expected a clause"
  | .expectedAttribute => "expected an attribute name"
  | .expectedRelationship => "expected a relationship"
  | .unknownRelationship word => "unknown relationship '" ++ word ++ "'"
  | .expectedArgument => "expected an argument"
  | .invalidArgument => "invalid argument"
  | .numberOutOfRange digits => "statement number '" ++ digits ++ "' out of range"
  | .notIdentifier text => "'" ++ text ++ "' is not an identifier"
  | .ifPatternWildcards => "if pattern takes wildcards only"
  | .expectedExprSpec => "expected an expression spec"
  | .invalidExpression text fault =>
    "invalid expression '" ++ text ++ "': " ++ fault.message
  | .expectedAttributeRef => "expected an attribute reference"

/-! ## Tokens -/

/-- A token of a query. -/
inductive QueryToken where
  | name (text : String)
  | integer (digits : String)
  | quoted (text : String)
  | symbol (char : Char)
  deriving DecidableEq, Repr

namespace QueryToken

/-- The characters that are tokens by themselves. -/
def symbols : List Char :=
  ['(', ')', ',', ';', '_', '.', '<', '>', '=']

/-- The names that a star can extend. -/
def starred : List String :=
  ["Follows", "Parent", "Calls", "Next", "Affects"]

/-- A name with the mark that belongs to it, and the rest of the text. -/
def withMark (word : String) (rest : List Char) : String × List Char :=
  match rest with
  | '*' :: more => if word ∈ starred then (word ++ "*", more) else (word, rest)
  | '#' :: more => if word = "stmt" then (word ++ "#", more) else (word, rest)
  | _ => (word, rest)

/-- The token at the front of a text that starts with no blank, and the rest of the text. -/
def atFront (c : Char) (cs : List Char) : Except SyntaxFault (QueryToken × List Char) :=
  if c.isAlpha then
    let (word, rest) := withMark (String.ofList (c :: cs.takeWhile Char.isAlphanum))
      (cs.dropWhile Char.isAlphanum)
    .ok (.name word, rest)
  else if c.isDigit then
    let rest := cs.dropWhile Char.isDigit
    if (rest.head?.map Char.isAlpha).getD false then
      .error .digitFirst
    else
      .ok (.integer (String.ofList (c :: cs.takeWhile Char.isDigit)), rest)
  else if c = '"' then
    match cs.dropWhile (· != '"') with
    | [] => .error .unterminatedQuote
    | _ :: rest => .ok (.quoted (String.ofList (cs.takeWhile (· != '"'))), rest)
  else if c ∈ symbols then
    .ok (.symbol c, cs)
  else
    .error (.unexpectedChar c)

/-- Scans a text.  Every round takes a character at least, so a fuel of the
    length of the text is enough. -/
def scanFrom : Nat → List Char → Except SyntaxFault (List QueryToken)
  | _, [] => .ok []
  | 0, _ :: _ => .ok []
  | fuel + 1, c :: cs =>
    if Text.isBlank c then
      scanFrom fuel cs
    else do
      let (token, rest) ← atFront c cs
      let tokens ← scanFrom fuel rest
      .ok (token :: tokens)

/-- The tokens of a query text. -/
def scan (text : String) : Except SyntaxFault (List QueryToken) :=
  scanFrom text.toList.length text.toList

end QueryToken

end ProgramQuery
