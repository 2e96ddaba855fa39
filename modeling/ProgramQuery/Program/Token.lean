/-
  ProgramQuery.Program.Token

  The tokens of a program text and where they stand.

  Scanning takes the longest name, digit run or symbol at each place and skips
  blanks between them.  There are no reserved words: a keyword is a name, and
  only its place makes it a keyword.  A token keeps the position of its first
  character; lines and columns count from one, and columns count characters.
-/

import ProgramQuery.Text.Blank
import ProgramQuery.Text.Digits

namespace ProgramQuery

/-! ## Tokens -/

/-- A place in a text. -/
structure Position where
  line : Nat
  column : Nat
  deriving DecidableEq, Repr

namespace Position

/-- The place of the first character. -/
def start : Position := ⟨1, 1⟩

/-- The place after the character `c`. -/
def after (p : Position) (c : Char) : Position :=
  if c = '\n' then ⟨p.line + 1, 1⟩ else ⟨p.line, p.column + 1⟩

/-- The place after a text. -/
def advance (p : Position) (cs : List Char) : Position :=
  cs.foldl after p

end Position

/-- The symbols of a program text. -/
inductive Symbol where
  | andAnd
  | orOr
  | equalEqual
  | notEqual
  | greaterEqual
  | lessEqual
  | openBrace
  | closeBrace
  | openParen
  | closeParen
  | semicolon
  | equal
  | plus
  | minus
  | star
  | slash
  | percent
  | greater
  | less
  | bang
  deriving DecidableEq, Repr

namespace Symbol

/-- The characters of a symbol. -/
def chars : Symbol → List Char
  | .andAnd => ['&', '&']
  | .orOr => ['|', '|']
  | .equalEqual => ['=', '=']
  | .notEqual => ['!', '=']
  | .greaterEqual => ['>', '=']
  | .lessEqual => ['<', '=']
  | .openBrace => ['{']
  | .closeBrace => ['}']
  | .openParen => ['(']
  | .closeParen => [')']
  | .semicolon => [';']
  | .equal => ['=']
  | .plus => ['+']
  | .minus => ['-']
  | .star => ['*']
  | .slash => ['/']
  | .percent => ['%']
  | .greater => ['>']
  | .less => ['<']
  | .bang => ['!']

/-- A symbol as it is written. -/
def text (s : Symbol) : String :=
  String.ofList s.chars

/-- All symbols, the longer ones first, so that the first match is the longest. -/
def all : List Symbol :=
  [.andAnd, .orOr, .equalEqual, .notEqual, .greaterEqual, .lessEqual,
    .openBrace, .closeBrace, .openParen, .closeParen, .semicolon, .equal,
    .plus, .minus, .star, .slash, .percent, .greater, .less, .bang]

/-- The longest symbol at the front of a text. -/
def atFront? (cs : List Char) : Option Symbol :=
  all.find? (fun s => s.chars.isPrefixOf cs)

end Symbol

/-- A token: an integer is kept in canonical form. -/
inductive Token where
  | name (text : String)
  | integer (digits : String)
  | symbol (symbol : Symbol)
  deriving DecidableEq, Repr

/-- A token as an error message shows it. -/
def Token.describe : Token → String
  | .name text => "name '" ++ text ++ "'"
  | .integer digits => "integer '" ++ digits ++ "'"
  | .symbol s => "'" ++ s.text ++ "'"

/-- A token and the position of its first character. -/
structure Located where
  token : Token
  pos : Position
  deriving DecidableEq, Repr

/-- The tokens of a text and the position of its end. -/
structure TokenStream where
  tokens : List Located
  finish : Position
  deriving DecidableEq, Repr

/-! ## Scanning -/

/-- A character at which no token starts. -/
structure StrayChar where
  char : Char
  pos : Position
  deriving DecidableEq, Repr

/-- The token at the front of a text that starts with no blank, together with
    its characters and the rest of the text. -/
def Token.atFront? (pos : Position) (cs : List Char) :
    Except StrayChar (Token × List Char × List Char) :=
  match cs with
  | [] => .error ⟨' ', pos⟩
  | c :: _ =>
    if c.isAlpha then
      let lexeme := cs.takeWhile Char.isAlphanum
      .ok (.name (String.ofList lexeme), lexeme, cs.dropWhile Char.isAlphanum)
    else if c.isDigit then
      let lexeme := cs.takeWhile Char.isDigit
      let rest := cs.dropWhile Char.isDigit
      match rest with
      | d :: _ =>
        if d.isAlpha then
          .error ⟨d, pos.advance lexeme⟩
        else
          .ok (.integer (String.ofList (Text.canonicalDigits lexeme)), lexeme, rest)
      | [] => .ok (.integer (String.ofList (Text.canonicalDigits lexeme)), lexeme, rest)
    else
      match Symbol.atFront? cs with
      | some s => .ok (.symbol s, s.chars, cs.drop s.chars.length)
      | none => .error ⟨c, pos⟩

/-- Scans a text from a position on.  Every round takes a character at least,
    so a fuel of the length of the text is enough. -/
def TokenStream.scanFrom : Nat → Position → List Char → Except StrayChar TokenStream
  | _, pos, [] => .ok ⟨[], pos⟩
  | 0, pos, _ :: _ => .ok ⟨[], pos⟩
  | fuel + 1, pos, c :: cs =>
    if Text.isBlank c then
      scanFrom fuel (pos.after c) cs
    else
      match Token.atFront? pos (c :: cs) with
      | .error stray => .error stray
      | .ok (token, lexeme, rest) =>
        match scanFrom fuel (pos.advance lexeme) rest with
        | .error stray => .error stray
        | .ok stream => .ok { stream with tokens := ⟨token, pos⟩ :: stream.tokens }

/-- The tokens of a text. -/
def TokenStream.scan (cs : List Char) : Except StrayChar TokenStream :=
  scanFrom cs.length .start cs

end ProgramQuery
