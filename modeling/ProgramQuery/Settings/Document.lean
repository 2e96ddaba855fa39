/-
  ProgramQuery.Settings.Document

  The written form of settings, a part of TOML: a line opens a section, gives a
  key of the present section a value, or holds nothing but a comment.  Values
  are strings, truth values and integers.  Within a document no section and
  within a section no key occurs twice.  A byte order mark may stand before the
  first line.
-/

import ProgramQuery.Text.Blank
import ProgramQuery.Text.Digits

namespace ProgramQuery.Settings

/-- A value that a key can have. -/
inductive Scalar where
  | text (value : String)
  | bool (value : Bool)
  | integer (value : Int)
  deriving DecidableEq, Repr

/-- The keys of a section with their values. -/
abbrev Section := List (String × Scalar)

/-- A document: the entries before the first section, and the named sections. -/
structure Document where
  top : Section
  sections : List (String × Section)
  deriving DecidableEq, Repr

/-- Why a text is no document; lines are counted from one. -/
inductive DocumentFault where
  | badLine (line : Nat)
  | repeatedKey (line : Nat) (key : String)
  | repeatedSection (line : Nat) (name : String)
  deriving DecidableEq, Repr

/-- The wording of a fault. -/
def DocumentFault.message : DocumentFault → String
  | .badLine line => "line " ++ toString line ++ " is neither a section nor an entry"
  | .repeatedKey line key => "line " ++ toString line ++ " repeats the key '" ++ key ++ "'"
  | .repeatedSection line name =>
    "line " ++ toString line ++ " repeats the section '" ++ name ++ "'"

/-! ## Parts of a line -/

/-- The blanks of a line: space and tab. -/
def isGap (c : Char) : Bool :=
  c == ' ' || c == '\t'

/-- The characters that strings and comments may hold as they are. -/
def isPlain (c : Char) : Bool :=
  c == '\t' || (32 ≤ c.toNat && c.toNat ≠ 127)

/-- The characters of a key. -/
def isKeyChar (c : Char) : Bool :=
  c.isAlphanum || c == '_' || c == '-'

/-- The characters of a value without quotes. -/
def isWordChar (c : Char) : Bool :=
  isKeyChar c || c == '+'

/-- Nothing but blanks and a comment are left of a line. -/
def isEnd (cs : List Char) : Bool :=
  match cs.dropWhile isGap with
  | [] => true
  | '#' :: comment => comment.all isPlain
  | _ => false

/-- A key at the beginning of a text, and the rest without blanks. -/
def readKey? (cs : List Char) : Option (String × List Char) :=
  match cs.takeWhile isKeyChar with
  | [] => none
  | key => some (String.ofList key, (cs.dropWhile isKeyChar).dropWhile isGap)

/-! ## Digits -/

/-- The value of a digit to a base up to sixteen. -/
def digit? (base : Nat) (c : Char) : Option Nat :=
  let value :=
    if c.isDigit then some (Text.digitValue c)
    else if 'a' ≤ c ∧ c ≤ 'f' then some (c.toNat - 87)
    else if 'A' ≤ c ∧ c ≤ 'F' then some (c.toNat - 55)
    else none
  value.filter (· < base)

/-- The number with the given digits, the highest first. -/
def valueOf (base : Nat) (digits : List Nat) : Nat :=
  digits.foldl (fun n d => base * n + d) 0

/-! ## Strings -/

/-- The character that a backslash and a letter stand for. -/
def escape? : Char → Option Char
  | 'b' => some '\x08'
  | 't' => some '\t'
  | 'n' => some '\n'
  | 'f' => some '\x0c'
  | 'r' => some '\r'
  | '"' => some '"'
  | '\\' => some '\\'
  | _ => none

/-- The character with a code point in hexadecimal digits. -/
def codePoint? (digits : List Char) : Option Char := do
  let n := valueOf 16 (← digits.mapM (digit? 16))
  if n.isValidChar then some (Char.ofNat n) else none

/-- The content of a string up to its closing quote, and what follows it. -/
def readQuoted? : List Char → Option (List Char × List Char)
  | [] => none
  | '"' :: rest => some ([], rest)
  | '\\' :: 'u' :: a :: b :: c :: d :: rest => do
    let point ← codePoint? [a, b, c, d]
    let (content, after) ← readQuoted? rest
    some (point :: content, after)
  | '\\' :: 'U' :: a :: b :: c :: d :: e :: f :: g :: h :: rest => do
    let point ← codePoint? [a, b, c, d, e, f, g, h]
    let (content, after) ← readQuoted? rest
    some (point :: content, after)
  | '\\' :: letter :: rest => do
    let escaped ← escape? letter
    let (content, after) ← readQuoted? rest
    some (escaped :: content, after)
  | c :: rest => do
    if isPlain c && c != '\\' then
      let (content, after) ← readQuoted? rest
      some (c :: content, after)
    else
      none

/-- The content of a string without escapes up to its closing quote, and what
    follows it. -/
def readLiteral? (cs : List Char) : Option (List Char × List Char) :=
  let content := cs.takeWhile (· != '\'')
  match cs.dropWhile (· != '\'') with
  | _ :: after => if content.all isPlain then some (content, after) else none
  | [] => none

/-! ## Values -/

/-- The digits of a number to a base, between which single underscores may stand. -/
def numeral? (base : Nat) : List Char → Option (List Nat)
  | [] => none
  | [c] => (digit? base c).map ([·])
  | c :: '_' :: rest => return (← digit? base c) :: (← numeral? base rest)
  | c :: rest => return (← digit? base c) :: (← numeral? base rest)

/-- A natural number to a base. -/
def natural? (base : Nat) (cs : List Char) : Option Nat :=
  (numeral? base cs).map (valueOf base)

/-- A natural number to the base ten, without leading zeros. -/
def decimal? (cs : List Char) : Option Nat :=
  if cs.head? = some '0' ∧ 1 < cs.length then none else natural? 10 cs

/-- An integer: a decimal number, which may have a sign, or a number to another
    base, which may not. -/
def unbounded? : List Char → Option Int
  | '-' :: digits => (decimal? digits).map fun n => -(n : Int)
  | '+' :: digits => (decimal? digits).map fun n => (n : Int)
  | '0' :: 'x' :: digits => (natural? 16 digits).map fun n => (n : Int)
  | '0' :: 'o' :: digits => (natural? 8 digits).map fun n => (n : Int)
  | '0' :: 'b' :: digits => (natural? 2 digits).map fun n => (n : Int)
  | digits => (decimal? digits).map fun n => (n : Int)

/-- The bound of signed integers of 64 bits. -/
def signedBound : Int := 9223372036854775808

/-- An integer of 64 bits. -/
def integer? (cs : List Char) : Option Int :=
  (unbounded? cs).filter fun n => -signedBound ≤ n && n < signedBound

/-- The value of a word without quotes. -/
def word? (cs : List Char) : Option Scalar :=
  if cs = "true".toList then some (.bool true)
  else if cs = "false".toList then some (.bool false)
  else (integer? cs).map .integer

/-- A value at the beginning of a text, and the rest. -/
def readScalar? : List Char → Option (Scalar × List Char)
  | '"' :: rest =>
    (readQuoted? rest).map fun (content, after) => (.text (String.ofList content), after)
  | '\'' :: rest =>
    (readLiteral? rest).map fun (content, after) => (.text (String.ofList content), after)
  | cs => (word? (cs.takeWhile isWordChar)).map fun value => (value, cs.dropWhile isWordChar)

/-! ## Lines and documents -/

/-- What a line says. -/
inductive Line where
  | nothing
  | opening (name : String)
  | entry (key : String) (value : Scalar)
  deriving DecidableEq, Repr

/-- The meaning of a line. -/
def Line.read? (line : List Char) : Option Line :=
  if isEnd line then
    some .nothing
  else
    match line.dropWhile isGap with
    | '[' :: rest =>
      match readKey? (rest.dropWhile isGap) with
      | some (name, ']' :: after) => if isEnd after then some (.opening name) else none
      | _ => none
    | cs =>
      match readKey? cs with
      | some (key, '=' :: rest) =>
        match readScalar? (rest.dropWhile isGap) with
        | some (value, after) => if isEnd after then some (.entry key value) else none
        | none => none
      | _ => none

namespace Document

/-- The document without entries. -/
def empty : Document := ⟨[], []⟩

/-- The keys that are taken where the next entry goes: the last section, or the
    top as long as there is none. -/
def openKeys (doc : Document) : List String :=
  match doc.sections.getLast? with
  | none => doc.top.map Prod.fst
  | some (_, entries) => entries.map Prod.fst

/-- The document with one more entry in its last section. -/
def addEntry (doc : Document) (key : String) (value : Scalar) : Document :=
  match doc.sections.getLast? with
  | none => { doc with top := doc.top ++ [(key, value)] }
  | some (name, entries) =>
    { doc with sections := doc.sections.dropLast ++ [(name, entries ++ [(key, value)])] }

/-- The document after one more line.  A key of the top and a section may not
    share a name. -/
def addLine (doc : Document) (number : Nat) : Line → Except DocumentFault Document
  | .nothing => .ok doc
  | .opening name =>
    if (doc.top.map Prod.fst ++ doc.sections.map Prod.fst).contains name then
      .error (.repeatedSection number name)
    else
      .ok { doc with sections := doc.sections ++ [(name, [])] }
  | .entry key value =>
    if doc.openKeys.contains key then
      .error (.repeatedKey number key)
    else
      .ok (doc.addEntry key value)

/-- The document with the lines of a text from the given number on. -/
def addLines (doc : Document) : Nat → List (List Char) → Except DocumentFault Document
  | _, [] => .ok doc
  | number, line :: rest => do
    match Line.read? line with
    | none => .error (.badLine number)
    | some l => (← doc.addLine number l).addLines (number + 1) rest

/-- A text without the byte order mark that it may begin with. -/
def skipMark : List Char → List Char
  | '\uFEFF' :: rest => rest
  | cs => cs

/-- The document of a text. -/
def read (text : String) : Except DocumentFault Document :=
  empty.addLines 1 (Text.lines (skipMark text.toList))

/-- The section of a name; one that is not there has no entries. -/
def get (doc : Document) (name : String) : Section :=
  (doc.sections.lookup name).getD []

end Document

end ProgramQuery.Settings
