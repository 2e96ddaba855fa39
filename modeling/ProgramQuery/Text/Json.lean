/-
  ProgramQuery.Text.Json

  JSON documents as they are reported: objects keep their fields in the order
  given, numbers are natural, and the text is laid out with two spaces a level
  and one element a line.
-/

namespace ProgramQuery.Text

/-- A JSON document. -/
inductive Json where
  | bool (value : Bool)
  | number (value : Nat)
  | text (value : String)
  | list (items : List Json)
  | object (fields : List (String × Json))
  deriving Repr

namespace Json

/-- A list of strings as a document. -/
def texts (items : List String) : Json :=
  .list (items.map .text)

/-! ## Strings -/

/-- The lower-case hexadecimal digit of a number below sixteen. -/
def hexDigit (n : Nat) : Char :=
  if n < 10 then Char.ofNat (48 + n) else Char.ofNat (87 + n)

/-- A character as it stands between quotes. -/
def escapeChar (c : Char) : List Char :=
  if c = '"' then ['\\', '"']
  else if c = '\\' then ['\\', '\\']
  else if c = '\n' then ['\\', 'n']
  else if c = '\r' then ['\\', 'r']
  else if c = '\t' then ['\\', 't']
  else if c.toNat = 8 then ['\\', 'b']
  else if c.toNat = 12 then ['\\', 'f']
  else if c.toNat < 32 then
    ['\\', 'u', '0', '0', hexDigit (c.toNat / 16), hexDigit (c.toNat % 16)]
  else [c]

/-- A string between quotes. -/
def quote (s : String) : String :=
  String.ofList ('"' :: s.toList.flatMap escapeChar ++ ['"'])

/-! ## Layout -/

/-- The white space of one level. -/
def indent (level : Nat) : String :=
  String.ofList (List.replicate (2 * level) ' ')

/-- Elements between two brackets, one a line; empty brackets stay together. -/
def bracket (opening closing : String) (level : Nat) (elements : List String) : String :=
  if elements.isEmpty then
    opening ++ closing
  else
    opening ++ "\n" ++
      String.intercalate ",\n" (elements.map (indent (level + 1) ++ ·)) ++
      "\n" ++ indent level ++ closing

mutual

/-- The text of a document whose first line stands at the given level. -/
def layout (level : Nat) : Json → String
  | .bool value => if value then "true" else "false"
  | .number value => toString value
  | .text value => quote value
  | .list items => bracket "[" "]" level (layoutItems (level + 1) items)
  | .object fields => bracket "\x7b" "\x7d" level (layoutFields (level + 1) fields)

/-- The texts of the elements of a list. -/
def layoutItems (level : Nat) : List Json → List String
  | [] => []
  | item :: rest => layout level item :: layoutItems level rest

/-- The texts of the fields of an object. -/
def layoutFields (level : Nat) : List (String × Json) → List String
  | [] => []
  | (key, value) :: rest => (quote key ++ ": " ++ layout level value) :: layoutFields level rest

end

/-- The text of a document, without a final line end. -/
def pretty (doc : Json) : String :=
  layout 0 doc

end Json

end ProgramQuery.Text
