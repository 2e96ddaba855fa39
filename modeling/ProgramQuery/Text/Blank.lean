/-
  ProgramQuery.Text.Blank

  Blank characters and the ways of cutting a text at them.

  A character is blank when it has the Unicode property White_Space; both the
  program scanner and the query scanner skip exactly these.  Texts are cut as
  lists of characters, so that every function here is a structural recursion.
-/

namespace ProgramQuery.Text

/-- The characters with the Unicode property White_Space. -/
def isBlank (c : Char) : Bool :=
  let n := c.toNat
  (9 ≤ n && n ≤ 13) || n == 0x20 || n == 0x85 || n == 0xA0 || n == 0x1680 ||
    (0x2000 ≤ n && n ≤ 0x200A) || n == 0x2028 || n == 0x2029 || n == 0x202F ||
    n == 0x205F || n == 0x3000

/-! ## Trimming -/

/-- The text without its leading blanks. -/
def trimLeft (cs : List Char) : List Char :=
  cs.dropWhile isBlank

/-- The text without its trailing blanks. -/
def trimRight (cs : List Char) : List Char :=
  (cs.reverse.dropWhile isBlank).reverse

/-- The text without the blanks at its two ends. -/
def trim (cs : List Char) : List Char :=
  trimRight (trimLeft cs)

/-- The string without the blanks at its two ends. -/
def trimString (s : String) : String :=
  String.ofList (trim s.toList)

/-- A text of blanks only, or the empty one. -/
def isBlankText (cs : List Char) : Bool :=
  cs.all isBlank

/-! ## Cutting -/

/-- The pieces of a text between the characters that satisfy `cut`; there is
    one piece more than there are such characters. -/
def pieces (cut : Char → Bool) : List Char → List (List Char)
  | [] => [[]]
  | c :: cs =>
    if cut c then
      [] :: pieces cut cs
    else
      match pieces cut cs with
      | [] => [[c]]
      | piece :: rest => (c :: piece) :: rest

/-- The maximal runs of characters that are not blank. -/
def words (cs : List Char) : List (List Char) :=
  (pieces isBlank cs).filter (!·.isEmpty)

/-- The text with every run of blanks replaced by one space and none at the ends. -/
def squeeze (cs : List Char) : List Char :=
  List.intercalate [' '] (words cs)

/-- A line without the carriage return that belongs to its line end. -/
def dropReturn (line : List Char) : List Char :=
  if line.getLast? = some '\r' then line.dropLast else line

/-- The lines of a text from its pieces between line feeds: only a line that a
    line feed ends loses a carriage return, and an empty last piece is no line. -/
def linesOfPieces : List (List Char) → List (List Char)
  | [] => []
  | [last] => if last.isEmpty then [] else [last]
  | line :: rest => dropReturn line :: linesOfPieces rest

/-- The lines of a text, without their line ends. -/
def lines (cs : List Char) : List (List Char) :=
  linesOfPieces (pieces (· == '\n') cs)

end ProgramQuery.Text
