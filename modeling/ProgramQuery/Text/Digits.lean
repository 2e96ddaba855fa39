/-
  ProgramQuery.Text.Digits

  Integers as texts.

  Integer constants have no bound, so they stay texts, in the canonical form
  without leading zeros: two digit texts denote the same number exactly when
  their canonical forms agree.  Where a number of bounded size is wanted
  (statement numbers, timeouts, log levels, the fields of an answer) it is read
  digit by digit, and the reading says why it stopped.
-/

namespace ProgramQuery.Text

/-! ## Canonical form -/

/-- The text without leading zeros; `0` if nothing is left. -/
def canonicalDigits (cs : List Char) : List Char :=
  match cs.dropWhile (· == '0') with
  | [] => ['0']
  | rest => rest

/-- `canonicalDigits` on strings. -/
def canonicalInteger (s : String) : String :=
  String.ofList (canonicalDigits s.toList)

/-- The value of a decimal digit. -/
def digitValue (c : Char) : Nat :=
  c.toNat - '0'.toNat

/-- The number that a text of digits denotes. -/
def digitsValue (cs : List Char) : Nat :=
  cs.foldl (fun n c => 10 * n + digitValue c) 0

/-! ## Bounded reading -/

/-- Why a text is no number within its bound. -/
inductive NumberFault where
  | empty
  | badDigit
  | tooLarge
  deriving DecidableEq, Repr

/-- The wording of a fault. -/
def NumberFault.message : NumberFault → String
  | .empty => "cannot parse integer from empty string"
  | .badDigit => "invalid digit found in string"
  | .tooLarge => "number too large to fit in target type"

/-- Reads digits from left to right onto `value`.  At each place a character
    that is no digit is noticed before the bound is. -/
def readDigits (bound : Nat) : Nat → List Char → Except NumberFault Nat
  | value, [] => .ok value
  | value, c :: cs =>
    if !c.isDigit then
      .error .badDigit
    else
      let next := 10 * value + digitValue c
      if bound < next then .error .tooLarge else readDigits bound next cs

/-- Reads a number of at most `bound`: an optional plus sign, then one digit or more. -/
def readNumber (bound : Nat) : List Char → Except NumberFault Nat
  | [] => .error .empty
  | ['+'] => .error .badDigit
  | '+' :: cs => readDigits bound 0 cs
  | cs => readDigits bound 0 cs

/-- The largest number of 32 bits. -/
def max32 : Nat := 4294967295

/-- The largest number of 64 bits. -/
def max64 : Nat := 18446744073709551615

end ProgramQuery.Text
