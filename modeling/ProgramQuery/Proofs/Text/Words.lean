/-
  ProgramQuery.Proofs.Text.Words

  Words: names and strings of digits.

  A name starts with a letter, so it is never a string of digits, and neither
  holds a blank.  The canonical form of digits is the decimal form of the number
  that they denote, so two strings of digits have one canonical form exactly
  when they denote the same number.  A numeral is a string that is its own
  canonical form; numerals are told apart by their values.
-/

import Mathlib.Algebra.GroupWithZero.Nat
import Mathlib.Data.List.Induction
import ProgramQuery.Text.Blank
import ProgramQuery.Text.Digits
import ProgramQuery.Text.Name

namespace ProgramQuery.Text

/-! ## Characters -/

/-- The code points of letters. -/
theorem codePoint_of_isAlpha {c : Char} (h : c.isAlpha = true) :
    (65 ≤ c.val.toNat ∧ c.val.toNat ≤ 90) ∨ (97 ≤ c.val.toNat ∧ c.val.toNat ≤ 122) := by
  have h_case : (c.isUpper || c.isLower) = true := h
  have h_upper : c.isUpper = decide (65 ≤ c.val ∧ c.val ≤ 90) := rfl
  have h_lower : c.isLower = (decide (97 ≤ c.val) && decide (c.val ≤ 122)) := rfl
  rw [Bool.or_eq_true, h_upper, h_lower] at h_case
  simp only [Bool.and_eq_true, decide_eq_true_eq, UInt32.le_iff_toNat_le] at h_case
  exact h_case

/-- No letter is a digit. -/
theorem not_isDigit_of_isAlpha {c : Char} (h : c.isAlpha = true) : c.isDigit = false := by
  have h_letter := codePoint_of_isAlpha h
  simp only [Char.isDigit, Bool.and_eq_false_iff, decide_eq_false_iff_not, ge_iff_le,
    UInt32.le_iff_toNat_le]
  have h_9 : '9'.val.toNat = 57 := rfl
  omega

/-- No letter is blank. -/
theorem not_isBlank_of_isAlpha {c : Char} (h : c.isAlpha = true) : isBlank c = false := by
  have h_letter := codePoint_of_isAlpha h
  have h_c : c.toNat = c.val.toNat := rfl
  simp only [isBlank, Bool.or_eq_false_iff, Bool.and_eq_false_iff, decide_eq_false_iff_not,
    beq_eq_false_iff_ne, ne_eq]
  omega

/-- No digit is blank. -/
theorem not_isBlank_of_isDigit {c : Char} (h : c.isDigit = true) : isBlank c = false := by
  simp only [Char.isDigit, Bool.and_eq_true, decide_eq_true_eq, ge_iff_le,
    UInt32.le_iff_toNat_le] at h
  have h_0 : '0'.val.toNat = 48 := rfl
  have h_9 : '9'.val.toNat = 57 := rfl
  have h_c : c.toNat = c.val.toNat := rfl
  simp only [isBlank, Bool.or_eq_false_iff, Bool.and_eq_false_iff, decide_eq_false_iff_not,
    beq_eq_false_iff_ne, ne_eq]
  omega

theorem digitValue_lt {c : Char} (h : c.isDigit = true) : digitValue c < 10 := by
  have h_range := Char.isDigit_iff_toNat.1 h
  have h_0 : '0'.toNat = 48 := rfl
  have h_9 : '9'.toNat = 57 := rfl
  unfold digitValue
  omega

/-- A digit is the character of its value. -/
theorem digitChar_digitValue {c : Char} (h : c.isDigit = true) :
    (digitValue c).digitChar = c := by
  have h_range := Char.isDigit_iff_toNat.1 h
  have h_0 : '0'.toNat = 48 := rfl
  have h_9 : '9'.toNat = 57 := rfl
  have h_char : ∀ d < 10, d.digitChar.toNat = 48 + d := by decide
  apply Char.toNat_inj.1
  rw [h_char _ (digitValue_lt h)]
  unfold digitValue
  omega

/-! ## Strings of digits -/

/-- A string of decimal digits, one at least. -/
def isDigitString (s : String) : Bool :=
  !s.toList.isEmpty && s.toList.all Char.isDigit

/-- No name is a string of digits. -/
theorem name_ne_digits {name digits : String} (h_name : isNameString name = true)
    (h_digits : isDigitString digits = true) : name ≠ digits := by
  rintro rfl
  unfold isNameString at h_name
  unfold isDigitString at h_digits
  cases h_chars : name.toList with
  | nil => simp [h_chars, isName] at h_name
  | cons c cs =>
    rw [h_chars, isName, Bool.and_eq_true] at h_name
    simp [h_chars, not_isDigit_of_isAlpha h_name.1] at h_digits

/-- The canonical form of digits is made of digits. -/
theorem isDigitString_canonicalDigits {cs : List Char} (h : cs.all Char.isDigit = true) :
    isDigitString (String.ofList (canonicalDigits cs)) = true := by
  unfold isDigitString canonicalDigits
  rw [String.toList_ofList]
  split
  · decide
  · rename_i h_some
    have h_all : (cs.dropWhile (· == '0')).all Char.isDigit = true := by
      rw [List.all_eq_true] at h ⊢
      exact fun c hc => h c ((List.dropWhile_suffix _).subset hc)
    rw [Bool.and_eq_true, Bool.not_eq_true', List.isEmpty_eq_false_iff]
    exact ⟨h_some, h_all⟩

/-! ## Values -/

theorem digitsValue_eq_ofDigitChars (cs : List Char) :
    digitsValue cs = Nat.ofDigitChars 10 cs 0 :=
  Nat.ofDigitChars_eq_foldl.symm

theorem digitsValue_concat (cs : List Char) (c : Char) :
    digitsValue (cs ++ [c]) = 10 * digitsValue cs + digitValue c := by
  simp [digitsValue]

theorem digitsValue_cons (c : Char) (cs : List Char) :
    digitsValue (c :: cs) = 10 ^ cs.length * digitValue c + digitsValue cs := by
  have h_fold : digitsValue (c :: cs) = Nat.ofDigitChars 10 cs (digitValue c) := by
    rw [digitsValue, List.foldl_cons, Nat.mul_zero, Nat.zero_add, Nat.ofDigitChars_eq_foldl]
    rfl
  rw [h_fold, Nat.ofDigitChars_eq_ofDigitChars_zero, digitsValue_eq_ofDigitChars]

/-- Digits denote a number with no more digits. -/
theorem digitsValue_lt_pow {cs : List Char} (h : cs.all Char.isDigit = true) :
    digitsValue cs < 10 ^ cs.length := by
  induction cs with
  | nil => decide
  | cons c cs ih =>
    rw [List.all_cons, Bool.and_eq_true] at h
    have h_rest := ih h.2
    have h_first : 10 ^ cs.length * digitValue c ≤ 10 ^ cs.length * 9 :=
      Nat.mul_le_mul_left _ (Nat.le_of_lt_succ (digitValue_lt h.1))
    rw [digitsValue_cons, List.length_cons, Nat.pow_succ]
    omega

theorem digitValue_lt_digitValue {c d : Char} (h_c : c.isDigit = true) (h : c < d) :
    digitValue c < digitValue d := by
  have h_c := (Char.isDigit_iff_toNat.1 h_c).1
  have h_lt : c.toNat < d.toNat := h
  unfold digitValue
  omega

/-- Of digits of one length, those that come first as texts denote the smaller number. -/
theorem digitsValue_lt_digitsValue {xs ys : List Char} (h_length : xs.length = ys.length)
    (h_xs : xs.all Char.isDigit = true) (h_ys : ys.all Char.isDigit = true) (h : xs < ys) :
    digitsValue xs < digitsValue ys := by
  induction xs generalizing ys with
  | nil =>
    cases ys with
    | nil => simp at h
    | cons d ys => simp at h_length
  | cons c xs ih =>
    cases ys with
    | nil => simp at h_length
    | cons d ys =>
      rw [List.length_cons, List.length_cons, Nat.succ_inj] at h_length
      rw [List.all_cons, Bool.and_eq_true] at h_xs h_ys
      rw [digitsValue_cons, digitsValue_cons, h_length]
      rcases List.cons_lt_cons_iff.1 h with h_lt | ⟨rfl, h_lt⟩
      · -- The first digit outweighs all that follow.
        have h_rest := digitsValue_lt_pow h_xs.2
        have h_first : 10 ^ ys.length * (digitValue c + 1) ≤ 10 ^ ys.length * digitValue d :=
          Nat.mul_le_mul_left _ (digitValue_lt_digitValue h_xs.1 h_lt)
        rw [h_length] at h_rest
        rw [Nat.mul_add, Nat.mul_one] at h_first
        omega
      · exact Nat.add_lt_add_left (ih h_length h_xs.2 h_ys.2 h_lt) _

theorem le_foldl_digits (cs : List Char) (value : Nat) :
    value ≤ cs.foldl (fun n c => 10 * n + digitValue c) value := by
  induction cs generalizing value with
  | nil => exact Nat.le_refl value
  | cons c cs ih =>
    have h_next := ih (10 * value + digitValue c)
    rw [List.foldl_cons]
    omega

/-- Digits are read as the number that they denote, if it is within the bound. -/
theorem readDigits_eq_ok {bound value n : Nat} {cs : List Char} (h_value : value ≤ bound) :
    readDigits bound value cs = .ok n ↔ cs.all Char.isDigit = true ∧
      n = cs.foldl (fun n c => 10 * n + digitValue c) value ∧ n ≤ bound := by
  induction cs generalizing value with
  | nil =>
    simp only [readDigits, Except.ok.injEq, List.all_nil, List.foldl_nil, true_and]
    constructor
    · intro h
      subst h
      exact ⟨rfl, h_value⟩
    · intro h
      exact h.1.symm
  | cons c cs ih =>
    have h_grows := le_foldl_digits cs (10 * value + digitValue c)
    by_cases h_digit : c.isDigit = true
    · by_cases h_next : bound < 10 * value + digitValue c
      · simp only [readDigits, h_digit, h_next, List.foldl_cons]
        simp only [Bool.not_true, Bool.false_eq_true, if_false, if_true, reduceCtorEq, false_iff]
        rintro ⟨-, rfl, h_le⟩
        omega
      · simp only [readDigits, h_digit, h_next, List.foldl_cons, List.all_cons, Bool.true_and]
        simp only [Bool.not_true, Bool.false_eq_true, if_false]
        exact ih (by omega)
    · simp [readDigits, h_digit]

theorem readNumber_of_digits {bound : Nat} {cs : List Char}
    (h : isDigitString (String.ofList cs) = true) :
    readNumber bound cs = readDigits bound 0 cs := by
  unfold isDigitString at h
  rw [String.toList_ofList] at h
  unfold readNumber
  split
  · cases h
  · cases h
  · simp at h
  · rfl

/-- Leading zeros do not change the number. -/
theorem digitsValue_canonicalDigits (cs : List Char) :
    digitsValue (canonicalDigits cs) = digitsValue cs := by
  have h_drop : digitsValue (cs.dropWhile (· == '0')) = digitsValue cs := by
    induction cs with
    | nil => rfl
    | cons c cs ih =>
      by_cases h_zero : (c == '0') = true
      · rw [List.dropWhile_cons, if_pos h_zero, ih, eq_of_beq h_zero]
        rfl
      · rw [List.dropWhile_cons, if_neg h_zero]
  rw [← h_drop]
  unfold canonicalDigits
  split
  · rename_i h_nil
    rw [h_nil]
    rfl
  · rfl

/-! ## Canonical forms are decimal forms -/

theorem canonicalDigits_of_ne {cs : List Char} (h : cs.dropWhile (· == '0') ≠ []) :
    canonicalDigits cs = cs.dropWhile (· == '0') := by
  unfold canonicalDigits
  split
  · rename_i h_nil
    exact absurd h_nil h
  · rfl

/-- A digit that follows zeros only is the whole canonical form. -/
theorem canonicalDigits_concat_of_zeros {cs : List Char} (c : Char)
    (h : cs.dropWhile (· == '0') = []) : canonicalDigits (cs ++ [c]) = [c] := by
  unfold canonicalDigits
  rw [List.dropWhile_append, h]
  by_cases h_zero : c = '0' <;> simp [h_zero]

/-- A digit that follows one other than zero extends the canonical form. -/
theorem canonicalDigits_concat_of_ne {cs : List Char} (c : Char)
    (h : cs.dropWhile (· == '0') ≠ []) :
    canonicalDigits (cs ++ [c]) = canonicalDigits cs ++ [c] := by
  have h_some : (cs.dropWhile (· == '0')).isEmpty = false := List.isEmpty_eq_false_iff.2 h
  have h_drop : (cs ++ [c]).dropWhile (· == '0') = cs.dropWhile (· == '0') ++ [c] := by
    rw [List.dropWhile_append, h_some]
    rfl
  rw [canonicalDigits_of_ne h, ← h_drop]
  apply canonicalDigits_of_ne
  rw [h_drop]
  simp

/-- Digits that are not all zero do not denote zero. -/
theorem digitsValue_ne_zero {cs : List Char} (h : cs.all Char.isDigit = true)
    (h_some : cs.dropWhile (· == '0') ≠ []) : digitsValue cs ≠ 0 := by
  rw [← digitsValue_canonicalDigits, canonicalDigits_of_ne h_some]
  have h_head := List.head_dropWhile_not (· == '0') h_some
  cases h_drop : cs.dropWhile (· == '0') with
  | nil => exact absurd h_drop h_some
  | cons c rest =>
    have h_mem : c ∈ cs :=
      (List.dropWhile_suffix (· == '0')).subset (h_drop ▸ List.mem_cons_self)
    have h_c : c.isDigit = true := List.all_eq_true.1 h c h_mem
    have h_ne : c ≠ '0' := by simpa [h_drop] using h_head
    have h_first : digitValue c ≠ 0 := by
      intro h_zero
      rw [← digitChar_digitValue h_c, h_zero] at h_ne
      exact h_ne rfl
    have h_le : 10 * 0 + digitValue c ≤ digitsValue (c :: rest) := le_foldl_digits rest _
    omega

/-- The canonical form of digits is the decimal form of their value. -/
theorem canonicalDigits_eq_toDigits {cs : List Char} (h : cs.all Char.isDigit = true) :
    canonicalDigits cs = Nat.toDigits 10 (digitsValue cs) := by
  -- From the left: each further digit is the last digit of the new value.
  induction cs using List.reverseRecOn with
  | nil => rfl
  | append_singleton cs c ih =>
    rw [List.all_append, Bool.and_eq_true] at h
    obtain ⟨h_cs, h_c⟩ := h
    have h_digit : c.isDigit = true := by simpa using h_c
    have h_lt := digitValue_lt h_digit
    rw [digitsValue_concat]
    by_cases h_zeros : cs.dropWhile (· == '0') = []
    · have h_value : digitsValue cs = 0 := by
        rw [← digitsValue_canonicalDigits]
        unfold canonicalDigits
        rw [h_zeros]
        rfl
      rw [canonicalDigits_concat_of_zeros c h_zeros, h_value, Nat.mul_zero, Nat.zero_add,
        Nat.toDigits_of_lt_base h_lt, digitChar_digitValue h_digit]
    · have h_value := digitsValue_ne_zero h_cs h_zeros
      have h_base : 10 ≤ 10 * digitsValue cs + digitValue c := by omega
      have h_div : (10 * digitsValue cs + digitValue c) / 10 = digitsValue cs := by omega
      have h_mod : (10 * digitsValue cs + digitValue c) % 10 = digitValue c := by omega
      rw [canonicalDigits_concat_of_ne c h_zeros, ih h_cs,
        Nat.toDigits_of_base_le (by decide) h_base, h_div, h_mod, digitChar_digitValue h_digit]

/-- Digits have one canonical form exactly when they denote one number. -/
theorem canonicalDigits_eq_iff {xs ys : List Char} (h_xs : xs.all Char.isDigit = true)
    (h_ys : ys.all Char.isDigit = true) :
    canonicalDigits xs = canonicalDigits ys ↔ digitsValue xs = digitsValue ys := by
  constructor
  · intro h
    rw [← digitsValue_canonicalDigits xs, h, digitsValue_canonicalDigits]
  · intro h
    rw [canonicalDigits_eq_toDigits h_xs, canonicalDigits_eq_toDigits h_ys, h]

/-! ## Numerals -/

/-- A string of digits without a leading zero, unless it is `0` itself. -/
def isNumeral (s : String) : Bool :=
  isDigitString s && canonicalInteger s == s

theorem isNumeral_iff {s : String} :
    isNumeral s = true ↔ isDigitString s = true ∧ canonicalInteger s = s := by
  rw [isNumeral, Bool.and_eq_true, beq_iff_eq]

/-- Canonical forms are numerals. -/
theorem isNumeral_canonicalDigits {cs : List Char} (h : cs.all Char.isDigit = true) :
    isNumeral (String.ofList (canonicalDigits cs)) = true := by
  have h_digits := isDigitString_canonicalDigits h
  have h_all : (canonicalDigits cs).all Char.isDigit = true := by
    simpa [isDigitString] using (Bool.and_eq_true_iff.1 h_digits).2
  refine isNumeral_iff.2 ⟨h_digits, ?_⟩
  rw [canonicalInteger, String.toList_ofList,
    (canonicalDigits_eq_iff h_all h).2 (digitsValue_canonicalDigits cs)]

/-- A number is written as a numeral. -/
theorem isNumeral_toString (n : Nat) : isNumeral (toString n) = true := by
  have h_digits : (Nat.toDigits 10 n).all Char.isDigit = true :=
    List.all_eq_true.2 fun _ hc => Nat.isDigit_of_mem_toDigits (by decide) (by decide) hc
  have h_value : digitsValue (Nat.toDigits 10 n) = n := by
    rw [digitsValue_eq_ofDigitChars, Nat.ofDigitChars_ten_toDigits]
  have h_form : canonicalDigits (Nat.toDigits 10 n) = Nat.toDigits 10 n := by
    rw [canonicalDigits_eq_toDigits h_digits, h_value]
  rw [Nat.toString_eq_ofList_toDigits, ← h_form]
  exact isNumeral_canonicalDigits h_digits

theorem digitsValue_toString (n : Nat) : digitsValue (toString n).toList = n := by
  rw [Nat.toString_eq_ofList_toDigits, String.toList_ofList, digitsValue_eq_ofDigitChars,
    Nat.ofDigitChars_ten_toDigits]

/-- A number is read as it is written, if it is within the bound. -/
theorem readNumber_toString {bound n : Nat} (h : n ≤ bound) :
    readNumber bound (toString n).toList = .ok n := by
  have h_digits := (isNumeral_iff.1 (isNumeral_toString n)).1
  rw [readNumber_of_digits (by rwa [String.ofList_toList]), readDigits_eq_ok (Nat.zero_le bound)]
  exact ⟨(Bool.and_eq_true_iff.1 h_digits).2, (digitsValue_toString n).symm, h⟩

/-- Two numbers are written alike only if they are one. -/
theorem toString_eq_iff {m n : Nat} : toString m = toString n ↔ m = n := by
  constructor
  · intro h
    rw [← digitsValue_toString m, h, digitsValue_toString]
  · rintro rfl
    rfl

/-- The canonical form of digits is how their value is written. -/
theorem canonicalDigits_eq_toString {cs : List Char} (h : cs.all Char.isDigit = true) :
    String.ofList (canonicalDigits cs) = toString (digitsValue cs) := by
  rw [canonicalDigits_eq_toDigits h, Nat.toString_eq_ofList_toDigits]

theorem canonicalInteger_eq_toString {s : String} (h : isDigitString s = true) :
    canonicalInteger s = toString (digitsValue s.toList) :=
  canonicalDigits_eq_toString (Bool.and_eq_true_iff.1 h).2

theorem numeral_eq_toString {s : String} (h : isNumeral s = true) :
    s = toString (digitsValue s.toList) := by
  obtain ⟨h_digits, h_form⟩ := isNumeral_iff.1 h
  rw [← canonicalInteger_eq_toString h_digits, h_form]

/-- Numerals are told apart by their values. -/
theorem numeral_ext {s t : String} (h_s : isNumeral s = true) (h_t : isNumeral t = true)
    (h : digitsValue s.toList = digitsValue t.toList) : s = t := by
  obtain ⟨h_s, h_s_form⟩ := isNumeral_iff.1 h_s
  obtain ⟨h_t, h_t_form⟩ := isNumeral_iff.1 h_t
  rw [← h_s_form, ← h_t_form, canonicalInteger, canonicalInteger,
    (canonicalDigits_eq_iff (Bool.and_eq_true_iff.1 h_s).2 (Bool.and_eq_true_iff.1 h_t).2).2 h]

/-! ## Words -/

/-- A name or a numeral. -/
def isWord (s : String) : Bool :=
  isNameString s || isNumeral s

theorem isWord_of_isNameString {s : String} (h : isNameString s = true) : isWord s = true := by
  rw [isWord, h, Bool.true_or]

theorem isWord_of_isNumeral {s : String} (h : isNumeral s = true) : isWord s = true := by
  rw [isWord, h, Bool.or_true]

/-- A word of digits is a numeral. -/
theorem isNumeral_of_isWord {s : String} (h : isWord s = true) (h_digits : isDigitString s = true) :
    isNumeral s = true := by
  rw [isWord, Bool.or_eq_true] at h
  exact h.resolve_left fun h_name => name_ne_digits h_name h_digits rfl

/-- No character of a word is blank. -/
theorem not_isBlank_of_isWord {s : String} (h : isWord s = true) {c : Char} (hc : c ∈ s.toList) :
    isBlank c = false := by
  rw [isWord, Bool.or_eq_true] at h
  rcases h with h_name | h_numeral
  · have h_char : c.isAlphanum = true := by
      unfold isNameString at h_name
      cases h_chars : s.toList with
      | nil => simp [h_chars] at hc
      | cons first rest =>
        rw [h_chars, isName, Bool.and_eq_true, List.all_eq_true] at h_name
        rw [h_chars, List.mem_cons] at hc
        rcases hc with rfl | hc
        · rw [Char.isAlphanum, h_name.1, Bool.true_or]
        · exact h_name.2 c hc
    rw [Char.isAlphanum, Bool.or_eq_true] at h_char
    exact h_char.elim not_isBlank_of_isAlpha not_isBlank_of_isDigit
  · have h_digits := (Bool.and_eq_true_iff.1 (isNumeral_iff.1 h_numeral).1).2
    exact not_isBlank_of_isDigit (List.all_eq_true.1 h_digits c hc)

/-! ## Pieces -/

section

variable {cut : Char → Bool} {c : Char} {part : List Char}

theorem uncut_of_not_mem (h : c ∉ part) : ∀ x ∈ part, (x == c) = false := by
  intro x hx
  rw [beq_eq_false_iff_ne]
  exact fun h_eq => h (h_eq ▸ hx)

theorem pieces_of_uncut (h : ∀ x ∈ part, cut x = false) : pieces cut part = [part] := by
  induction part with
  | nil => rfl
  | cons x part ih =>
    obtain ⟨h_x, h_part⟩ := List.forall_mem_cons.1 h
    simp [pieces, h_x, ih h_part]

theorem pieces_ne_nil (cut : Char → Bool) (cs : List Char) : pieces cut cs ≠ [] := by
  cases cs with
  | nil => exact List.cons_ne_nil _ _
  | cons x cs =>
    rw [pieces]
    split
    · exact List.cons_ne_nil _ _
    · split <;> exact List.cons_ne_nil _ _

/-- A cut separates the pieces before it from those after it. -/
theorem pieces_append (h_c : cut c = true) (before after : List Char) :
    pieces cut (before ++ c :: after) = pieces cut before ++ pieces cut after := by
  induction before with
  | nil => simp [pieces, h_c]
  | cons x before ih =>
    obtain ⟨part, rest, h_pieces⟩ := List.exists_cons_of_ne_nil (pieces_ne_nil cut before)
    simp only [List.cons_append, pieces, ih, h_pieces]
    split <;> rfl

theorem pieces_append_cons (h_c : cut c = true) (h : ∀ x ∈ part, cut x = false)
    (rest : List Char) : pieces cut (part ++ c :: rest) = part :: pieces cut rest := by
  rw [pieces_append h_c, pieces_of_uncut h, List.singleton_append]

/-- What comes before the first of some texts goes to its front. -/
theorem append_intercalate_cons (between lead first : List Char) (rest : List (List Char)) :
    lead ++ List.intercalate between (first :: rest) =
      List.intercalate between ((lead ++ first) :: rest) := by
  cases rest <;> simp [List.intercalate_cons_cons]

/-- The pieces of a text, put together with the separator, are the text again. -/
theorem intercalate_pieces (c : Char) (cs : List Char) :
    List.intercalate [c] (pieces (· == c) cs) = cs := by
  induction cs with
  | nil => rfl
  | cons x cs ih =>
    obtain ⟨part, rest, h_pieces⟩ := List.exists_cons_of_ne_nil (pieces_ne_nil (· == c) cs)
    rw [h_pieces] at ih
    by_cases h_x : x = c
    · subst h_x
      rw [pieces, if_pos (beq_self_eq_true x), h_pieces, List.intercalate_cons_cons, ih]
      rfl
    · -- Any other character goes to the front of the first piece.
      have h_join := append_intercalate_cons [c] [x] part rest
      rw [ih, List.singleton_append, List.singleton_append] at h_join
      rw [pieces, if_neg (by simpa using h_x), h_pieces, h_join]

/-- Texts that are put together with a separator are its pieces. -/
theorem pieces_intercalate (h_c : cut c = true) {parts : List (List Char)} (h_some : parts ≠ [])
    (h : ∀ part ∈ parts, ∀ x ∈ part, cut x = false) :
    pieces cut (List.intercalate [c] parts) = parts := by
  induction parts with
  | nil => exact absurd rfl h_some
  | cons part rest ih =>
    obtain ⟨h_part, h_rest⟩ := List.forall_mem_cons.1 h
    cases rest with
    | nil => rw [List.intercalate_singleton, pieces_of_uncut h_part]
    | cons next more =>
      rw [List.intercalate_cons_cons, List.append_assoc, List.singleton_append,
        pieces_append_cons h_c h_part, ih (List.cons_ne_nil _ _) h_rest]

end

end ProgramQuery.Text
