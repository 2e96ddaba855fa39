/-
  ProgramQuery.Proofs.Batch.RoundTrip

  Files of cases are read as they were written.

  A written case (`WrittenCase`) is the five lines of its block with the blank
  lines in front of it, and the answers on its fourth line may have blanks around
  them.  Each line is read back by itself.  A heading is never blank, so blank
  lines are skipped up to it and nowhere else, and every block takes its own five
  lines, be they empty or not.
-/

import ProgramQuery.Batch.Case
import ProgramQuery.Proofs.Text.Lines

namespace ProgramQuery

/-! ## Written cases -/

/-- An answer with the blanks around it. -/
structure PaddedAnswer where
  before : List Char
  answer : String
  after : List Char
  before_blank : Text.isBlankText before = true := by decide +kernel
  after_blank : Text.isBlankText after = true := by decide +kernel
  answer_some : answer ≠ "" := by decide +kernel
  answer_squeezed : Text.squeeze answer.toList = answer.toList := by decide +kernel
  answer_whole : ',' ∉ answer.toList := by decide +kernel

namespace PaddedAnswer

def chars (a : PaddedAnswer) : List Char :=
  a.before ++ a.answer.toList ++ a.after

end PaddedAnswer

/-- A case as it stands in a file. -/
structure WrittenCase where
  /-- The blank lines in front of the block. -/
  skipped : List (List Char)
  id : String
  comment : String
  declarations : String
  selection : String
  /-- The blanks with which the line of answers begins.  It may hold nothing else. -/
  lead : List Char
  answers : List PaddedAnswer
  timeout : Option Nat
  skipped_blank : ∀ line ∈ skipped, Text.isBlankText line = true := by decide +kernel
  id_some : id ≠ "" := by decide +kernel
  id_trimmed : Text.trimString id = id := by decide +kernel
  id_undashed : '-' ∉ id.toList := by decide +kernel
  comment_trimmed : Text.trimString comment = comment := by decide +kernel
  declarations_trimmed : Text.trimString declarations = declarations := by decide +kernel
  selection_trimmed : Text.trimString selection = selection := by decide +kernel
  lead_blank : Text.isBlankText lead = true := by decide +kernel
  timeout_le : ∀ limit ∈ timeout, limit ≤ Text.max64 := by decide +kernel

namespace WrittenCase

/-- The line of answers. -/
def expectedLine (c : WrittenCase) : List Char :=
  c.lead ++ List.intercalate [','] (c.answers.map PaddedAnswer.chars)

/-- The line of the time limit, empty if there is none. -/
def timeoutLine (c : WrittenCase) : List Char :=
  match c.timeout with
  | none => []
  | some limit => (toString limit).toList

/-- The lines of a case. -/
def lines (c : WrittenCase) : List (List Char) :=
  c.skipped ++ [(c.id ++ " - " ++ c.comment).toList, c.declarations.toList, c.selection.toList,
    c.expectedLine, c.timeoutLine]

/-- The case that is meant. -/
def case (c : WrittenCase) : QueryCase where
  id := c.id
  comment := c.comment
  query := Text.trimString (c.declarations ++ " " ++ c.selection)
  expected := c.answers.map PaddedAnswer.answer
  timeout := c.timeout

end WrittenCase

/-- Some cases, with blank lines at the end. -/
structure CaseFile where
  cases : List WrittenCase
  trailing : List (List Char)
  trailing_blank : ∀ line ∈ trailing, Text.isBlankText line = true

/-- The lines of a file. -/
def CaseFile.lines (f : CaseFile) : List (List Char) :=
  f.cases.flatMap WrittenCase.lines ++ f.trailing

namespace QueryCase

/-! ## Single lines -/

/-- A text without a dash is cut at the separator that follows it. -/
theorem cutAt?_append {before : List Char} (h : '-' ∉ before) (after : List Char) :
    cutAt? [' ', '-', ' '] (before ++ ' ' :: '-' :: ' ' :: after) = some (before, after) := by
  induction before with
  | nil => rfl
  | cons c before ih =>
    rw [List.mem_cons, not_or] at h
    -- The separator starts no earlier: a dash would have to come second.
    have h_start : List.isPrefixOf [' ', '-', ' ']
        (c :: (before ++ ' ' :: '-' :: ' ' :: after)) = false := by
      cases before with
      | nil => simp [List.isPrefixOf]
      | cons d before =>
        have h_d : '-' ≠ d := fun h_eq => h.2 (h_eq ▸ List.mem_cons_self ..)
        simp [List.isPrefixOf, h_d]
    rw [List.cons_append, cutAt?, h_start, ih h.2]
    rfl

theorem readHeading_written (c : WrittenCase) :
    readHeading (c.id ++ " - " ++ c.comment).toList = (c.id.toList, c.comment.toList) := by
  have h_line : (c.id ++ " - " ++ c.comment).toList =
      c.id.toList ++ ' ' :: '-' :: ' ' :: c.comment.toList := by
    simp [String.toList_append]
  rw [readHeading, h_line, cutAt?_append c.id_undashed]
  simp only [Text.trim_toList c.id_trimmed, Text.trim_toList c.comment_trimmed]

/-- A heading has an identifier, so it is not blank. -/
theorem isBlankText_heading (c : WrittenCase) :
    Text.isBlankText (c.id ++ " - " ++ c.comment).toList = false := by
  have h_id : Text.isBlankText c.id.toList = false := by
    refine Text.isBlankText_of_trimmed (Text.trim_toList c.id_trimmed) fun h_nil => c.id_some ?_
    exact String.toList_eq_nil_iff.1 h_nil
  rw [String.toList_append, String.toList_append, Text.isBlankText, List.all_append,
    List.all_append, ← Text.isBlankText, h_id]
  rfl

theorem joinQuery_written (c : WrittenCase) :
    String.ofList (joinQuery c.declarations.toList c.selection.toList) =
      Text.trimString (c.declarations ++ " " ++ c.selection) := by
  rw [joinQuery, Text.trim_toList c.declarations_trimmed, Text.trim_toList c.selection_trimmed,
    Text.trimString, String.toList_append, String.toList_append]
  simp

theorem readTimeout_written (c : WrittenCase) (number : Nat) :
    readTimeout number c.timeoutLine = .ok c.timeout := by
  have h_le := c.timeout_le
  rw [WrittenCase.timeoutLine]
  cases h_timeout : c.timeout with
  | none => rfl
  | some limit =>
    have h_word := Text.isWord_of_isNumeral (Text.isNumeral_toString limit)
    have h_trim : Text.trim (toString limit).toList = (toString limit).toList :=
      Text.trim_of_unblank fun _ hc => Text.not_isBlank_of_isWord h_word hc
    have h_some : (toString limit).toList.isEmpty = false := by
      have h_digits := (Text.isNumeral_iff.1 (Text.isNumeral_toString limit)).1
      rw [Text.isDigitString, Bool.and_eq_true, Bool.not_eq_true'] at h_digits
      exact h_digits.1
    have h_read := Text.readNumber_toString (h_le limit h_timeout)
    simp only [readTimeout, h_trim, h_some, h_read, Bool.false_eq_true, if_false]

/-! ## Answers -/

theorem comma_not_mem_of_isBlankText {cs : List Char} (h : Text.isBlankText cs = true) :
    ',' ∉ cs := by
  intro h_comma
  have h_blank : Text.isBlank ',' = true := List.all_eq_true.1 h ',' h_comma
  exact absurd h_blank (by decide)

theorem comma_not_mem_chars (a : PaddedAnswer) : ',' ∉ a.chars := by
  rw [PaddedAnswer.chars, List.mem_append, List.mem_append, not_or, not_or]
  exact ⟨⟨comma_not_mem_of_isBlankText a.before_blank, a.answer_whole⟩,
    comma_not_mem_of_isBlankText a.after_blank⟩

theorem squeeze_chars (a : PaddedAnswer) : Text.squeeze a.chars = a.answer.toList := by
  rw [PaddedAnswer.chars, Text.squeeze_padded a.before_blank a.after_blank, a.answer_squeezed]

/-- Squeezed answers are kept, since none is empty. -/
theorem filter_answers (answers : List PaddedAnswer) :
    (answers.map fun a => a.answer.toList).filter (!·.isEmpty) =
      answers.map fun a => a.answer.toList := by
  rw [List.filter_eq_self]
  intro cs h_cs
  obtain ⟨a, -, rfl⟩ := List.mem_map.1 h_cs
  rw [Bool.not_eq_true', List.isEmpty_eq_false_iff]
  exact fun h_nil => a.answer_some (String.toList_eq_nil_iff.1 h_nil)

theorem readExpected_written (c : WrittenCase) :
    (readExpected c.expectedLine).map String.ofList = c.answers.map PaddedAnswer.answer := by
  rw [WrittenCase.expectedLine]
  cases c.answers with
  | nil =>
    -- The line is one blank piece, of which nothing is left.
    have h_lead := comma_not_mem_of_isBlankText c.lead_blank
    have h_squeeze := Text.squeeze_blanks_append c.lead_blank []
    rw [List.append_nil] at h_squeeze
    rw [readExpected, List.map_nil, List.intercalate_nil, List.append_nil,
      Text.pieces_of_uncut (Text.uncut_of_not_mem h_lead), List.map_singleton, h_squeeze]
    rfl
  | cons a rest =>
    have h_whole : ∀ part ∈ (c.lead ++ a.chars) :: rest.map PaddedAnswer.chars,
        ∀ x ∈ part, (x == ',') = false := by
      rw [List.forall_mem_cons, List.forall_mem_map]
      refine ⟨Text.uncut_of_not_mem ?_, fun b _ => Text.uncut_of_not_mem (comma_not_mem_chars b)⟩
      rw [List.mem_append, not_or]
      exact ⟨comma_not_mem_of_isBlankText c.lead_blank, comma_not_mem_chars a⟩
    have h_squeeze : ((c.lead ++ a.chars) :: rest.map PaddedAnswer.chars).map Text.squeeze =
        (a :: rest).map fun b => b.answer.toList := by
      rw [List.map_cons, List.map_map, Text.squeeze_blanks_append c.lead_blank, squeeze_chars,
        List.map_cons]
      congr 1
      exact List.map_congr_left fun b _ => squeeze_chars b
    rw [readExpected, List.map_cons, Text.append_intercalate_cons,
      Text.pieces_intercalate (by decide) (List.cons_ne_nil _ _) h_whole, h_squeeze,
      filter_answers, List.map_map]
    exact List.map_congr_left fun b _ => String.ofList_toList

/-! ## Blocks -/

theorem readLines_cons_of_blank {line : List Char} (h : Text.isBlankText line = true)
    (number : Nat) (rest : List (List Char)) :
    readLines number (line :: rest) = readLines (number + 1) rest := by
  rw [readLines.eq_def]
  simp only [h, if_true]

theorem readLines_skipped {skipped : List (List Char)}
    (h : ∀ line ∈ skipped, Text.isBlankText line = true) (number : Nat) (rest : List (List Char)) :
    readLines number (skipped ++ rest) = readLines (number + skipped.length) rest := by
  induction skipped generalizing number with
  | nil => rfl
  | cons line skipped ih =>
    obtain ⟨h_line, h_skipped⟩ := List.forall_mem_cons.1 h
    rw [List.cons_append, readLines_cons_of_blank h_line, ih h_skipped, List.length_cons,
      Nat.add_right_comm, Nat.add_assoc]

/-- A block is read as its case, and reading goes on after it. -/
theorem readLines_written (c : WrittenCase) {rest : List (List Char)} {later : List QueryCase}
    (h_rest : ∀ number, readLines number rest = .ok later) (number : Nat) :
    readLines number (c.lines ++ rest) = .ok (c.case :: later) := by
  have h_heading : ¬ Text.isBlankText (c.id ++ " - " ++ c.comment).toList = true := by
    rw [isBlankText_heading]
    exact Bool.false_ne_true
  rw [WrittenCase.lines, List.append_assoc, readLines_skipped c.skipped_blank]
  simp only [List.cons_append, List.nil_append]
  rw [readLines, if_neg h_heading]
  simp only [readTimeout_written, readHeading_written, h_rest, readExpected_written,
    joinQuery_written, String.ofList_toList]
  rfl

theorem readLines_file (f : CaseFile) (number : Nat) :
    readLines number f.lines = .ok (f.cases.map WrittenCase.case) := by
  have h_trailing : ∀ n, readLines n f.trailing = .ok [] := by
    intro n
    rw [← List.append_nil f.trailing, readLines_skipped f.trailing_blank, readLines]
  rw [CaseFile.lines]
  induction f.cases generalizing number with
  | nil => exact h_trailing number
  | cons c rest ih =>
    rw [List.flatMap_cons, List.append_assoc, List.map_cons]
    exact readLines_written c ih number

/-- Cases that are written into a file are read from it, in their order.  The lines of the file may
    end in either way, and the last one need not be ended. -/
theorem cases_read_back (f : CaseFile) :
    (∀ text : String, Text.HasLines text.toList f.lines →
      readAll text = .ok (f.cases.map WrittenCase.case)) ∧
    ((∀ line ∈ f.lines, '\n' ∉ line ∧ '\r' ∉ line) →
      readAll (String.ofList (Text.endLines f.lines)) = .ok (f.cases.map WrittenCase.case)) := by
  have h_read : ∀ text : String, Text.HasLines text.toList f.lines →
      readAll text = .ok (f.cases.map WrittenCase.case) := by
    intro text h_lines
    rw [readAll, Text.hasLines_iff.1 h_lines, readLines_file]
  refine ⟨h_read, fun h_ends => h_read _ ?_⟩
  rw [String.toList_ofList]
  exact Text.hasLines_endLines h_ends

/-- Two cases with a blank line between them.  The second expects no answer and sets no limit. -/
def twoCases : CaseFile where
  cases := [
    { skipped := []
      id := "1"
      comment := "first"
      declarations := "stmt s;"
      selection := "Select s"
      lead := []
      answers := [{ before := [], answer := "1", after := [' '] },
        { before := [' '], answer := "2", after := [] }]
      timeout := some 5000 },
    { skipped := [[]]
      id := "2"
      comment := "none"
      declarations := "assign a;"
      selection := "Select a"
      lead := []
      answers := []
      timeout := none }]
  trailing := []
  trailing_blank := by decide

/-- The empty lines at the end of the second block are its own. -/
theorem two_cases_read_back :
    readAll "1 - first\nstmt s;\nSelect s\n1 , 2\n5000\n\n2 - none\nassign a;\nSelect a\n\n\n" =
      .ok [⟨"1", "first", "stmt s; Select s", ["1", "2"], some 5000⟩,
        ⟨"2", "none", "assign a; Select a", [], none⟩] ∧
    readAll "1 - first\r\nstmt s;\nSelect s\n1 , 2\n5000\n\r\n2 - none\nassign a;\nSelect a\n\n\r\n"
      = .ok (twoCases.cases.map WrittenCase.case) := by
  have h_cases : twoCases.cases.map WrittenCase.case =
      [⟨"1", "first", "stmt s; Select s", ["1", "2"], some 5000⟩,
        ⟨"2", "none", "assign a; Select a", [], none⟩] := by decide +kernel
  have h_text : String.ofList (Text.endLines twoCases.lines) =
      "1 - first\nstmt s;\nSelect s\n1 , 2\n5000\n\n2 - none\nassign a;\nSelect a\n\n\n" := by
    decide +kernel
  constructor
  · rw [← h_cases, ← h_text]
    exact (cases_read_back twoCases).2 (by decide +kernel)
  · exact (cases_read_back twoCases).1 _ (Text.hasLines_iff.2 (by decide +kernel))

end QueryCase

end ProgramQuery
