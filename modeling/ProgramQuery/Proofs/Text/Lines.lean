/-
  ProgramQuery.Proofs.Text.Lines

  Lines, and the blanks around what stands on them.

  A line feed ends a line, alone or after a carriage return; the last line need
  not be ended (`HasLines`).  Squeezing a text takes away the blanks around it,
  because they only separate words that are empty.
-/

import Mathlib.Data.List.TakeWhile
import ProgramQuery.Proofs.Text.Words

namespace ProgramQuery.Text

/-! ## Trimming -/

theorem trim_toList {s : String} (h : trimString s = s) : trim s.toList = s.toList := by
  have h_chars := congrArg String.toList h
  rwa [trimString, String.toList_ofList] at h_chars

theorem trim_of_isBlankText {cs : List Char} (h : isBlankText cs = true) : trim cs = [] := by
  have h_left : trimLeft cs = [] := List.dropWhile_eq_nil_iff.2 (List.all_eq_true.1 h)
  rw [trim, h_left]
  rfl

/-- A trimmed text that is not empty is not blank. -/
theorem isBlankText_of_trimmed {cs : List Char} (h_trim : trim cs = cs) (h_some : cs ≠ []) :
    isBlankText cs = false := by
  rw [Bool.eq_false_iff]
  intro h_blank
  exact h_some (h_trim.symm.trans (trim_of_isBlankText h_blank))

theorem trim_of_unblank {cs : List Char} (h : ∀ c ∈ cs, isBlank c = false) : trim cs = cs := by
  have h_drop : ∀ {l : List Char}, (∀ c ∈ l, isBlank c = false) → l.dropWhile isBlank = l := by
    intro l hl
    cases l with
    | nil => rfl
    | cons c l => rw [List.dropWhile_cons, if_neg (by simp [hl c (List.mem_cons_self ..)])]
  rw [trim, trimLeft, h_drop h, trimRight, h_drop fun c hc => h c (List.mem_reverse.1 hc),
    List.reverse_reverse]

/-! ## Squeezing -/

/-- A blank separates the words before it from those after it. -/
theorem words_append {c : Char} (h_c : isBlank c = true) (before after : List Char) :
    words (before ++ c :: after) = words before ++ words after := by
  rw [words, pieces_append h_c, List.filter_append]
  rfl

theorem words_blanks_append {blanks : List Char} (h : isBlankText blanks = true)
    (cs : List Char) : words (blanks ++ cs) = words cs := by
  induction blanks with
  | nil => rfl
  | cons c blanks ih =>
    obtain ⟨h_c, h_blanks⟩ := Bool.and_eq_true_iff.1 h
    exact (words_append h_c [] (blanks ++ cs)).trans (ih h_blanks)

theorem words_append_blanks {blanks : List Char} (h : isBlankText blanks = true)
    (cs : List Char) : words (cs ++ blanks) = words cs := by
  cases blanks with
  | nil => rw [List.append_nil]
  | cons c blanks =>
    obtain ⟨h_c, h_blanks⟩ := Bool.and_eq_true_iff.1 h
    have h_none : words (blanks ++ []) = [] := words_blanks_append h_blanks []
    rw [List.append_nil] at h_none
    rw [words_append h_c, h_none, List.append_nil]

theorem squeeze_blanks_append {blanks : List Char} (h : isBlankText blanks = true)
    (cs : List Char) : squeeze (blanks ++ cs) = squeeze cs := by
  rw [squeeze, words_blanks_append h, squeeze]

/-- Blanks around a text are squeezed away. -/
theorem squeeze_padded {before after : List Char} (h_before : isBlankText before = true)
    (h_after : isBlankText after = true) (cs : List Char) :
    squeeze (before ++ cs ++ after) = squeeze cs := by
  rw [squeeze, words_append_blanks h_after, ← squeeze, squeeze_blanks_append h_before]

/-! ## Lines -/

/-- A text with its lines. -/
inductive HasLines : List Char → List (List Char) → Prop
  | nil : HasLines [] []
  /-- The last line need not be ended, unless it is empty. -/
  | last {line : List Char} (h_some : line ≠ []) (h_line : '\n' ∉ line) : HasLines line [line]
  | feed {line text : List Char} {rest : List (List Char)} (h_line : '\n' ∉ line)
      (h_end : line.getLast? ≠ some '\r') (h_rest : HasLines text rest) :
      HasLines (line ++ '\n' :: text) (line :: rest)
  | returnFeed {line text : List Char} {rest : List (List Char)} (h_line : '\n' ∉ line)
      (h_rest : HasLines text rest) : HasLines (line ++ '\r' :: '\n' :: text) (line :: rest)

/-- A text in which a line feed ends each line. -/
def endLines (ls : List (List Char)) : List Char :=
  ls.flatMap (· ++ ['\n'])

theorem hasLines_endLines {ls : List (List Char)} (h : ∀ line ∈ ls, '\n' ∉ line ∧ '\r' ∉ line) :
    HasLines (endLines ls) ls := by
  induction ls with
  | nil => exact .nil
  | cons line ls ih =>
    obtain ⟨⟨h_feed, h_return⟩, h_rest⟩ := List.forall_mem_cons.1 h
    have h_end : line.getLast? ≠ some '\r' := fun h_last => h_return (List.mem_of_getLast? h_last)
    have h_text : endLines (line :: ls) = line ++ '\n' :: endLines ls := by
      simp [endLines]
    rw [h_text]
    exact .feed h_feed h_end (ih h_rest)

theorem lines_append_feed {line : List Char} (h : '\n' ∉ line) (text : List Char) :
    lines (line ++ '\n' :: text) = dropReturn line :: lines text := by
  obtain ⟨piece, pieces, h_pieces⟩ := List.exists_cons_of_ne_nil (pieces_ne_nil (· == '\n') text)
  rw [lines, pieces_append_cons (by decide) (uncut_of_not_mem h), lines, h_pieces]
  rfl

theorem lines_of_hasLines {text : List Char} {ls : List (List Char)} (h : HasLines text ls) :
    lines text = ls := by
  induction h with
  | nil => rfl
  | @last line h_some h_line =>
    rw [lines, pieces_of_uncut (uncut_of_not_mem h_line), linesOfPieces, if_neg]
    rwa [List.isEmpty_iff]
  | @feed line text rest h_line h_end _ ih =>
    rw [lines_append_feed h_line, dropReturn, if_neg h_end, ih]
  | @returnFeed line text rest h_line _ ih =>
    have h_text : line ++ '\r' :: '\n' :: text = (line ++ ['\r']) ++ '\n' :: text := by simp
    have h_feed : '\n' ∉ line ++ ['\r'] := by simp [h_line]
    rw [h_text, lines_append_feed h_feed, ih]
    simp [dropReturn]

theorem hasLines_lines (text : List Char) : HasLines text (lines text) := by
  -- Each line feed leaves a shorter text.
  induction h_length : text.length using Nat.strongRecOn generalizing text with
  | ind length ih =>
    by_cases h_feed : '\n' ∈ text
    · obtain ⟨line, rest, rfl, h_line⟩ := List.eq_append_cons_of_mem h_feed
      have h_shorter : rest.length < length := by
        rw [← h_length, List.length_append, List.length_cons]
        omega
      have h_rest := ih rest.length h_shorter rest rfl
      rw [lines_append_feed h_line, dropReturn]
      split
      · rename_i h_end
        obtain ⟨init, rfl⟩ := List.getLast?_eq_some_iff.1 h_end
        rw [List.dropLast_concat, List.append_assoc]
        exact .returnFeed (fun h_mem => h_line (List.mem_append_left _ h_mem)) h_rest
      · rename_i h_end
        exact .feed h_line h_end h_rest
    · rw [lines, pieces_of_uncut (uncut_of_not_mem h_feed), linesOfPieces]
      split
      · rename_i h_empty
        rw [List.isEmpty_iff] at h_empty
        rw [h_empty]
        exact .nil
      · rename_i h_some
        rw [List.isEmpty_iff] at h_some
        exact .last h_some h_feed

/-- The lines that are read are the lines of the text. -/
theorem hasLines_iff {text : List Char} {ls : List (List Char)} :
    HasLines text ls ↔ lines text = ls := by
  constructor
  · exact lines_of_hasLines
  · intro h
    rw [← h]
    exact hasLines_lines text

end ProgramQuery.Text
