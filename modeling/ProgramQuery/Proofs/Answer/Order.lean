/-
  ProgramQuery.Proofs.Answer.Order

  Answers come in order, and fields of digits in the order of their values.

  The order of answers compares them field by field.  It is total and transitive,
  so sorting puts every answer before those that it does not exceed.  Where two
  answers first differ in fields of digits, the fields are numerals, and the one
  with the smaller value comes first.  Values of more than 64 bits are compared as
  texts, which is the order of the values only for digits of one length.
-/

import ProgramQuery.Proofs.Answer.Words

namespace ProgramQuery

namespace Answer

/-! ## The order -/

instance orientedCmp_fieldOrder : Std.OrientedCmp fieldOrder where
  eq_swap {x y} := by
    unfold fieldOrder
    cases fieldNumber? x <;> cases fieldNumber? y
    · exact Std.OrientedOrd.eq_swap
    · rfl
    · rfl
    · exact Std.OrientedOrd.eq_swap

instance transCmp_fieldOrder : Std.TransCmp fieldOrder where
  isLE_trans {x y z} h_xy h_yz := by
    -- Numbers come before texts, so the kinds of the three fields ascend as well.
    cases h_x : fieldNumber? x <;> cases h_y : fieldNumber? y <;> cases h_z : fieldNumber? z <;>
      simp only [fieldOrder, h_x, h_y, h_z] at h_xy h_yz ⊢
    · exact Std.TransOrd.isLE_trans h_xy h_yz
    · cases h_yz
    · cases h_xy
    · cases h_xy
    · rfl
    · cases h_yz
    · rfl
    · exact Std.TransOrd.isLE_trans h_xy h_yz

theorem fieldsOrder_eq_compareLex : fieldsOrder = List.compareLex fieldOrder := by
  funext xs ys
  induction xs generalizing ys with
  | nil => cases ys <;> rfl
  | cons x xs ih =>
    cases ys with
    | nil => rfl
    | cons y ys =>
      rw [fieldsOrder, List.compareLex_cons_cons, ih]
      cases fieldOrder x y <;> rfl

instance transCmp_fieldsOrder : Std.TransCmp fieldsOrder := by
  rw [fieldsOrder_eq_compareLex]
  infer_instance

instance transCmp_order : Std.TransCmp order where
  eq_swap {a b} := by
    show fieldsOrder (fields a) (fields b) = (fieldsOrder (fields b) (fields a)).swap
    exact Std.OrientedCmp.eq_swap
  isLE_trans {a b c} h_ab h_bc := by
    show (fieldsOrder (fields a) (fields c)).isLE = true
    exact Std.TransCmp.isLE_trans h_ab h_bc

/-- Sorted answers are in order. -/
theorem pairwise_sort (answers : List String) :
    (sort answers).Pairwise fun x y => (order x y).isLE = true := by
  refine List.pairwise_mergeSort (fun a b c h_ab h_bc => ?_) (fun a b => ?_) answers
  · exact Std.TransCmp.isLE_trans h_ab h_bc
  · have h_swap : order a b = (order b a).swap := Std.OrientedCmp.eq_swap
    rw [h_swap]
    cases order b a <;> rfl

/-- Fields that two answers share at their start leave the decision to the next field. -/
theorem fieldsOrder_append (shared : List (List Char)) (f g : List Char)
    (xs ys : List (List Char)) :
    fieldsOrder (shared ++ f :: xs) (shared ++ g :: ys) =
      (fieldOrder f g).then (fieldsOrder xs ys) := by
  rw [fieldsOrder_eq_compareLex]
  induction shared with
  | nil => rw [List.nil_append, List.nil_append, List.compareLex_cons_cons]
  | cons h shared ih =>
    have h_self : fieldOrder h h = .eq := Std.ReflCmp.compare_self
    rw [List.cons_append, List.cons_append, List.compareLex_cons_cons, h_self, ih]
    rfl

/-! ## Fields of digits -/

theorem lt_of_isLE_compare {s t : String} (h : (compare s t).isLE = true) (h_ne : s ≠ t) :
    s < t := by
  cases h_order : compare s t with
  | lt => exact compareOfLessAndEq_eq_lt.1 h_order
  | eq => exact absurd (Std.LawfulEqOrd.eq_of_compare h_order) h_ne
  | gt =>
    rw [h_order] at h
    cases h

/-- Digits are a number if their value has at most 64 bits. -/
theorem fieldNumber?_of_digits {f : List Char} (h : Text.isDigitString (String.ofList f) = true) :
    fieldNumber? f =
      if Text.digitsValue f ≤ Text.max64 then some (Text.digitsValue f) else none := by
  have h_all : f.all Char.isDigit = true := by
    simpa using (Bool.and_eq_true_iff.1 h).2
  have h_read : ∀ n, Text.readDigits Text.max64 0 f = .ok n ↔
      n = Text.digitsValue f ∧ n ≤ Text.max64 := by
    intro n
    rw [Text.readDigits_eq_ok (Nat.zero_le _), Text.digitsValue]
    simp only [h_all, true_and]
  rw [fieldNumber?, Text.readNumber_of_digits h]
  cases h_n : Text.readDigits Text.max64 0 f with
  | ok n =>
    obtain ⟨rfl, h_le⟩ := (h_read n).1 h_n
    rw [if_pos h_le]
    rfl
  | error fault =>
    rw [if_neg]
    · rfl
    · intro h_le
      rw [(h_read _).2 ⟨rfl, h_le⟩] at h_n
      cases h_n

/-- Digits that come in ascending order.  They are ordered by value, except that digits of
    different lengths are ordered as texts if both values have more than 64 bits. -/
def DigitsAscend (f g : List Char) : Prop :=
  if Text.max64 < Text.digitsValue f ∧ Text.max64 < Text.digitsValue g ∧ f.length ≠ g.length then
    String.ofList f < String.ofList g
  else
    Text.digitsValue f < Text.digitsValue g

/-- Different numerals ascend if they are in the order of fields. -/
theorem digitsAscend_of_fieldOrder {f g : List Char}
    (h_f : Text.isNumeral (String.ofList f) = true) (h_g : Text.isNumeral (String.ofList g) = true)
    (h_ne : f ≠ g) (h : (fieldOrder f g).isLE = true) : DigitsAscend f g := by
  have h_f_digits := (Text.isNumeral_iff.1 h_f).1
  have h_g_digits := (Text.isNumeral_iff.1 h_g).1
  have h_value : Text.digitsValue f ≠ Text.digitsValue g := by
    intro h_eq
    refine h_ne (String.ofList_inj.1 (Text.numeral_ext h_f h_g ?_))
    simpa using h_eq
  rw [fieldOrder, fieldNumber?_of_digits h_f_digits, fieldNumber?_of_digits h_g_digits] at h
  unfold DigitsAscend
  by_cases h_f_le : Text.digitsValue f ≤ Text.max64
  · -- The first field is a number, so the second is a larger number or no number at all.
    rw [if_neg (by omega)]
    by_cases h_g_le : Text.digitsValue g ≤ Text.max64
    · simp only [if_pos h_f_le, if_pos h_g_le] at h
      have h_le := Nat.isLE_compare.1 h
      omega
    · omega
  · by_cases h_g_le : Text.digitsValue g ≤ Text.max64
    · simp only [if_neg h_f_le, if_pos h_g_le] at h
      cases h
    · -- Neither is a number, so the texts decide; between equal lengths they decide by value.
      simp only [if_neg h_f_le, if_neg h_g_le] at h
      have h_lt : String.ofList f < String.ofList g :=
        lt_of_isLE_compare h fun h_eq => h_ne (String.ofList_inj.1 h_eq)
      by_cases h_length : f.length = g.length
      · rw [if_neg (by simp [h_length])]
        refine Text.digitsValue_lt_digitsValue h_length ?_ ?_ ?_
        · simpa using (Bool.and_eq_true_iff.1 h_f_digits).2
        · simpa using (Bool.and_eq_true_iff.1 h_g_digits).2
        · have h_chars : (String.ofList f).toList < (String.ofList g).toList := h_lt
          rwa [String.toList_ofList, String.toList_ofList] at h_chars
      · rw [if_pos ⟨by omega, by omega, h_length⟩]
        exact h_lt

/-! ## Answers -/

/-- The fields in which two answers first differ: they share all fields before these. -/
def FirstDifference (x y : String) (f g : List Char) : Prop :=
  ∃ shared xs ys, fields x = shared ++ f :: xs ∧ fields y = shared ++ g :: ys ∧ f ≠ g

/-- Answers in order are in the order of the fields in which they first differ. -/
theorem FirstDifference.isLE_fieldOrder {x y : String} {f g : List Char}
    (h : FirstDifference x y f g) (h_order : (order x y).isLE = true) :
    (fieldOrder f g).isLE = true := by
  obtain ⟨shared, xs, ys, h_x, h_y, -⟩ := h
  rw [order, h_x, h_y, fieldsOrder_append] at h_order
  cases h_fields : fieldOrder f g with
  | lt | eq => rfl
  | gt =>
    rw [h_fields] at h_order
    cases h_order

theorem sort_pair (a b : String) :
    sort [a, b] = if (order a b).isLE then [a, b] else [b, a] := by
  simp [sort, List.mergeSort, List.MergeSort.Internal.splitInTwo, List.merge]

end Answer

namespace FactBase

/-- A query for a constant without clauses is answered by all constants of the program, in order. -/
theorem answers_constants {p : NumberedProgram} (h : p.WellFormed) {q : Query} (h_typed : q.Typed)
    {s : Synonym} (h_entity : s.entity = .constant)
    (h_selection : q.selection = .tuple [.synonym s]) (h_clauses : q.clauses = [])
    (strategy : Strategy) :
    ∃ e, (ofProgram p).evaluate strategy q = .ok e ∧
      e.answers = Answer.sort (ofProgram p).constants.toList := by
  obtain ⟨e, h_e, h_answered⟩ := exists_answered_evaluate (ofProgram p) strategy h_typed
  obtain ⟨found, h_eq, h_found⟩ :=
    h_answered.exists_sorted (regular_ofProgram h) h_typed h_selection
  have h_constants : found = (ofProgram p).constants := by
    refine Std.ExtTreeSet.ext_mem fun x => (h_found x).trans ?_
    have h_domain : ∀ v, v ∈ (ofProgram p).domain s ↔
        ∃ x ∈ (ofProgram p).constants, .name x = v := by
      simp [domain, h_entity]
    have h_selected : ∀ t, t ∈ q.selected ↔ t = s := by
      simp [Query.selected, Selection.synonyms, Selection.elements, h_selection, Element.base]
    simp only [Solves, h_clauses, h_selected]
    constructor
    · rintro ⟨ν, ⟨h_ν, -⟩, texts, h_texts, rfl⟩
      obtain ⟨y, hy, h_y⟩ := (h_domain _).1 (h_ν s (.inl rfl))
      cases h_texts with
      | cons h_text h_rest =>
        cases h_rest
        rw [String.intercalate_singleton, ← show (ν s).text = _ from h_text, ← h_y]
        exact hy
    · intro hx
      refine ⟨fun _ => .name x, ⟨?_, by simp⟩, [x], .cons rfl .nil,
        String.intercalate_singleton.symm⟩
      rintro t (rfl | ⟨c, hc, -⟩)
      · exact (h_domain _).2 ⟨x, hx, rfl⟩
      · cases hc
  exact ⟨e, h_e, h_constants ▸ h_eq⟩

/-- The answers to a query for tuples about a program come in order: where two of them first
    differ in digits, these ascend. -/
theorem answers_ascend_by_value {source text : String} {p : Program} {q : Query}
    (h_program : Program.read source = .ok p) (h_query : Query.read text = .ok q)
    (strategy : Strategy) :
    ∃ e, (ofProgram p.numbered).evaluate strategy q = .ok e ∧
      ∀ elements, q.selection = .tuple elements → e.answers.Pairwise fun x y =>
        ∀ f g, Answer.FirstDifference x y f g →
          Text.isDigitString (String.ofList f) = true →
          Text.isDigitString (String.ofList g) = true → Answer.DigitsAscend f g := by
  have h_typed := Query.typed_of_read h_query
  have h_regular := regular_ofProgram (Program.wellFormed_of_read h_program)
  obtain ⟨e, h_e, h_answered⟩ := exists_answered_evaluate (ofProgram p.numbered) strategy h_typed
  refine ⟨e, h_e, fun elements h_tuple => ?_⟩
  have h_words := h_answered.isWord_of_mem h_program h_typed h_tuple
  obtain ⟨found, h_eq, -⟩ := h_answered.exists_sorted h_regular h_typed h_tuple
  -- Sorting gives the order of the fields; that they are words makes equal values equal fields.
  have h_sorted : e.answers.Pairwise fun x y => (Answer.order x y).isLE = true :=
    h_eq ▸ Answer.pairwise_sort _
  refine h_sorted.imp_of_mem fun {x y} hx hy h_order f g h_first h_f h_g => ?_
  have h_fields := h_first.isLE_fieldOrder h_order
  obtain ⟨shared, xs, ys, h_x, h_y, h_ne⟩ := h_first
  have h_f_word := h_words x hx f (by simp [h_x])
  have h_g_word := h_words y hy g (by simp [h_y])
  exact Answer.digitsAscend_of_fieldOrder (Text.isNumeral_of_isWord h_f_word h_f)
    (Text.isNumeral_of_isWord h_g_word h_g) h_ne h_fields

/-- A constant of more than 64 bits comes after `9`. -/
theorem constants_ascend_beyond_64_bits :
    ∃ p, Program.read "procedure p \x7b x = 18446744073709551616 + 9; \x7d" = .ok p ∧
      ∃ q, Query.read "constant c; Select c" = .ok q ∧ ∀ strategy,
        ∃ e, (ofProgram p.numbered).evaluate strategy q = .ok e ∧
          e.answers = ["9", "18446744073709551616"] ∧
          Answer.DigitsAscend "9".toList "18446744073709551616".toList := by
  refine exists_ok_of_test (fun p => (ofProgram p.numbered).constants.toList =
    ["18446744073709551616", "9"]) (by decide +kernel) fun p h_program h_p => ?_
  refine exists_ok_of_test (fun q => q.selection = .tuple [.synonym ⟨"c", .constant⟩] ∧
    q.clauses = []) (by decide +kernel) fun q h_query h_q strategy => ?_
  obtain ⟨h_selection, h_clauses⟩ := of_decide_eq_true h_q
  obtain ⟨e, h_e, h_ascend⟩ := answers_ascend_by_value h_program h_query strategy
  obtain ⟨e', h_e', h_answers⟩ := answers_constants (Program.wellFormed_of_read h_program)
    (Query.typed_of_read h_query) rfl h_selection h_clauses strategy
  obtain rfl := Except.ok.inj (h_e.symm.trans h_e')
  have h_sort : e.answers = ["9", "18446744073709551616"] := by
    rw [h_answers, of_decide_eq_true h_p, Answer.sort_pair]
    decide
  have h_pair := h_ascend _ h_selection
  rw [h_sort, List.pairwise_pair] at h_pair
  have h_first : Answer.FirstDifference "9" "18446744073709551616" "9".toList
      "18446744073709551616".toList := ⟨[], [], [], by decide, by decide, by decide⟩
  exact ⟨e, h_e, h_sort, h_pair _ _ h_first (by decide) (by decide)⟩

/-- Constants of different lengths that both have more than 64 bits can come in the wrong order. -/
theorem larger_constant_before_smaller :
    ∃ p, Program.read
        "procedure p \x7b x = 18446744073709551616 + 100000000000000000000; \x7d" = .ok p ∧
      ∃ q, Query.read "constant c; Select c" = .ok q ∧ ∀ strategy,
        ∃ e, (ofProgram p.numbered).evaluate strategy q = .ok e ∧
          e.answers = ["100000000000000000000", "18446744073709551616"] ∧
          Text.digitsValue "18446744073709551616".toList <
            Text.digitsValue "100000000000000000000".toList := by
  refine exists_ok_of_test (fun p => (ofProgram p.numbered).constants.toList =
    ["100000000000000000000", "18446744073709551616"]) (by decide +kernel) fun p h_program h_p => ?_
  refine exists_ok_of_test (fun q => q.selection = .tuple [.synonym ⟨"c", .constant⟩] ∧
    q.clauses = []) (by decide +kernel) fun q h_query h_q strategy => ?_
  obtain ⟨h_selection, h_clauses⟩ := of_decide_eq_true h_q
  obtain ⟨e, h_e, h_answers⟩ := answers_constants (Program.wellFormed_of_read h_program)
    (Query.typed_of_read h_query) rfl h_selection h_clauses strategy
  refine ⟨e, h_e, ?_, by decide⟩
  rw [h_answers, of_decide_eq_true h_p, Answer.sort_pair]
  decide

end FactBase

end ProgramQuery
