/-
  ProgramQuery.Proofs.Answer.Strict

  No two answers tie.

  The order of answers is a total preorder on all texts, but not more: `7` and
  `007` are different texts that compare equal.  Answers about a program are made
  of words, and words that compare equal are equal, so its answers ascend
  strictly.  Hence only one list of them is in order, and it does not matter in
  which order they were found.
-/

import Mathlib.Data.List.Pairwise
import ProgramQuery.Proofs.Answer.Order

namespace ProgramQuery

/-- A comparison that is reflexive, total and transitive, and that turns around when its
    arguments are swapped. -/
structure IsTotalPreorder {α : Type} (cmp : α → α → Ordering) : Prop where
  refl : ∀ a, cmp a a = .eq
  total : ∀ a b, (cmp a b).isLE = true ∨ (cmp b a).isLE = true
  swap : ∀ a b, cmp b a = (cmp a b).swap
  trans : ∀ a b c, (cmp a b).isLE = true → (cmp b c).isLE = true → (cmp a c).isLE = true

namespace Answer

theorem isTotalPreorder_order : IsTotalPreorder order where
  refl _ := Std.ReflCmp.compare_self
  total a b := by
    have h_swap : order b a = (order a b).swap := Std.OrientedCmp.eq_swap
    rw [h_swap]
    cases order a b with
    | lt | eq => exact .inl rfl
    | gt => exact .inr rfl
  swap _ _ := Std.OrientedCmp.eq_swap
  trans _ _ _ h_ab h_bc := Std.TransCmp.isLE_trans h_ab h_bc

example : order "7" "007" = .eq := by decide

/-! ## Words -/

/-- A name is no number: it does not start with a digit or a sign. -/
theorem fieldNumber?_of_name {f : List Char} (h : Text.isNameString (String.ofList f) = true) :
    fieldNumber? f = none := by
  unfold Text.isNameString at h
  rw [String.toList_ofList] at h
  cases f with
  | nil => cases h
  | cons c cs =>
    rw [Text.isName, Bool.and_eq_true] at h
    have h_digit := Text.not_isDigit_of_isAlpha h.1
    have h_plus : c ≠ '+' := by
      rintro rfl
      exact absurd h.1 (by decide)
    have h_read :
        Text.readNumber Text.max64 (c :: cs) = Text.readDigits Text.max64 0 (c :: cs) := by
      unfold Text.readNumber
      split <;> simp_all
    rw [fieldNumber?, h_read, Text.readDigits, h_digit]
    rfl

/-- A word that is a number is the numeral of the number. -/
theorem isNumeral_of_fieldNumber? {f : List Char} (h : Text.isWord (String.ofList f) = true)
    {n : Nat} (h_n : fieldNumber? f = some n) :
    Text.isNumeral (String.ofList f) = true ∧ Text.digitsValue f = n := by
  rw [Text.isWord, Bool.or_eq_true] at h
  rcases h with h_name | h_numeral
  · rw [fieldNumber?_of_name h_name] at h_n
    cases h_n
  · refine ⟨h_numeral, ?_⟩
    rw [fieldNumber?_of_digits (Text.isNumeral_iff.1 h_numeral).1] at h_n
    split at h_n
    · exact Option.some.inj h_n
    · cases h_n

/-- Words that compare equal are equal. -/
theorem eq_of_fieldOrder_eq {f g : List Char} (h_f : Text.isWord (String.ofList f) = true)
    (h_g : Text.isWord (String.ofList g) = true) (h : fieldOrder f g = .eq) : f = g := by
  cases h_n : fieldNumber? f with
  | some n =>
    cases h_m : fieldNumber? g with
    | some m =>
      obtain ⟨h_f_numeral, h_f_value⟩ := isNumeral_of_fieldNumber? h_f h_n
      obtain ⟨h_g_numeral, h_g_value⟩ := isNumeral_of_fieldNumber? h_g h_m
      simp only [fieldOrder, h_n, h_m] at h
      have h_value : Text.digitsValue f = Text.digitsValue g := by
        rw [h_f_value, h_g_value]
        exact Std.LawfulEqOrd.eq_of_compare h
      -- Numerals have one form for each value.
      refine String.ofList_inj.1 (Text.numeral_ext h_f_numeral h_g_numeral ?_)
      simpa using h_value
    | none =>
      simp only [fieldOrder, h_n, h_m] at h
      cases h
  | none =>
    cases h_m : fieldNumber? g with
    | some m =>
      simp only [fieldOrder, h_n, h_m] at h
      cases h
    | none =>
      simp only [fieldOrder, h_n, h_m] at h
      exact String.ofList_inj.1 (Std.LawfulEqOrd.eq_of_compare h)

/-- Lists of words that compare equal are equal. -/
theorem eq_of_fieldsOrder_eq {xs ys : List (List Char)}
    (h_xs : ∀ x ∈ xs, Text.isWord (String.ofList x) = true)
    (h_ys : ∀ y ∈ ys, Text.isWord (String.ofList y) = true) (h : fieldsOrder xs ys = .eq) :
    xs = ys := by
  induction xs generalizing ys with
  | nil =>
    cases ys with
    | nil => rfl
    | cons y ys => cases h
  | cons x xs ih =>
    cases ys with
    | nil => cases h
    | cons y ys =>
      obtain ⟨h_x, h_xs⟩ := List.forall_mem_cons.1 h_xs
      obtain ⟨h_y, h_ys⟩ := List.forall_mem_cons.1 h_ys
      rw [fieldsOrder] at h
      split at h
      · rename_i h_first
        rw [eq_of_fieldOrder_eq h_x h_y h_first, ih h_xs h_ys h]
      · rename_i h_first
        exact absurd h h_first

/-- The fields of an answer determine it. -/
theorem eq_of_fields_eq {a b : String} (h : fields a = fields b) : a = b := by
  apply String.toList_inj.1
  rw [← Text.intercalate_pieces ' ' a.toList, ← Text.intercalate_pieces ' ' b.toList]
  exact congrArg (List.intercalate [' ']) h

/-- Answers made of words that compare equal are equal. -/
theorem eq_of_order_eq {a b : String}
    (h_a : ∀ f ∈ fields a, Text.isWord (String.ofList f) = true)
    (h_b : ∀ f ∈ fields b, Text.isWord (String.ofList f) = true) (h : order a b = .eq) : a = b :=
  eq_of_fields_eq (eq_of_fieldsOrder_eq h_a h_b h)

/-! ## Strict lists -/

/-- Distinct answers that do not tie are sorted to a list that ascends strictly. -/
theorem pairwise_lt_sort {found : List String} (h_nodup : found.Nodup)
    (h_ties : ∀ x ∈ found, ∀ y ∈ found, order x y = .eq → x = y) :
    (sort found).Pairwise fun x y => order x y = .lt := by
  have h_perm : (sort found).Perm found := List.mergeSort_perm ..
  have h_distinct : (sort found).Nodup := h_perm.nodup_iff.2 h_nodup
  refine ((pairwise_sort found).and h_distinct).imp_of_mem fun {x y} hx hy h_xy => ?_
  obtain ⟨h_le, h_ne⟩ := h_xy
  cases h_order : order x y with
  | lt => rfl
  | eq => exact absurd (h_ties x (h_perm.subset hx) y (h_perm.subset hy) h_order) h_ne
  | gt =>
    rw [h_order] at h_le
    cases h_le

theorem eq_of_order_eq_of_pairwise_lt {l : List String}
    (h : l.Pairwise fun x y => order x y = .lt) {x y : String} (hx : x ∈ l) (hy : y ∈ l)
    (h_eq : order x y = .eq) : x = y := by
  -- That two texts do not tie is symmetric, so it holds of any two members.
  have : Std.Symm fun x y : String => order x y ≠ .eq := by
    refine ⟨fun x y h_xy h_yx => h_xy ?_⟩
    rw [isTotalPreorder_order.swap, h_yx]
    rfl
  have h_apart : l.Pairwise fun x y => order x y ≠ .eq := h.imp fun h_lt h_eq => by
    rw [h_lt] at h_eq
    cases h_eq
  by_contra h_ne
  exact h_apart.forall hx hy h_ne h_eq

/-- A list that ascends strictly is what its members are sorted to, in whatever order they come. -/
theorem sort_eq_of_pairwise_lt {l found : List String}
    (h : l.Pairwise fun x y => order x y = .lt) (h_nodup : found.Nodup)
    (h_mem : ∀ x, x ∈ found ↔ x ∈ l) : sort found = l := by
  have h_le : l.Pairwise fun x y => (order x y).isLE = true := h.imp fun h_lt => by
    rw [h_lt]
    rfl
  have h_distinct : l.Nodup := h.imp fun h_lt h_eq => by
    rw [h_eq, isTotalPreorder_order.refl] at h_lt
    cases h_lt
  have h_perm : (sort found).Perm l :=
    (List.mergeSort_perm ..).trans ((List.perm_ext_iff_of_nodup h_nodup h_distinct).2 h_mem)
  refine h_perm.eq_of_pairwise (fun x y hx hy h_xy h_yx => ?_) (pairwise_sort found) h_le
  apply eq_of_order_eq_of_pairwise_lt h (h_perm.subset hx) hy
  rw [isTotalPreorder_order.swap x y] at h_yx
  cases h_order : order x y with
  | eq => rfl
  | lt =>
    rw [h_order] at h_yx
    cases h_yx
  | gt =>
    rw [h_order] at h_xy
    cases h_xy

end Answer

namespace FactBase

/-- The answers to a query about a program that was read ascend strictly. -/
theorem Answered.pairwise_lt {source : String} {p : Program}
    (h_program : Program.read source = .ok p) {q : Query} (h_typed : q.Typed)
    {answers : List String} (h_answered : (ofProgram p.numbered).Answered q answers) :
    answers.Pairwise fun x y => Answer.order x y = .lt := by
  cases h_selection : q.selection with
  | boolean =>
    rcases h_answered.boolean h_selection with ⟨-, rfl⟩ | ⟨-, rfl⟩ <;>
      exact List.pairwise_singleton ..
  | tuple elements =>
    have h_words := h_answered.isWord_of_mem h_program h_typed h_selection
    have h_regular := regular_ofProgram (Program.wellFormed_of_read h_program)
    obtain ⟨found, rfl, -⟩ := h_answered.exists_sorted h_regular h_typed h_selection
    simp only [mem_sort] at h_words
    have h_distinct : found.toList.Nodup :=
      (List.mergeSort_perm ..).nodup_iff.1 (nodup_sort_toList found)
    exact Answer.pairwise_lt_sort h_distinct fun x hx y hy =>
      Answer.eq_of_order_eq (h_words x hx) (h_words y hy)

/-- The order of answers is a total preorder on all texts.  The answers to a query about a program
    ascend strictly under it, so no two of them tie, and sorting them gives the same list in
    whatever order they were found. -/
theorem answers_ascend_strictly :
    IsTotalPreorder Answer.order ∧
    ∀ (source text : String) (p : Program) (q : Query),
      Program.read source = .ok p → Query.read text = .ok q → ∀ strategy,
        ∃ e, (ofProgram p.numbered).evaluate strategy q = .ok e ∧
          e.answers.Pairwise (fun x y => Answer.order x y = .lt) ∧
          (∀ x ∈ e.answers, ∀ y ∈ e.answers, Answer.order x y = .eq → x = y) ∧
          ∀ found : List String, found.Nodup → (∀ x, x ∈ found ↔ x ∈ e.answers) →
            Answer.sort found = e.answers := by
  refine ⟨Answer.isTotalPreorder_order, fun source text p q h_program h_query strategy => ?_⟩
  have h_typed := Query.typed_of_read h_query
  obtain ⟨e, h_e, h_answered⟩ := exists_answered_evaluate (ofProgram p.numbered) strategy h_typed
  have h_strict := h_answered.pairwise_lt h_program h_typed
  refine ⟨e, h_e, h_strict, fun x hx y hy => ?_, fun found h_nodup h_mem => ?_⟩
  · exact Answer.eq_of_order_eq_of_pairwise_lt h_strict hx hy
  · exact Answer.sort_eq_of_pairwise_lt h_strict h_nodup h_mem

/-- The constants `9` and `010` are answered in this order, whichever of them is found first. -/
theorem constants_sorted_either_way :
    ∃ p, Program.read "procedure p \x7b x = 010 + 9; \x7d" = .ok p ∧
      ∃ q, Query.read "constant c; Select c" = .ok q ∧ ∀ strategy,
        ∃ e, (ofProgram p.numbered).evaluate strategy q = .ok e ∧ e.answers = ["9", "10"] ∧
          Answer.order "9" "10" = .lt ∧ Answer.sort ["10", "9"] = e.answers ∧
          Answer.sort ["9", "10"] = e.answers := by
  refine exists_ok_of_test (fun p => (ofProgram p.numbered).constants.toList = ["10", "9"])
    (by decide +kernel) fun p h_program h_p => ?_
  refine exists_ok_of_test (fun q => q.selection = .tuple [.synonym ⟨"c", .constant⟩] ∧
    q.clauses = []) (by decide +kernel) fun q h_query h_q strategy => ?_
  obtain ⟨h_selection, h_clauses⟩ := of_decide_eq_true h_q
  obtain ⟨e, h_e, h_strict, -, h_sort⟩ :=
    answers_ascend_strictly.2 _ _ p q h_program h_query strategy
  obtain ⟨e', h_e', h_answers⟩ := answers_constants (Program.wellFormed_of_read h_program)
    (Query.typed_of_read h_query) rfl h_selection h_clauses strategy
  obtain rfl := Except.ok.inj (h_e.symm.trans h_e')
  have h_list : e.answers = ["9", "10"] := by
    rw [h_answers, of_decide_eq_true h_p, Answer.sort_pair]
    decide
  rw [h_list, List.pairwise_pair] at h_strict
  refine ⟨e, h_e, h_list, h_strict, h_sort _ (by decide) fun x => ?_,
    h_sort _ (by decide) fun x => ?_⟩
  · rw [h_list, List.mem_pair, List.mem_pair, or_comm]
  · rw [h_list]

end FactBase

end ProgramQuery
