/-
  ProgramQuery.Proofs.Query.Recognise

  Which texts are queries.

  Scanning gives tokens of a known shape, and every list of such tokens is the
  scan of a text, with a blank behind each token.  So what the grammar says of
  tokens it says of texts: a text is refused for its syntax exactly if it cannot
  be scanned or its tokens are no sentence, and any name at all can be a synonym.
-/

import ProgramQuery.Proofs.Query.Grammar
import ProgramQuery.Proofs.Query.Sense

namespace ProgramQuery

namespace QueryToken

/-! ## Scanning -/

theorem isLexeme_withMark {word : String} (h : Text.isNameString word = true) (rest : List Char) :
    (QueryToken.name (withMark word rest).1).IsLexeme := by
  unfold withMark
  split
  · split
    · rename_i h_starred
      exact Or.inr (Or.inl ⟨word, h_starred, rfl⟩)
    · exact Or.inl h
  · split
    · rename_i h_stmt
      exact Or.inr (Or.inr (by rw [h_stmt]))
    · exact Or.inl h
  · exact Or.inl h

theorem isLexeme_of_atFront {c : Char} {cs rest : List Char} {t : QueryToken}
    (h : atFront c cs = .ok (t, rest)) : t.IsLexeme := by
  unfold atFront at h
  split at h
  · rename_i h_alpha
    have h_word : Text.isNameString (String.ofList (c :: cs.takeWhile Char.isAlphanum)) = true := by
      simp [Text.isNameString, Text.isName, h_alpha]
    simp only [Except.ok.injEq, Prod.mk.injEq] at h
    obtain ⟨rfl, -⟩ := h
    exact isLexeme_withMark h_word _
  · split at h
    · rename_i h_digit
      simp only at h
      split at h
      · cases h
      · cases h
        simp [IsLexeme, Text.isDigitString, h_digit]
    · split at h
      · split at h
        · cases h
        · cases h
          show '"' ∉ (String.ofList (cs.takeWhile (· != '"'))).toList
          rw [String.toList_ofList]
          intro h_mem
          have h_other := List.all_eq_true.1 List.all_takeWhile _ h_mem
          simp at h_other
      · split at h
        · rename_i h_symbol
          cases h
          exact h_symbol
        · cases h

theorem lexical_of_scanFrom {fuel : Nat} {cs : List Char} {ts : List QueryToken}
    (h : scanFrom fuel cs = .ok ts) : QueryReader.Lexical ts := by
  induction fuel generalizing cs ts with
  | zero =>
    cases cs <;> cases h <;> exact List.forall_mem_nil _
  | succ fuel ih =>
    cases cs with
    | nil =>
      cases h
      exact List.forall_mem_nil _
    | cons c cs =>
      unfold scanFrom at h
      split at h
      · exact ih h
      · obtain ⟨⟨t, rest⟩, h_t, h⟩ := bind_eq_ok.1 h
        obtain ⟨more, h_more, h⟩ := bind_eq_ok.1 h
        cases h
        exact List.forall_mem_cons.2 ⟨isLexeme_of_atFront h_t, ih h_more⟩

/-! ## Spelling -/

/-- The characters of a token. -/
def spelling : QueryToken → List Char
  | .name w => w.toList
  | .integer digits => digits.toList
  | .quoted text => '"' :: text.toList ++ ['"']
  | .symbol c => [c]

/-- Tokens as a text, with a blank behind each. -/
def spaced (ts : List QueryToken) : String :=
  String.ofList (ts.flatMap (fun t => t.spelling ++ [' ']))

/-- A word is taken as a whole, together with the mark behind it. -/
theorem atFront_word {word : String} (h : Text.isNameString word = true) {d : Char}
    (h_d : d.isAlphanum = false) (rest : List Char) :
    ∃ c cs, word.toList = c :: cs ∧ Text.isBlank c = false ∧
      atFront c (cs ++ d :: rest) =
        .ok (.name (withMark word (d :: rest)).1, (withMark word (d :: rest)).2) := by
  unfold Text.isNameString at h
  cases h_chars : word.toList with
  | nil =>
    rw [h_chars] at h
    cases h
  | cons c cs =>
    rw [h_chars, Text.isName, Bool.and_eq_true] at h
    obtain ⟨h_alpha, h_all⟩ := h
    refine ⟨c, cs, rfl, Text.not_isBlank_of_isAlpha h_alpha, ?_⟩
    have h_take : (cs ++ d :: rest).takeWhile Char.isAlphanum = cs := by
      rw [List.takeWhile_append_of_pos (List.all_eq_true.1 h_all),
        List.takeWhile_cons_of_neg (by simp [h_d]), List.append_nil]
    have h_drop : (cs ++ d :: rest).dropWhile Char.isAlphanum = d :: rest := by
      rw [List.dropWhile_append_of_pos (List.all_eq_true.1 h_all),
        List.dropWhile_cons_of_neg (by simp [h_d])]
    have h_word : String.ofList (c :: cs) = word := by rw [← h_chars, String.ofList_toList]
    unfold atFront
    rw [if_pos h_alpha, h_take, h_drop, h_word]

/-- A token is taken from the front of a text that goes on with a blank. -/
theorem atFront_spelling {t : QueryToken} (h : t.IsLexeme) (rest : List Char) :
    ∃ c cs, t.spelling = c :: cs ∧ Text.isBlank c = false ∧
      atFront c (cs ++ ' ' :: rest) = .ok (t, ' ' :: rest) := by
  cases t with
  | name w =>
    obtain h_name | ⟨stem, h_starred, rfl⟩ | rfl := h
    · exact atFront_word h_name (by decide) rest
    · have h_stem : Text.isNameString stem = true := by
        revert stem
        decide
      obtain ⟨c, cs, h_chars, h_blank, h_front⟩ :=
        atFront_word h_stem (d := '*') (by decide) (' ' :: rest)
      refine ⟨c, cs ++ ['*'], ?_, h_blank, ?_⟩
      · show (stem ++ "*").toList = c :: (cs ++ ['*'])
        rw [String.toList_append, h_chars]
        rfl
      · simpa [withMark, h_starred] using h_front
    · have h_stmt : Text.isNameString "stmt" = true := by decide
      obtain ⟨c, cs, h_chars, h_blank, h_front⟩ :=
        atFront_word h_stmt (d := '#') (by decide) (' ' :: rest)
      refine ⟨c, cs ++ ['#'], ?_, h_blank, ?_⟩
      · show ("stmt" ++ "#").toList = c :: (cs ++ ['#'])
        rw [String.toList_append, h_chars]
        rfl
      · simpa [withMark] using h_front
  | integer digits =>
    obtain ⟨h_some, h_all⟩ := Bool.and_eq_true_iff.1 h
    cases h_chars : digits.toList with
    | nil => simp [h_chars] at h_some
    | cons c cs =>
      rw [h_chars, List.all_cons, Bool.and_eq_true] at h_all
      obtain ⟨h_digit, h_rest⟩ := h_all
      have h_alpha : ¬ c.isAlpha = true := by
        intro h_alpha
        rw [Text.not_isDigit_of_isAlpha h_alpha] at h_digit
        cases h_digit
      have h_take : (cs ++ ' ' :: rest).takeWhile Char.isDigit = cs := by
        rw [List.takeWhile_append_of_pos (List.all_eq_true.1 h_rest),
          List.takeWhile_cons_of_neg (by decide), List.append_nil]
      have h_drop : (cs ++ ' ' :: rest).dropWhile Char.isDigit = ' ' :: rest := by
        rw [List.dropWhile_append_of_pos (List.all_eq_true.1 h_rest),
          List.dropWhile_cons_of_neg (by decide)]
      have h_digits : String.ofList (c :: cs) = digits := by rw [← h_chars, String.ofList_toList]
      refine ⟨c, cs, h_chars, Text.not_isBlank_of_isDigit h_digit, ?_⟩
      unfold atFront
      rw [if_neg h_alpha, if_pos h_digit, h_take, h_drop, h_digits]
      rfl
  | quoted text =>
    have h_other : ∀ c ∈ text.toList, (c != '"') = true := by
      intro c h_c
      rw [bne_iff_ne]
      rintro rfl
      exact h h_c
    have h_take : (text.toList ++ '"' :: ' ' :: rest).takeWhile (· != '"') = text.toList := by
      rw [List.takeWhile_append_of_pos h_other, List.takeWhile_cons_of_neg (by decide),
        List.append_nil]
    have h_drop : (text.toList ++ '"' :: ' ' :: rest).dropWhile (· != '"') =
        '"' :: ' ' :: rest := by
      rw [List.dropWhile_append_of_pos h_other, List.dropWhile_cons_of_neg (by decide)]
    refine ⟨'"', text.toList ++ ['"'], rfl, by decide, ?_⟩
    rw [List.append_assoc, List.singleton_append]
    unfold atFront
    rw [if_neg (by decide), if_neg (by decide), if_pos rfl, h_drop, h_take, String.ofList_toList]
  | symbol c =>
    have h_symbol : c ∈ symbols := h
    have h_classes : symbols.all (fun c =>
        !c.isAlpha && !c.isDigit && c != '"' && !Text.isBlank c) = true := by decide
    have h_class := List.all_eq_true.1 h_classes c h_symbol
    simp only [Bool.and_eq_true, Bool.not_eq_true', bne_iff_ne] at h_class
    obtain ⟨⟨⟨h_alpha, h_digit⟩, h_quote⟩, h_blank⟩ := h_class
    refine ⟨c, [], rfl, h_blank, ?_⟩
    unfold atFront
    rw [h_alpha, h_digit, if_neg Bool.false_ne_true, if_neg Bool.false_ne_true, if_neg h_quote,
      if_pos h_symbol]
    rfl

/-- Every list of lexemes is the scan of a text. -/
theorem scan_spaced {ts : List QueryToken} (h : QueryReader.Lexical ts) :
    scan (spaced ts) = .ok ts := by
  have h_from : ∀ fuel, (ts.flatMap (fun t => t.spelling ++ [' '])).length ≤ fuel →
      scanFrom fuel (ts.flatMap (fun t => t.spelling ++ [' '])) = .ok ts := by
    induction ts with
    | nil =>
      intro fuel _
      cases fuel <;> rfl
    | cons t ts ih =>
      intro fuel h_fuel
      obtain ⟨h_t, h_ts⟩ := List.forall_mem_cons.1 h
      obtain ⟨c, cs, h_spelling, h_blank, h_front⟩ :=
        atFront_spelling h_t (ts.flatMap (fun t => t.spelling ++ [' ']))
      simp only [List.flatMap_cons, h_spelling, List.cons_append, List.append_assoc,
        List.nil_append, List.length_cons, List.length_append] at h_fuel ⊢
      -- One round takes the token, the next one the blank behind it.
      obtain ⟨fuel, rfl⟩ : ∃ k, fuel = k + 2 := ⟨fuel - 2, by omega⟩
      have h_more := ih h_ts fuel (by omega)
      unfold scanFrom
      rw [if_neg (by simp [h_blank])]
      refine bind_eq_ok.2 ⟨_, h_front, ?_⟩
      exact bind_eq_ok.2 ⟨ts, h_more, rfl⟩
  unfold scan spaced
  rw [String.toList_ofList]
  exact h_from _ le_rfl

end QueryToken

/-! ## Texts -/

/-- A text is read as a query exactly if its tokens are a sentence. -/
theorem Draft.exists_read_iff {text : String} :
    (∃ d, Draft.read text = .ok d) ↔
      ∃ ts, QueryToken.scan text = .ok ts ∧ QueryGrammar.Sentence ts := by
  constructor
  · rintro ⟨d, h⟩
    obtain ⟨ts, h_scan, h_tokens⟩ := bind_eq_ok.1 h
    exact ⟨ts, h_scan, Draft.sentence_of_ofTokens h_tokens⟩
  · rintro ⟨ts, h_scan, h_sentence⟩
    obtain ⟨d, h_d⟩ := Draft.exists_ofTokens h_sentence (QueryToken.lexical_of_scanFrom h_scan)
    exact ⟨d, bind_eq_ok.2 ⟨ts, h_scan, h_d⟩⟩

theorem Query.read_eq_resolve {text : String} {d : Draft} (h : Draft.read text = .ok d) :
    Query.read text = d.resolve := by
  rw [Query.read, h]

/-- Reading a query fails for its syntax exactly if there is nothing to resolve. -/
theorem Query.exists_syntactic_iff {text : String} :
    (∃ fault, Query.read text = .error (.syntactic fault)) ↔ ¬ ∃ d, Draft.read text = .ok d := by
  constructor
  · rintro ⟨fault, h_fault⟩ ⟨d, h_d⟩
    rw [Query.read_eq_resolve h_d] at h_fault
    exact (Draft.formed_of_read h_d).isSense_resolve fault h_fault
  · intro h_none
    cases h_read : Draft.read text with
    | error fault => exact ⟨fault, by rw [Query.read, h_read]⟩
    | ok d => exact absurd ⟨d, h_read⟩ h_none

/-! ## Any name as a synonym -/

/-- Clauses with one synonym in every place where one can stand. -/
def synonymClauses (w : String) : List QueryToken :=
  [.name "such", .name "that", .name "not", .name "Affects", .symbol '(', .name w, .symbol ',',
      .symbol '_', .symbol ')',
    .name "and", .name "Affects", .symbol '(', .name w, .symbol ',', .name w, .symbol ')',
    .name "pattern", .name w, .symbol '(', .symbol '_', .symbol ',', .symbol '_', .symbol ')',
    .name "and", .name "not", .name w, .symbol '(', .symbol '_', .symbol ',', .symbol '_',
      .symbol ')',
    .name "with", .name w, .symbol '.', .name "stmt#", .symbol '=', .integer "1",
    .name "and", .name "not", .name w, .symbol '.', .name "stmt#", .symbol '=',
      .name w, .symbol '.', .name "stmt#"]

/-- A query that declares and selects a synonym, and has it in all its clauses. -/
def synonymTokens (w : String) : List QueryToken :=
  [.name "assign", .name w, .symbol ';', .name "Select", .name w] ++ synonymClauses w

/-- That query as it is written. -/
def synonymDraft (w : String) : Draft :=
  ⟨[(.assign, w)], if w = "BOOLEAN" then .boolean else .tuple [⟨w, none⟩],
    [⟨.suchThat "Affects" (.name w) .wildcard, true⟩,
      ⟨.suchThat "Affects" (.name w) (.name w), false⟩,
      ⟨.pattern w .wildcard .wildcard .short, false⟩,
      ⟨.pattern w .wildcard .wildcard .short, true⟩,
      ⟨.compare (.attr ⟨w, some .stmtNo⟩) (.integer "1"), false⟩,
      ⟨.compare (.attr ⟨w, some .stmtNo⟩) (.attr ⟨w, some .stmtNo⟩), true⟩]⟩

/-- What that query asks. -/
def synonymQuery (w : String) : Query :=
  let s : Synonym := ⟨w, .assign⟩
  ⟨[s], .tuple [.synonym s],
    [⟨.suchThat .affects (.synonym s) .wildcard, true⟩,
      ⟨.suchThat .affects (.synonym s) (.synonym s), false⟩,
      ⟨.pattern s .wildcard .wildcard, false⟩,
      ⟨.pattern s .wildcard .wildcard, true⟩,
      ⟨.compare (.attr ⟨s, .stmtNo⟩) (.integer "1"), false⟩,
      ⟨.compare (.attr ⟨s, .stmtNo⟩) (.attr ⟨s, .stmtNo⟩), true⟩]⟩

theorem lexical_synonymTokens {w : String} (h : Text.isNameString w = true) :
    QueryReader.Lexical (synonymTokens w) := by
  -- Apart from the synonym there are keywords, symbols and a number.
  have h_others : ∀ t ∈ synonymTokens w, t = .name w ∨ t ∈ [.name "assign", .name "Select",
      .name "such", .name "that", .name "not", .name "and", .name "pattern", .name "with",
      .name "Affects", .name "stmt#", .integer "1", .symbol '(', .symbol ')', .symbol ',',
      .symbol ';', .symbol '_', .symbol '.', .symbol '='] := by
    simp [synonymTokens, synonymClauses]
  intro t h_t
  obtain rfl | h_other := h_others t h_t
  · exact Or.inl h
  · clear h_t h_others
    revert t
    decide

section

open QueryReader

theorem clauses_synonymClauses {w : String} (h : Text.isNameString w = true) (k : Nat) :
    clauses (k + 6) none (synonymClauses w) = .ok (synonymDraft w).clauses := by
  have h_affects : RelationshipName.ofText? "Affects" = some .affects := by decide
  have h_stmtNo : Attribute.ofText? "stmt#" = some .stmtNo := by decide
  have h_one : Text.canonicalInteger "1" = "1" := by decide
  -- Six rounds, each with its opening word and, in half of them, a negation.
  simp [synonymClauses, synonymDraft, clauses, opening, frontName?, negation, negates, condition,
    suchThat, h_affects, symbol, eat, ref, h, pattern, synonym, exprSpec, patternEnd, comparison,
    withRef, attrName, h_stmtNo, h_one, bind, Except.bind]

theorem selection_synonym {w : String} (h : Text.isNameString w = true) (fuel : Nat) :
    selection fuel (.name w :: synonymClauses w) =
      .ok ((synonymDraft w).selection, synonymClauses w) := by
  by_cases h_boolean : w = "BOOLEAN"
  · subst h_boolean
    rfl
  · have h_word : ¬ (frontName? (.name w :: synonymClauses w) = some "BOOLEAN" ∧
        (eat '.' (synonymClauses w)).isNone = true) := by
      intro h_front
      exact h_boolean (Option.some.inj h_front.1)
    have h_element : element (.name w :: synonymClauses w) = .ok (⟨w, none⟩, synonymClauses w) :=
      bind_eq_ok.2 ⟨_, synonym_eq_ok.2 ⟨rfl, h⟩, rfl⟩
    have h_tuple : (synonymDraft w).selection = .tuple [⟨w, none⟩] := if_neg h_boolean
    unfold selection
    rw [List.tail_cons, if_neg h_word, h_tuple]
    exact bind_eq_ok.2 ⟨_, h_element, rfl⟩

theorem ofTokens_synonymTokens {w : String} (h : Text.isNameString w = true) :
    Draft.ofTokens (synonymTokens w) = .ok (synonymDraft w) := by
  have h_assign : Entity.ofKeyword? "assign" = some .assign := by decide
  have h_select : Entity.ofKeyword? "Select" = none := by decide
  have h_declared : ∀ k, declared .assign (k + 1) (.name w :: .symbol ';' :: .name "Select" ::
      .name w :: synonymClauses w) =
        .ok ([(.assign, w)], .name "Select" :: .name w :: synonymClauses w) := by
    intro k
    exact bind_eq_ok.2 ⟨_, synonym_eq_ok.2 ⟨rfl, h⟩, rfl⟩
  have h_declarations : ∀ k, declarations (k + 2) (synonymTokens w) =
      .ok ([(.assign, w)], .name "Select" :: .name w :: synonymClauses w) := by
    intro k
    simp only [synonymTokens, List.cons_append, List.nil_append, declarations, frontName?,
      Option.bind_some, h_assign, List.tail_cons]
    refine bind_eq_ok.2 ⟨_, h_declared (k + 1), ?_⟩
    simp only [Option.bind_some, h_select]
    rfl
  refine bind_eq_ok.2 ⟨_, h_declarations _, ?_⟩
  refine bind_eq_ok.2 ⟨_, selection_synonym h _, ?_⟩
  exact bind_eq_ok.2 ⟨_, clauses_synonymClauses h _, rfl⟩

end

theorem resolve_synonymDraft (w : String) : (synonymDraft w).resolve = .ok (synonymQuery w) := by
  have h_resolve : Scope.resolve [⟨w, .assign⟩] w = .ok ⟨w, .assign⟩ := by simp [Scope.resolve]
  have h_selection : Scope.selection [⟨w, .assign⟩] (synonymDraft w).selection =
      .ok (.tuple [.synonym ⟨w, .assign⟩]) := by
    by_cases h_boolean : w = "BOOLEAN"
    · simp [synonymDraft, h_boolean, Scope.selection]
    · simp [synonymDraft, h_boolean, Scope.selection, Scope.element, h_resolve, bind, Except.bind,
        pure, Except.pure]
  have h_attr : Scope.attrOf ⟨w, .assign⟩ .stmtNo = .ok ⟨⟨w, .assign⟩, .stmtNo⟩ := rfl
  have h_affects : RelationshipName.ofText? "Affects" = some .affects := by decide
  have h_clauses : (synonymDraft w).clauses.mapM (Scope.clause [⟨w, .assign⟩]) =
      .ok (synonymQuery w).clauses := by
    simp [synonymDraft, synonymQuery, Scope.clause, Scope.condition, Scope.ref, h_resolve,
      Scope.suchThat, h_affects, Scope.related, Scope.between, Scope.require, Role.admits,
      Entity.isStatement, Scope.patternFits, Scope.withRef, h_attr, WithRef.kind, Attribute.kind,
      bind, Except.bind, pure, Except.pure]
  refine bind_eq_ok.2 ⟨[⟨w, .assign⟩], rfl, ?_⟩
  refine bind_eq_ok.2 ⟨_, h_selection, ?_⟩
  exact bind_eq_ok.2 ⟨_, h_clauses, rfl⟩

theorem read_synonymTokens {w : String} (h : Text.isNameString w = true) :
    Query.read (QueryToken.spaced (synonymTokens w)) = .ok (synonymQuery w) := by
  have h_draft : Draft.read (QueryToken.spaced (synonymTokens w)) = .ok (synonymDraft w) :=
    bind_eq_ok.2 ⟨_, QueryToken.scan_spaced (lexical_synonymTokens h), ofTokens_synonymTokens h⟩
  rw [Query.read_eq_resolve h_draft, resolve_synonymDraft]

/-! ## Faults of syntax -/

/-- A text is refused for its syntax exactly if it cannot be scanned or its tokens
    are no sentence; all else is accepted or makes no sense.  Whatever tokens a draft
    is read from, resolving it finds no fault of syntax.  Any name can be a synonym,
    keywords included. -/
theorem Query.syntactic_iff_not_sentence :
    (∀ text : String,
      ((∃ fault, Query.read text = .error (.syntactic fault)) ↔
        ¬ ∃ ts, QueryToken.scan text = .ok ts ∧ QueryGrammar.Sentence ts) ∧
      ((∃ ts, QueryToken.scan text = .ok ts ∧ QueryGrammar.Sentence ts) →
        (∃ q, Query.read text = .ok q) ∨ ∃ fault, Query.read text = .error (.semantic fault)) ∧
      (∀ d, Draft.read text = .ok d →
        (∃ q, d.resolve = .ok q ∧ Query.read text = .ok q) ∨
          ∃ fault, d.resolve = .error (.semantic fault) ∧
            Query.read text = .error (.semantic fault))) ∧
    (∀ ts d, Draft.ofTokens ts = .ok d → ∀ fault, d.resolve ≠ .error (.syntactic fault)) ∧
    ∀ w : String, Text.isNameString w = true →
      Query.read (QueryToken.spaced (synonymTokens w)) = .ok (synonymQuery w) := by
  have h_draft : ∀ text d, Draft.read text = .ok d →
      (∃ q, d.resolve = .ok q ∧ Query.read text = .ok q) ∨
        ∃ fault, d.resolve = .error (.semantic fault) ∧
          Query.read text = .error (.semantic fault) := by
    intro text d h_d
    rw [Query.read_eq_resolve h_d]
    obtain ⟨q, h_q⟩ | ⟨fault, h_fault⟩ := (Draft.formed_of_read h_d).isSense_resolve.cases
    · exact Or.inl ⟨q, h_q, h_q⟩
    · exact Or.inr ⟨fault, h_fault, h_fault⟩
  refine ⟨?_, ?_, fun w h_w => read_synonymTokens h_w⟩
  · intro text
    refine ⟨?_, ?_, h_draft text⟩
    · rw [Query.exists_syntactic_iff, Draft.exists_read_iff]
    · intro h_sentence
      obtain ⟨d, h_d⟩ := Draft.exists_read_iff.2 h_sentence
      obtain ⟨q, -, h_q⟩ | ⟨fault, -, h_fault⟩ := h_draft text d h_d
      · exact Or.inl ⟨q, h_q⟩
      · exact Or.inr ⟨fault, h_fault⟩
  · intro ts d h_d
    exact (Draft.formed_of_ofTokens h_d).isSense_resolve

/-- A draft that no text has: its relationship is unknown, or an attribute is missing. -/
def unreadDraft (c : Draft.Condition) : Draft :=
  ⟨[(.stmt, "s")], .boolean, [⟨c, false⟩]⟩

/-- The keywords are synonyms; a number is refused by its value, whatever its length.  A draft
    that shows a fault of syntax when it is resolved is not read from any tokens. -/
theorem Query.keywords_read_as_synonyms :
    (∀ w ∈ ["not", "and", "such", "that", "pattern", "with", "Select", "BOOLEAN", "stmt",
        "Affects"],
      Query.read (QueryToken.spaced (synonymTokens w)) = .ok (synonymQuery w)) ∧
    (¬ ∃ ts, QueryToken.scan "stmt s; Select s such that Follows(4294967296, s)" = .ok ts ∧
      QueryGrammar.Sentence ts) ∧
    (∃ ts, QueryToken.scan "Select s such that Follows(0004294967295, s)" = .ok ts ∧
      QueryGrammar.Sentence ts) ∧
    ((∃ q, Query.read "Select s such that Follows(0004294967295, s)" = .ok q) ∨
      ∃ fault, Query.read "Select s such that Follows(0004294967295, s)" =
        .error (.semantic fault)) ∧
    (unreadDraft (.suchThat "Precedes" (.name "s") .wildcard)).resolve =
      .error (.syntactic (.unknownRelationship "Precedes")) ∧
    (unreadDraft (.compare (.attr ⟨"s", none⟩) (.integer "1"))).resolve =
      .error (.syntactic .expectedAttributeRef) ∧
    ∀ ts, Draft.ofTokens ts ≠ .ok (unreadDraft (.suchThat "Precedes" (.name "s") .wildcard)) := by
  obtain ⟨h_texts, h_tokens, h_synonyms⟩ := Query.syntactic_iff_not_sentence
  have h_large : ∃ fault, Query.read "stmt s; Select s such that Follows(4294967296, s)" =
      .error (.syntactic fault) := ⟨.numberOutOfRange "4294967296", by decide +kernel⟩
  have h_undeclared : Query.read "Select s such that Follows(0004294967295, s)" =
      .error (.semantic (.undeclared "s")) := by decide +kernel
  have h_sentence : ∃ ts, QueryToken.scan "Select s such that Follows(0004294967295, s)" = .ok ts ∧
      QueryGrammar.Sentence ts := by
    by_contra h_none
    obtain ⟨fault, h_fault⟩ := (h_texts _).1.2 h_none
    rw [h_undeclared] at h_fault
    cases h_fault
  have h_unknown : (unreadDraft (.suchThat "Precedes" (.name "s") .wildcard)).resolve =
      .error (.syntactic (.unknownRelationship "Precedes")) := by decide +kernel
  refine ⟨?_, (h_texts _).1.1 h_large, h_sentence, (h_texts _).2.1 h_sentence, h_unknown,
    by decide +kernel, fun ts h_ts => h_tokens ts _ h_ts _ h_unknown⟩
  intro w h_w
  refine h_synonyms w ?_
  revert w
  decide

end ProgramQuery
