/-
  ProgramQuery.Proofs.Answer.Integers

  Integers are compared by value.

  Texts are what a comparison looks at, and they come from three places: the literals
  of a program, the literals of a query and the numbers of statements.  All of
  them are decimal forms without leading zeros, so two texts are equal exactly when
  the numbers are, and a program has one constant for each number in its text.
-/

import ProgramQuery.Proofs.Answer.Words
import ProgramQuery.Proofs.Program.Literals
import ProgramQuery.Proofs.Query.Written

namespace ProgramQuery

/-! ## What sides denote -/

/-- The number that the tokens of a side denote: that of the digits, that of the statement that
    the synonym stands for, or that of the digits of the constant. -/
inductive SideDenotes (declared : List Synonym) (ν : Valuation) : List QueryToken → Nat → Prop where
  | literal (digits : String) :
    SideDenotes declared ν [.integer digits] (Text.digitsValue digits.toList)
  | statement {s : Synonym} {n : StatementNumber} (h_s : s ∈ declared) (h_ν : ν s = .number n) :
    SideDenotes declared ν [.name s.name, .symbol '.', .name "stmt#"] n
  | constant {s : Synonym} {digits : String} (h_s : s ∈ declared) (h_ν : ν s = .name digits) :
    SideDenotes declared ν [.name s.name, .symbol '.', .name "value"]
      (Text.digitsValue digits.toList)

namespace FactBase

/-- If the clause compares integers, it holds under just those bindings under which the two sides
    denote one number, or under just the others if it is negated. -/
def ComparesNumbers (b : FactBase) (declared : List Synonym) (ts : List QueryToken) (c : Clause) :
    Prop :=
  ∀ lhs rhs, c.condition = .compare lhs rhs → lhs.kind = .integer →
    ∃ ls rs, QueryToken.IsComparison c.negated ls rs ts ∧
    ∃ table, b.clauseTable c = .ok table ∧
      ∀ ν : Valuation, (∀ s ∈ c.synonyms, ν s ∈ b.domain s) →
        (∃ m, SideDenotes declared ν ls m) ∧ (∃ n, SideDenotes declared ν rs n) ∧
        ∀ m n, SideDenotes declared ν ls m → SideDenotes declared ν rs n →
          (table.Holds ν ↔ if c.negated then m ≠ n else m = n)

variable {b : FactBase} {declared : List Synonym} {ν : Valuation}

/-! ## Sides -/

/-- Statements are bound to numbers. -/
theorem exists_number_of_mem_domain {s : Synonym} (h_s : s.entity.isStatement = true) {v : Value}
    (h_v : v ∈ b.domain s) : ∃ n, v = .number n := by
  unfold domain at h_v
  split at h_v
  case h_2 | h_3 | h_4 =>
    -- Variables, constants and procedures are bound to names, but they are no statements.
    rename_i h_entity
    rw [h_entity] at h_s
    cases h_s
  all_goals
    obtain ⟨n, -, rfl⟩ := List.mem_map.1 h_v
    exact ⟨n, rfl⟩

theorem mem_domain_constant {s : Synonym} (h_s : s.entity = .constant) {v : Value} :
    v ∈ b.domain s ↔ ∃ digits ∈ b.constants, v = .name digits := by
  simp [domain, h_s, eq_comm]

/-- The numbers of statements and the values of constants are their own texts. -/
theorem attributeIs_integer {a : AttributeRef} (h_kind : a.attr.kind = .integer) {v : Value}
    {text : String} : b.AttributeIs a v text ↔ v.text = text := by
  unfold AttributeIs
  split
  case h_4 => rfl
  all_goals
    -- The attributes that name something else are no integers.
    rename_i h_attr
    rw [h_attr] at h_kind
    cases h_kind

/-- Every side of a comparison of integers denotes a number. -/
theorem exists_denotes {side : WithRef} {ts : List QueryToken} (h_ts : side.Written declared ts)
    (h_kind : side.kind = .integer) (h_ν : ∀ s ∈ side.synonym?.toList, ν s ∈ b.domain s) :
    ∃ n, SideDenotes declared ν ts n := by
  cases side with
  | ident => cases h_kind
  | integer =>
    obtain ⟨digits, rfl, -⟩ := h_ts
    exact ⟨_, .literal digits⟩
  | attr a =>
    obtain ⟨h_declared, h_supports, rfl⟩ := h_ts
    have h_value := h_ν a.synonym (by simp [WithRef.synonym?])
    obtain ⟨s, attr⟩ := a
    cases attr with
    | procName | varName => cases h_kind
    | stmtNo =>
      obtain ⟨n, h_n⟩ := exists_number_of_mem_domain h_supports h_value
      exact ⟨n, .statement h_declared h_n⟩
    | value =>
      obtain ⟨digits, -, h_digits⟩ := (mem_domain_constant (beq_iff_eq.1 h_supports)).1 h_value
      exact ⟨_, .constant h_declared h_digits⟩

/-- The text of a side of a comparison of integers is how its number is written. -/
theorem sideIs_iff_of_denotes {q : Query} (h_names : q.Declared)
    (h_constants : ∀ digits ∈ b.constants, Text.isNumeral digits = true) {side : WithRef}
    {ts : List QueryToken} (h_lexical : QueryReader.Lexical ts)
    (h_ts : side.Written q.declarations ts) (h_kind : side.kind = .integer)
    (h_ν : ∀ s ∈ side.synonym?.toList, ν s ∈ b.domain s) {n : Nat}
    (h_n : SideDenotes q.declarations ν ts n) {text : String} :
    b.SideIs ν side text ↔ text = toString n := by
  cases side with
  | ident => cases h_kind
  | integer form =>
    obtain ⟨digits, rfl, rfl⟩ := h_ts
    cases h_n
    have h_digits : Text.isDigitString digits = true := h_lexical _ (List.mem_singleton_self _)
    rw [SideIs, Text.canonicalInteger_eq_toString h_digits]
  | attr a =>
    obtain ⟨h_declared, h_supports, rfl⟩ := h_ts
    have h_value := h_ν a.synonym (by simp [WithRef.synonym?])
    rw [SideIs, attributeIs_integer h_kind]
    -- The name of the synonym is declared once, so the tokens speak of no other.
    generalize h_eq : [QueryToken.name a.synonym.name, .symbol '.', .name a.attr.text] = us at h_n
    cases h_n with
    | literal => cases h_eq
    | statement h_s h_number =>
      simp only [List.cons.injEq, QueryToken.name.injEq] at h_eq
      rw [h_names.eq_of_name h_declared h_s h_eq.1, h_number]
      exact eq_comm
    | constant h_s h_name =>
      simp only [List.cons.injEq, QueryToken.name.injEq] at h_eq
      obtain rfl := h_names.eq_of_name h_declared h_s h_eq.1
      -- Only constants have a value, and those of the fact base are numerals.
      have h_attr : a.attr = .value := Option.some.inj
        ((Attribute.ofText?_eq_some.2 h_eq.2.2.1.symm).symm.trans (Attribute.ofText?_eq_some.2 rfl))
      rw [h_attr] at h_supports
      obtain ⟨digits, h_mem, h_digits⟩ := (mem_domain_constant (beq_iff_eq.1 h_supports)).1 h_value
      obtain rfl := Value.name.inj (h_name.symm.trans h_digits)
      rw [h_name, ← Text.numeral_eq_toString (h_constants _ h_mem)]
      exact eq_comm

/-! ## Clauses -/

/-- A comparison of integers asks whether two numbers are one. -/
theorem compareHolds_iff {q : Query} (h_names : q.Declared)
    (h_constants : ∀ digits ∈ b.constants, Text.isNumeral digits = true) {lhs rhs : WithRef}
    {ls rs : List QueryToken} (h_lexical : QueryReader.Lexical ls ∧ QueryReader.Lexical rs)
    (h_ls : lhs.Written q.declarations ls) (h_rs : rhs.Written q.declarations rs)
    (h_lhs : lhs.kind = .integer) (h_rhs : rhs.kind = .integer)
    (h_ν : ∀ s ∈ (Condition.compare lhs rhs).mentions, ν s ∈ b.domain s) {m n : Nat}
    (h_m : SideDenotes q.declarations ν ls m) (h_n : SideDenotes q.declarations ν rs n) :
    b.ConditionHolds ν (.compare lhs rhs) ↔ m = n := by
  obtain ⟨h_left, h_right⟩ := List.forall_mem_append.1 h_ν
  simp only [ConditionHolds,
    sideIs_iff_of_denotes h_names h_constants h_lexical.1 h_ls h_lhs h_left h_m,
    sideIs_iff_of_denotes h_names h_constants h_lexical.2 h_rs h_rhs h_right h_n, exists_eq_left]
  exact Text.toString_eq_iff

/-- A comparison of integers in a query is one of numbers. -/
theorem comparesNumbers_of_written (h : b.Regular)
    (h_constants : ∀ digits ∈ b.constants, Text.isNumeral digits = true) {q : Query}
    (h_typed : q.Typed) (h_names : q.Declared) {ts : List QueryToken}
    (h_lexical : QueryReader.Lexical ts) {c : Clause} (hc : c ∈ q.clauses)
    (h_ts : c.Written q.declarations ts) : b.ComparesNumbers q.declarations ts c := by
  intro lhs rhs h_c h_lhs
  obtain ⟨ls, rs, h_ls, h_rs, word, h_word, rfl⟩ := h_ts lhs rhs h_c
  have h_condition := h_typed.conditions c hc
  obtain ⟨-, table, -, h_table, -⟩ := b.exists_clauseTable h_condition
  have h_rhs : rhs.kind = .integer := by
    rw [h_c] at h_condition
    rw [← h_lhs]
    exact Eq.symm h_condition
  refine ⟨ls, rs, ⟨word, h_word, rfl⟩, table, h_table, fun ν h_ν => ?_⟩
  have h_mentions : ∀ s ∈ (Condition.compare lhs rhs).mentions, ν s ∈ b.domain s := by
    intro s hs
    exact h_ν s (mem_synonyms.2 (h_c ▸ hs))
  obtain ⟨h_left, h_right⟩ := List.forall_mem_append.1 h_mentions
  refine ⟨exists_denotes h_ls h_lhs h_left, exists_denotes h_rs h_rhs h_right, ?_⟩
  intro m n h_m h_n
  have h_sides : QueryReader.Lexical ls ∧ QueryReader.Lexical rs := by
    have h_tail := (QueryReader.lexical_append.1 (QueryReader.Lexical.tail h_lexical)).2
    obtain ⟨h_l, h_r⟩ := QueryReader.lexical_append.1 h_tail
    exact ⟨h_l, h_r.tail⟩
  have h_holds := compareHolds_iff h_names h_constants h_sides h_ls h_rs h_lhs h_rhs h_mentions
    h_m h_n
  -- Inside the domains, the table says whether the condition is met.
  rw [← clauseHolds_iff h_table, clauseHolds_iff_meets h h_condition, Meets, h_c, h_holds]
  exact and_iff_right h_ν

/-- The constants of a program are numerals. -/
theorem isNumeral_of_mem_constants {source : String} {p : Program}
    (h : Program.read source = .ok p) :
    ∀ digits ∈ (ofProgram p.numbered).constants, Text.isNumeral digits = true := by
  intro digits h_digits
  obtain ⟨s, hs, h_s⟩ := (mem_constants_iff (Program.wellFormed_of_read h)).1 h_digits
  exact (Stmt.words_of_isCanonical ((Program.canonical_of_read h).statements s hs)).2 digits h_s

/-- The constants of a program are the numbers in its text, each written in one way. -/
theorem mem_constants_iff_literal {source : String} {p : Program}
    (h : Program.read source = .ok p) (digits : String) :
    digits ∈ (ofProgram p.numbered).constants ↔
      ∃ ds, LiteralIn source.toList ds ∧ digits = toString (Text.digitsValue ds) := by
  rw [Program.mem_constants_of_read h]
  refine exists_congr fun ds => and_congr_right fun h_ds => ?_
  rw [Text.canonicalDigits_eq_toString h_ds.all_isDigit]

/-- The values of the constants, one for each. -/
def constantValues (b : FactBase) : List Nat :=
  b.constants.toList.map fun digits => Text.digitsValue digits.toList

theorem nodup_constantValues (h : ∀ digits ∈ b.constants, Text.isNumeral digits = true) :
    b.constantValues.Nodup := by
  refine (Facts.nodup_toList b.constants).map_on fun s hs t ht h_value => ?_
  rw [Std.ExtTreeSet.mem_toList] at hs ht
  exact Text.numeral_ext (h s hs) (h t ht) h_value

theorem mem_constantValues_iff {source : String} {p : Program} (h : Program.read source = .ok p)
    (n : Nat) : n ∈ (ofProgram p.numbered).constantValues ↔
      ∃ ds, LiteralIn source.toList ds ∧ Text.digitsValue ds = n := by
  simp only [constantValues, List.mem_map, Std.ExtTreeSet.mem_toList, mem_constants_iff_literal h]
  constructor
  · rintro ⟨_, ⟨ds, h_ds, rfl⟩, rfl⟩
    exact ⟨ds, h_ds, (Text.digitsValue_toString _).symm⟩
  · rintro ⟨ds, h_ds, rfl⟩
    exact ⟨_, ⟨ds, h_ds, rfl⟩, Text.digitsValue_toString _⟩

/-- Integers are compared by value.

    Two strings of digits have one canonical form exactly when they denote one number, and the
    number of a statement is written in that form.  So a comparison of integers holds
    under a binding exactly when the two sides, as they are written, denote one number,
    and a program has one constant for each number in its text. -/
theorem integers_compare_by_value :
    (∀ s t, Text.isDigitString s = true → Text.isDigitString t = true →
      (Text.canonicalInteger s = Text.canonicalInteger t ↔
        Text.digitsValue s.toList = Text.digitsValue t.toList)) ∧
    (∀ s n, Text.isDigitString s = true →
      ((Value.number n).text = Text.canonicalInteger s ↔ n = Text.digitsValue s.toList)) ∧
    ∀ source p, Program.read source = .ok p →
      (∀ text q, Query.read text = .ok q →
        ∃ (front : List QueryToken) (runs : List (List QueryToken)),
          QueryToken.scan text = .ok (front ++ runs.flatten) ∧
          List.Forall₂ ((ofProgram p.numbered).ComparesNumbers q.declarations) runs q.clauses) ∧
      (∀ digits, digits ∈ (ofProgram p.numbered).constants ↔
        ∃ ds, LiteralIn source.toList ds ∧ digits = toString (Text.digitsValue ds)) ∧
      (ofProgram p.numbered).constantValues.Nodup ∧
      ∀ n, n ∈ (ofProgram p.numbered).constantValues ↔
        ∃ ds, LiteralIn source.toList ds ∧ Text.digitsValue ds = n := by
  refine ⟨fun s t h_s h_t => ?_, fun s n h_s => ?_, fun source p h_program => ⟨?_, ?_, ?_, ?_⟩⟩
  · rw [Text.canonicalInteger_eq_toString h_s, Text.canonicalInteger_eq_toString h_t]
    exact Text.toString_eq_iff
  · rw [Value.text, Text.canonicalInteger_eq_toString h_s]
    exact Text.toString_eq_iff
  · intro text q h_query
    obtain ⟨front, runs, h_scan, h_runs⟩ := Query.written_of_read h_query
    refine ⟨front, runs, h_scan, List.forall₂_iff_zip.2 ⟨h_runs.length_eq, fun h_zip => ?_⟩⟩
    obtain ⟨h_run, h_clause⟩ := List.of_mem_zip h_zip
    have h_lexical := QueryToken.lexical_of_scanFrom h_scan
    refine comparesNumbers_of_written (regular_ofProgram (Program.wellFormed_of_read h_program))
      (isNumeral_of_mem_constants h_program) (Query.typed_of_read h_query)
      (Query.declared_of_read h_query) (fun t ht => h_lexical t ?_) h_clause
      ((List.forall₂_iff_zip.1 h_runs).2 h_zip)
    exact List.mem_append_right _ (List.mem_flatten.2 ⟨_, h_run, ht⟩)
  · exact mem_constants_iff_literal h_program
  · exact nodup_constantValues (isNumeral_of_mem_constants h_program)
  · exact mem_constantValues_iff h_program

/-- Leading zeros do not matter, in a program or in a query. -/
theorem leading_zeros_compared :
    ∃ p, Program.read "procedure p \x7b x = 007 + 7; read y; \x7d" = .ok p ∧
      ∃ q, Query.read "stmt s; constant c; Select s with s.stmt# = 02 and not 0007 = c.value" =
          .ok q ∧
        Text.canonicalInteger "007" = Text.canonicalInteger "7" ∧
        (Value.number 2).text = Text.canonicalInteger "02" ∧
        (∃ front first second, QueryToken.scan
            "stmt s; constant c; Select s with s.stmt# = 02 and not 0007 = c.value" =
              .ok (front ++ [first, second].flatten) ∧
          (ofProgram p.numbered).ComparesNumbers q.declarations first
            ⟨.compare (.attr ⟨⟨"s", .stmt⟩, .stmtNo⟩) (.integer "2"), false⟩ ∧
          (ofProgram p.numbered).ComparesNumbers q.declarations second
            ⟨.compare (.integer "7") (.attr ⟨⟨"c", .constant⟩, .value⟩), true⟩) ∧
        "7" ∈ (ofProgram p.numbered).constants ∧ (ofProgram p.numbered).constantValues.Nodup ∧
        7 ∈ (ofProgram p.numbered).constantValues := by
  refine exists_ok_of_test (fun _ => true) (by decide +kernel) fun p h_program _ => ?_
  refine exists_ok_of_test (fun q => q.clauses =
    [⟨.compare (.attr ⟨⟨"s", .stmt⟩, .stmtNo⟩) (.integer "2"), false⟩,
      ⟨.compare (.integer "7") (.attr ⟨⟨"c", .constant⟩, .value⟩), true⟩])
    (by decide +kernel) fun q h_query h_q => ?_
  obtain ⟨h_forms, h_number, h_read⟩ := integers_compare_by_value
  obtain ⟨h_clauses, h_constants, h_nodup, h_values⟩ := h_read _ p h_program
  obtain ⟨front, runs, h_scan, h_runs⟩ := h_clauses _ q h_query
  rw [of_decide_eq_true h_q] at h_runs
  have h_seven : LiteralIn "procedure p \x7b x = 007 + 7; read y; \x7d".toList ['0', '0', '7'] :=
    ⟨"procedure p \x7b x = ".toList, " + 7; read y; \x7d".toList, by decide, by decide, by decide,
      fun c hc => Option.some.inj hc ▸ rfl, fun c hc => Option.some.inj hc ▸ rfl⟩
  rcases h_runs with _ | ⟨h_first, _ | ⟨h_second, _ | _⟩⟩
  refine ⟨(h_forms _ _ (by decide) (by decide)).2 (by decide),
    (h_number _ _ (by decide)).2 (by decide), ⟨front, _, _, h_scan, h_first, h_second⟩,
    (h_constants _).2 ⟨_, h_seven, by decide⟩, h_nodup, ?_⟩
  exact (h_values 7).2 ⟨_, h_seven, by decide⟩

end FactBase

end ProgramQuery
