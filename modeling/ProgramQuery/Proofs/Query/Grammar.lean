/-
  ProgramQuery.Proofs.Query.Grammar

  The grammar of queries, and that exactly its sentences are read.

  The grammar is a family of languages over query tokens, one for each rule.  A
  name is any name without a mark, so no word is reserved.  The readers look one
  token ahead to tell `not` and `BOOLEAN` from synonyms of that name; what they
  decide is the only reading under which the tokens can be a sentence.
-/

import ProgramQuery.Proofs.Program.Lexical
import ProgramQuery.Proofs.Program.Phrases
import ProgramQuery.Query.Typing

namespace ProgramQuery

/-! ## Numbers -/

namespace QueryReader

/-- A number that is accepted has at most 32 bits. -/
theorem digitsValue_of_statementNumber {digits : String} {n : StatementNumber}
    (h : statementNumber digits = .ok n) : Text.digitsValue digits.toList ≤ 4294967295 := by
  unfold statementNumber at h
  split at h
  · rename_i m h_read
    rw [← Text.digitsValue_canonicalDigits]
    unfold Text.readNumber at h_read
    split at h_read
    · cases h_read
    · cases h_read
    · rename_i cs _ h_plus
      obtain ⟨-, rfl, h_le⟩ := (Text.readDigits_eq_ok (Nat.zero_le _)).1 h_read
      rw [h_plus]
      exact h_le
    · obtain ⟨-, rfl, h_le⟩ := (Text.readDigits_eq_ok (Nat.zero_le _)).1 h_read
      exact h_le
  · cases h

theorem exists_statementNumber {digits : String} (h_digits : Text.isDigitString digits = true)
    (h_le : Text.digitsValue digits.toList ≤ 4294967295) : ∃ n, statementNumber digits = .ok n := by
  have h_all : digits.toList.all Char.isDigit = true := (Bool.and_eq_true_iff.1 h_digits).2
  have h_canonical := Text.isDigitString_canonicalDigits h_all
  have h_read : Text.readNumber Text.max32 (Text.canonicalDigits digits.toList) =
      .ok (Text.digitsValue digits.toList) := by
    rw [Text.readNumber_of_digits h_canonical]
    refine (Text.readDigits_eq_ok (Nat.zero_le _)).2 ⟨?_, ?_, h_le⟩
    · simpa [Text.isDigitString] using (Bool.and_eq_true_iff.1 h_canonical).2
    · exact (Text.digitsValue_canonicalDigits _).symm
  exact ⟨Text.digitsValue digits.toList, by simp only [statementNumber, h_read]⟩

end QueryReader

/-! ## Words -/

/-- Who is found by its own text is found by no other text. -/
theorem find?_text_eq_some {α : Type} {all : List α} {text : α → String} {w : String} {a : α}
    (h_self : all.find? (text · == text a) = some a) :
    all.find? (text · == w) = some a ↔ w = text a := by
  constructor
  · intro h
    have h_text := List.find?_some h
    exact (eq_of_beq h_text).symm
  · rintro rfl
    exact h_self

theorem Attribute.ofText?_eq_some {w : String} {a : Attribute} :
    Attribute.ofText? w = some a ↔ w = a.text :=
  find?_text_eq_some (by cases a <;> decide)

theorem Entity.ofKeyword?_eq_some {w : String} {e : Entity} :
    Entity.ofKeyword? w = some e ↔ w = e.keyword :=
  find?_text_eq_some (by cases e <;> decide)

theorem RelationshipName.ofText?_eq_some {w : String} {r : RelationshipName} :
    RelationshipName.ofText? w = some r ↔ w = r.text :=
  find?_text_eq_some (by cases r <;> decide)

/-! ## The grammar -/

/-- Relationships between statements. -/
def RelationshipName.betweenStatements : RelationshipName → Bool
  | .follows | .followsStar | .parent | .parentStar | .next | .nextStar | .affects => true
  | .calls | .callsStar | .uses | .modifies => false

/-- Relationships between procedures. -/
def RelationshipName.betweenProcedures : RelationshipName → Bool
  | .calls | .callsStar => true
  | _ => false

namespace QueryGrammar

/-- Names separated by commas. -/
inductive Names : List QueryToken → Prop where
  | one {w : String} (h_w : Text.isNameString w = true) : Names [.name w]
  | more {w : String} {ts : List QueryToken} (h_w : Text.isNameString w = true) (h_ts : Names ts) :
    Names (.name w :: .symbol ',' :: ts)

/-- Declarations, each with a semicolon at its end. -/
inductive Declarations : List QueryToken → Prop where
  | none : Declarations []
  | more (e : Entity) {ns ts : List QueryToken} (h_ns : Names ns) (h_ts : Declarations ts) :
    Declarations (.name e.keyword :: ns ++ .symbol ';' :: ts)

/-- An element of a result: a synonym or an attribute of it. -/
inductive Elem : List QueryToken → Prop where
  | synonym {w : String} (h_w : Text.isNameString w = true) : Elem [.name w]
  | attr {w : String} (h_w : Text.isNameString w = true) (a : Attribute) :
    Elem [.name w, .symbol '.', .name a.text]

/-- Elements separated by commas. -/
inductive Elems : List QueryToken → Prop where
  | one {ts : List QueryToken} (h_ts : Elem ts) : Elems ts
  | more {ts us : List QueryToken} (h_ts : Elem ts) (h_us : Elems us) :
    Elems (ts ++ .symbol ',' :: us)

/-- A result. -/
inductive Result : List QueryToken → Prop where
  | boolean : Result [.name "BOOLEAN"]
  | single {ts : List QueryToken} (h_ts : Elem ts) : Result ts
  | tuple {ts : List QueryToken} (h_ts : Elems ts) : Result (.symbol '<' :: ts ++ [.symbol '>'])

/-- An argument; the place decides whether a number or a quoted name may stand there. -/
inductive Argument (takesNumber takesName : Bool) : List QueryToken → Prop where
  | wildcard : Argument takesNumber takesName [.symbol '_']
  | synonym {w : String} (h_w : Text.isNameString w = true) :
    Argument takesNumber takesName [.name w]
  | number {digits : String} (h_takes : takesNumber = true)
      (h_le : Text.digitsValue digits.toList ≤ 4294967295) :
    Argument takesNumber takesName [.integer digits]
  | name {text : String} (h_takes : takesName = true)
      (h_text : Text.isNameString (Text.trimString text) = true) :
    Argument takesNumber takesName [.quoted text]

/-- A text that can be derived as an expression. -/
def IsExpression (text : String) : Prop :=
  ∃ stream, TokenStream.scan text.toList = .ok stream ∧
    ∃ d : ExprDerivation (some .sum), d.tokens = stream.tokens

/-- What a pattern asks of an expression. -/
inductive Spec : List QueryToken → Prop where
  | wildcard : Spec [.symbol '_']
  | whole {text : String} (h_text : IsExpression text) : Spec [.quoted text]
  | part {text : String} (h_text : IsExpression text) :
    Spec [.symbol '_', .quoted text, .symbol '_']

/-- A side of a comparison. -/
inductive Side : List QueryToken → Prop where
  | name {text : String} (h_text : Text.isNameString (Text.trimString text) = true) :
    Side [.quoted text]
  | number (digits : String) : Side [.integer digits]
  | attr {w : String} (h_w : Text.isNameString w = true) (a : Attribute) :
    Side [.name w, .symbol '.', .name a.text]

/-- The body of a clause of each kind.  The first place of Uses and Modifies takes
    numbers as well as names; a pattern has a third argument only after a wildcard. -/
inductive Body : QueryReader.Section → List QueryToken → Prop where
  | suchThat (r : RelationshipName) {lhs rhs : List QueryToken}
      (h_lhs : Argument (!r.betweenProcedures) (!r.betweenStatements) lhs)
      (h_rhs : Argument r.betweenStatements (!r.betweenStatements) rhs) :
    Body .suchThat
      (.name r.text :: .symbol '(' :: lhs ++ .symbol ',' :: rhs ++ [.symbol ')'])
  | pattern {w : String} {var spec : List QueryToken} (h_w : Text.isNameString w = true)
      (h_var : Argument false true var) (h_spec : Spec spec) :
    Body .pattern (.name w :: .symbol '(' :: var ++ .symbol ',' :: spec ++ [.symbol ')'])
  | longPattern {w : String} {var : List QueryToken} (h_w : Text.isNameString w = true)
      (h_var : Argument false true var) :
    Body .pattern (.name w :: .symbol '(' :: var ++
      [.symbol ',', .symbol '_', .symbol ',', .symbol '_', .symbol ')'])
  | compare {lhs rhs : List QueryToken} (h_lhs : Side lhs) (h_rhs : Side rhs) :
    Body .compare (lhs ++ .symbol '=' :: rhs)

/-- A body, perhaps negated. -/
inductive Signed (kind : QueryReader.Section) : List QueryToken → Prop where
  | plain {ts : List QueryToken} (h_ts : Body kind ts) : Signed kind ts
  | negated {ts : List QueryToken} (h_ts : Body kind ts) : Signed kind (.name "not" :: ts)

/-- More bodies of the same kind. -/
inductive Conjuncts (kind : QueryReader.Section) : List QueryToken → Prop where
  | none : Conjuncts kind []
  | more {ts us : List QueryToken} (h_ts : Signed kind ts) (h_us : Conjuncts kind us) :
    Conjuncts kind (.name "and" :: ts ++ us)

/-- The words that open a clause of a kind. -/
def opener : QueryReader.Section → List QueryToken
  | .suchThat => [.name "such", .name "that"]
  | .pattern => [.name "pattern"]
  | .compare => [.name "with"]

/-- Clauses. -/
inductive Clauses : List QueryToken → Prop where
  | none : Clauses []
  | more (kind : QueryReader.Section) {ts us vs : List QueryToken} (h_ts : Signed kind ts)
      (h_us : Conjuncts kind us) (h_vs : Clauses vs) : Clauses (opener kind ++ ts ++ us ++ vs)

/-- Queries. -/
inductive Sentence : List QueryToken → Prop where
  | query {ds rs cs : List QueryToken} (h_ds : Declarations ds) (h_rs : Result rs)
      (h_cs : Clauses cs) : Sentence (ds ++ .name "Select" :: rs ++ cs)

end QueryGrammar

/-- The tokens that scanning gives. -/
def QueryToken.IsLexeme : QueryToken → Prop
  | .name w => Text.isNameString w = true ∨ (∃ stem ∈ starred, w = stem ++ "*") ∨ w = "stmt" ++ "#"
  | .integer digits => Text.isDigitString digits = true
  | .quoted text => '"' ∉ text.toList
  | .symbol c => c ∈ symbols

instance (t : QueryToken) : Decidable t.IsLexeme :=
  match t with
  | .name w => inferInstanceAs (Decidable (Text.isNameString w = true ∨
      (∃ stem ∈ QueryToken.starred, w = stem ++ "*") ∨ w = "stmt" ++ "#"))
  | .integer digits => inferInstanceAs (Decidable (Text.isDigitString digits = true))
  | .quoted text => inferInstanceAs (Decidable ('"' ∉ text.toList))
  | .symbol c => inferInstanceAs (Decidable (c ∈ QueryToken.symbols))

namespace QueryReader

open QueryGrammar

/-! ## Single tokens -/

theorem frontName?_eq_some {ts : List QueryToken} {w : String} :
    frontName? ts = some w ↔ ∃ rest, ts = .name w :: rest := by
  unfold frontName?
  split
  · simp
  · rename_i h_none
    simp only [reduceCtorEq, false_iff, not_exists]
    rintro rest rfl
    exact h_none w rest rfl

theorem eat_eq_some {c : Char} {ts rest : List QueryToken} :
    eat c ts = some rest ↔ ts = .symbol c :: rest := by
  unfold eat
  split
  · rename_i d us
    by_cases h : d = c
    · simp [h]
    · simp [h]
  · rename_i h_none
    simp only [reduceCtorEq, false_iff]
    rintro rfl
    exact h_none c rest rfl

@[simp] theorem eat_self (c : Char) (ts : List QueryToken) : eat c (.symbol c :: ts) = some ts :=
  eat_eq_some.2 rfl

theorem symbol_eq_ok {c : Char} {ts rest : List QueryToken} :
    symbol c ts = .ok rest ↔ ts = .symbol c :: rest := by
  unfold symbol
  rw [← eat_eq_some]
  cases eat c ts <;> simp

theorem synonym_eq_ok {ts rest : List QueryToken} {w : String} :
    synonym ts = .ok (w, rest) ↔ ts = .name w :: rest ∧ Text.isNameString w = true := by
  unfold synonym
  split
  · rename_i text us
    by_cases h : Text.isNameString text = true
    · simp only [h, if_true, Except.ok.injEq, Prod.mk.injEq, List.cons.injEq, QueryToken.name.injEq]
      constructor
      · rintro ⟨rfl, rfl⟩
        exact ⟨⟨rfl, rfl⟩, h⟩
      · intro h_eq
        exact h_eq.1
    · simp only [h, Bool.false_eq_true, if_false, reduceCtorEq, List.cons.injEq,
        QueryToken.name.injEq, false_iff]
      rintro ⟨⟨rfl, -⟩, h_w⟩
      exact h h_w
  · rename_i h_none
    simp only [reduceCtorEq, false_iff, not_and]
    rintro rfl
    exact absurd rfl (h_none w rest)

theorem attrName_eq_ok {ts rest : List QueryToken} {a : Attribute} :
    attrName ts = .ok (a, rest) ↔ ts = .name a.text :: rest := by
  unfold attrName
  constructor
  · intro h
    split at h
    · rename_i b h_b
      cases h
      obtain ⟨w, h_front, h_w⟩ := Option.bind_eq_some_iff.1 h_b
      obtain ⟨us, rfl⟩ := frontName?_eq_some.1 h_front
      rw [Attribute.ofText?_eq_some.1 h_w]
      rfl
    · cases h
  · rintro rfl
    have h_front : (frontName? (.name a.text :: rest)).bind Attribute.ofText? = some a :=
      Attribute.ofText?_eq_some.2 rfl
    rw [h_front]
    rfl

theorem quotedName_eq_ok {text name : String} :
    quotedName text = .ok name ↔
      Text.isNameString (Text.trimString text) = true ∧ name = Text.trimString text := by
  unfold quotedName
  by_cases h : Text.isNameString (Text.trimString text) = true
  · simp [h, eq_comm]
  · simp [h]

theorem isExpression_iff {text : String} : IsExpression text ↔ ∃ rpn, quotedRpn text = .ok rpn := by
  have h_read : IsExpression text ↔ ∃ e, Expr.read text = .ok e := by
    constructor
    · rintro ⟨stream, h_scan, d, h_tokens⟩
      exact ⟨d.expr, Expr.read_eq_ok.2 ⟨stream, h_scan, d, h_tokens, rfl⟩⟩
    · rintro ⟨e, h_e⟩
      obtain ⟨stream, h_scan, d, h_tokens, -⟩ := Expr.read_eq_ok.1 h_e
      exact ⟨stream, h_scan, d, h_tokens⟩
  rw [h_read]
  unfold quotedRpn
  cases Expr.read text <;> simp

/-- What a reader consumes is in a language. -/
def Sound {α : Type} (L : List QueryToken → Prop) (read : Reader α) : Prop :=
  ∀ ts a rest, read ts = .ok (a, rest) → ∃ us, L us ∧ ts = us ++ rest

/-- Tokens as scanning leaves them. -/
def Lexical (ts : List QueryToken) : Prop :=
  ∀ t ∈ ts, t.IsLexeme

theorem lexical_append {ts us : List QueryToken} : Lexical (ts ++ us) ↔ Lexical ts ∧ Lexical us :=
  List.forall_mem_append

theorem Lexical.tail {t : QueryToken} {ts : List QueryToken} (h : Lexical (t :: ts)) : Lexical ts :=
  (List.forall_mem_cons.1 h).2

/-- A reader takes just the words of a language away from what may follow them. -/
def Complete {α : Type} (L Follow : List QueryToken → Prop) (read : Reader α) : Prop :=
  ∀ us rest, L us → Lexical us → Follow rest → ∃ a, read (us ++ rest) = .ok (a, rest)

/-! ## Arguments and bodies -/

theorem ref_sound (slot : Slot) : Sound (Argument slot.takesNumber slot.takesName) (ref slot) := by
  intro ts r rest h
  cases ts with
  | nil => cases h
  | cons t ts =>
    cases t with
    | symbol c =>
      simp only [ref] at h
      split at h
      · subst c
        cases h
        exact ⟨_, .wildcard, rfl⟩
      · cases h
    | name w =>
      simp only [ref] at h
      split at h
      · rename_i h_w
        cases h
        exact ⟨_, .synonym h_w, rfl⟩
      · cases h
    | integer digits =>
      simp only [ref] at h
      split at h
      · rename_i h_takes
        obtain ⟨n, h_n, h⟩ := bind_eq_ok.1 h
        cases h
        exact ⟨_, .number h_takes (digitsValue_of_statementNumber h_n), rfl⟩
      · cases h
    | quoted text =>
      simp only [ref] at h
      split at h
      · rename_i h_takes
        obtain ⟨name, h_name, h⟩ := bind_eq_ok.1 h
        cases h
        exact ⟨_, .name h_takes (quotedName_eq_ok.1 h_name).1, rfl⟩
      · cases h

theorem ref_complete (slot : Slot) :
    Complete (Argument slot.takesNumber slot.takesName) (fun _ => True) (ref slot) := by
  intro us rest h_us h_lexical _
  cases h_us with
  | wildcard => exact ⟨.wildcard, rfl⟩
  | synonym h_w => exact ⟨_, if_pos h_w⟩
  | number h_takes h_le =>
    obtain ⟨n, h_n⟩ := exists_statementNumber (h_lexical _ (List.mem_singleton_self _)) h_le
    exact ⟨.integer n, (if_pos h_takes).trans (bind_eq_ok.2 ⟨n, h_n, rfl⟩)⟩
  | name h_takes h_text =>
    have h_name := quotedName_eq_ok.2 ⟨h_text, rfl⟩
    exact ⟨.ident _, (if_pos h_takes).trans (bind_eq_ok.2 ⟨_, h_name, rfl⟩)⟩

theorem suchThat_sound : Sound (Body .suchThat) suchThat := by
  intro ts c rest h
  unfold suchThat at h
  split at h
  · cases h
  · rename_i word h_front
    split at h
    · cases h
    · rename_i r h_r
      obtain rfl := RelationshipName.ofText?_eq_some.1 h_r
      obtain ⟨ts, rfl⟩ := frontName?_eq_some.1 h_front
      obtain ⟨ts₁, h_open, h⟩ := bind_eq_ok.1 h
      obtain ⟨⟨lhs, ts₂⟩, h_lhs, h⟩ := bind_eq_ok.1 h
      obtain ⟨ts₃, h_comma, h⟩ := bind_eq_ok.1 h
      obtain ⟨⟨rhs, ts₄⟩, h_rhs, h⟩ := bind_eq_ok.1 h
      obtain ⟨ts₅, h_close, h⟩ := bind_eq_ok.1 h
      cases h
      obtain rfl := symbol_eq_ok.1 h_close
      obtain ⟨vs, h_vs, rfl⟩ := ref_sound _ _ _ _ h_rhs
      obtain rfl := symbol_eq_ok.1 h_comma
      obtain ⟨us, h_us, rfl⟩ := ref_sound _ _ _ _ h_lhs
      have h_ts := symbol_eq_ok.1 h_open
      have h_first : Argument (!r.betweenProcedures) (!r.betweenStatements) us := by
        cases r <;> exact h_us
      have h_second : Argument r.betweenStatements (!r.betweenStatements) vs := by
        cases r <;> exact h_vs
      refine ⟨_, .suchThat r h_first h_second, ?_⟩
      rw [show ts = _ from h_ts]
      simp

theorem exprSpec_sound {ts rest : List QueryToken} {spec : ExprSpec}
    (h : exprSpec ts = .ok (spec, rest)) :
    ∃ us, Spec us ∧ ts = us ++ rest ∧ (spec = .wildcard → us = [.symbol '_']) := by
  unfold exprSpec at h
  split at h
  · obtain ⟨rpn, h_rpn, h⟩ := bind_eq_ok.1 h
    cases h
    refine ⟨_, .whole (isExpression_iff.2 ⟨rpn, h_rpn⟩), rfl, ?_⟩
    intro h_wildcard
    cases h_wildcard
  · split at h
    · subst_vars
      split at h
      · obtain ⟨rpn, h_rpn, h⟩ := bind_eq_ok.1 h
        obtain ⟨us, h_end, h⟩ := bind_eq_ok.1 h
        cases h
        obtain rfl := symbol_eq_ok.1 h_end
        refine ⟨_, .part (isExpression_iff.2 ⟨rpn, h_rpn⟩), rfl, ?_⟩
        intro h_wildcard
        cases h_wildcard
      · cases h
        exact ⟨_, .wildcard, rfl, fun _ => rfl⟩
    · cases h
  · cases h

/-- A wildcard is told from the start of a part by the token behind it. -/
theorem exprSpec_complete :
    Complete Spec (fun rest => ∀ text us, rest ≠ .quoted text :: us) exprSpec := by
  intro us rest h_us _ h_rest
  cases h_us with
  | wildcard =>
    refine ⟨.wildcard, ?_⟩
    unfold exprSpec
    simp only [List.cons_append, List.nil_append, if_true]
  | whole h_text =>
    obtain ⟨rpn, h_rpn⟩ := isExpression_iff.1 h_text
    exact ⟨.matching .whole rpn, bind_eq_ok.2 ⟨rpn, h_rpn, rfl⟩⟩
  | part h_text =>
    obtain ⟨rpn, h_rpn⟩ := isExpression_iff.1 h_text
    refine ⟨.matching .part rpn, bind_eq_ok.2 ⟨rpn, h_rpn, ?_⟩⟩
    exact bind_eq_ok.2 ⟨rest, symbol_eq_ok.2 rfl, rfl⟩

theorem suchThat_complete : Complete (Body .suchThat) (fun _ => True) suchThat := by
  intro us rest h_us h_lexical _
  cases h_us with
  | @suchThat r lhs rhs h_lhs h_rhs =>
    simp only [List.cons_append, List.append_assoc, List.nil_append] at h_lexical ⊢
    obtain ⟨h_first, h_second⟩ := lexical_append.1 h_lexical.tail.tail
    have h_lhs' : Argument (slots r).1.takesNumber (slots r).1.takesName lhs := by
      cases r <;> exact h_lhs
    have h_rhs' : Argument (slots r).2.takesNumber (slots r).2.takesName rhs := by
      cases r <;> exact h_rhs
    obtain ⟨a, h_a⟩ :=
      ref_complete _ lhs (.symbol ',' :: (rhs ++ .symbol ')' :: rest)) h_lhs' h_first
      trivial
    obtain ⟨b, h_b⟩ := ref_complete _ rhs (.symbol ')' :: rest) h_rhs'
      (lexical_append.1 h_second.tail).1 trivial
    refine ⟨.suchThat r.text a b, ?_⟩
    unfold suchThat
    simp only [frontName?, RelationshipName.ofText?_eq_some.2 rfl, List.tail_cons]
    refine bind_eq_ok.2 ⟨_, symbol_eq_ok.2 rfl, ?_⟩
    refine bind_eq_ok.2 ⟨_, h_a, ?_⟩
    refine bind_eq_ok.2 ⟨_, symbol_eq_ok.2 rfl, ?_⟩
    refine bind_eq_ok.2 ⟨_, h_b, ?_⟩
    exact bind_eq_ok.2 ⟨_, symbol_eq_ok.2 rfl, rfl⟩

theorem pattern_sound : Sound (Body .pattern) pattern := by
  intro ts c rest h
  obtain ⟨⟨w, ts₁⟩, h_w, h⟩ := bind_eq_ok.1 h
  obtain ⟨ts₂, h_open, h⟩ := bind_eq_ok.1 h
  obtain ⟨⟨var, ts₃⟩, h_var, h⟩ := bind_eq_ok.1 h
  obtain ⟨ts₄, h_comma, h⟩ := bind_eq_ok.1 h
  obtain ⟨⟨spec, ts₅⟩, h_spec, h⟩ := bind_eq_ok.1 h
  obtain ⟨⟨form, ts₆⟩, h_end, h⟩ := bind_eq_ok.1 h
  cases h
  obtain ⟨vs, h_vs, rfl, h_wildcard⟩ := exprSpec_sound h_spec
  obtain rfl := symbol_eq_ok.1 h_comma
  obtain ⟨us, h_us, rfl⟩ := ref_sound .entity _ _ _ h_var
  obtain rfl := symbol_eq_ok.1 h_open
  obtain ⟨rfl, h_name⟩ := synonym_eq_ok.1 h_w
  unfold patternEnd at h_end
  -- Either the pattern is closed here, or a second wildcard follows the first.
  split at h_end
  · obtain ⟨ts₇, h_close, h_end⟩ := bind_eq_ok.1 h_end
    cases h_end
    obtain rfl := symbol_eq_ok.1 h_close
    exact ⟨_, .pattern h_name h_us h_vs, by simp⟩
  · rename_i ts₇ h_eat
    obtain rfl := eat_eq_some.1 h_eat
    split at h_end
    · rename_i h_eq
      rw [h_wildcard h_eq]
      split at h_end
      · cases h_end
      · rename_i ts₈ h_eat'
        obtain rfl := eat_eq_some.1 h_eat'
        obtain ⟨ts₉, h_close, h_end⟩ := bind_eq_ok.1 h_end
        cases h_end
        obtain rfl := symbol_eq_ok.1 h_close
        exact ⟨_, .longPattern h_name h_us, by simp⟩
    · cases h_end

theorem pattern_complete : Complete (Body .pattern) (fun _ => True) pattern := by
  intro us rest h_us h_lexical _
  cases h_us with
  | @pattern w var spec h_w h_var h_spec =>
    simp only [List.cons_append, List.append_assoc, List.nil_append] at h_lexical ⊢
    obtain ⟨h_first, h_second⟩ := lexical_append.1 h_lexical.tail.tail
    obtain ⟨a, h_a⟩ := ref_complete .entity var (.symbol ',' :: (spec ++ .symbol ')' :: rest)) h_var
      h_first trivial
    obtain ⟨b, h_b⟩ := exprSpec_complete spec (.symbol ')' :: rest) h_spec
      (lexical_append.1 h_second.tail).1 (by simp)
    refine ⟨.pattern w a b .short, ?_⟩
    refine bind_eq_ok.2 ⟨_, synonym_eq_ok.2 ⟨rfl, h_w⟩, ?_⟩
    refine bind_eq_ok.2 ⟨_, symbol_eq_ok.2 rfl, ?_⟩
    refine bind_eq_ok.2 ⟨_, h_a, ?_⟩
    refine bind_eq_ok.2 ⟨_, symbol_eq_ok.2 rfl, ?_⟩
    exact bind_eq_ok.2 ⟨_, h_b, rfl⟩
  | @longPattern w var h_w h_var =>
    simp only [List.cons_append, List.append_assoc, List.nil_append] at h_lexical ⊢
    obtain ⟨a, h_a⟩ := ref_complete .entity var
      (.symbol ',' :: .symbol '_' :: .symbol ',' :: .symbol '_' :: .symbol ')' :: rest) h_var
      (lexical_append.1 h_lexical.tail.tail).1 trivial
    refine ⟨.pattern w a .wildcard .long, ?_⟩
    refine bind_eq_ok.2 ⟨_, synonym_eq_ok.2 ⟨rfl, h_w⟩, ?_⟩
    refine bind_eq_ok.2 ⟨_, symbol_eq_ok.2 rfl, ?_⟩
    exact bind_eq_ok.2 ⟨_, h_a, rfl⟩

theorem withRef_sound : Sound Side withRef := by
  intro ts r rest h
  unfold withRef at h
  split at h
  · obtain ⟨name, h_name, h⟩ := bind_eq_ok.1 h
    cases h
    exact ⟨_, .name (quotedName_eq_ok.1 h_name).1, rfl⟩
  · rename_i digits us
    cases h
    exact ⟨_, .number digits, rfl⟩
  · obtain ⟨⟨w, ts₁⟩, h_w, h⟩ := bind_eq_ok.1 h
    obtain ⟨ts₂, h_dot, h⟩ := bind_eq_ok.1 h
    obtain ⟨⟨a, ts₃⟩, h_a, h⟩ := bind_eq_ok.1 h
    cases h
    obtain rfl := attrName_eq_ok.1 h_a
    obtain rfl := symbol_eq_ok.1 h_dot
    obtain ⟨h_ts, h_name⟩ := synonym_eq_ok.1 h_w
    exact ⟨_, .attr h_name a, h_ts⟩
  · cases h

theorem withRef_complete : Complete Side (fun _ => True) withRef := by
  intro us rest h_us _ _
  cases h_us with
  | name h_text => exact ⟨.ident _, bind_eq_ok.2 ⟨_, quotedName_eq_ok.2 ⟨h_text, rfl⟩, rfl⟩⟩
  | number digits => exact ⟨.integer _, rfl⟩
  | @attr w h_w a =>
    refine ⟨.attr ⟨w, some a⟩, ?_⟩
    refine bind_eq_ok.2 ⟨_, synonym_eq_ok.2 ⟨rfl, h_w⟩, ?_⟩
    refine bind_eq_ok.2 ⟨_, symbol_eq_ok.2 rfl, ?_⟩
    exact bind_eq_ok.2 ⟨_, attrName_eq_ok.2 rfl, rfl⟩

theorem condition_sound (kind : Section) : Sound (Body kind) (condition kind) := by
  cases kind with
  | suchThat => exact suchThat_sound
  | pattern => exact pattern_sound
  | compare =>
    intro ts c rest h
    obtain ⟨⟨lhs, ts₁⟩, h_lhs, h⟩ := bind_eq_ok.1 h
    obtain ⟨ts₂, h_equal, h⟩ := bind_eq_ok.1 h
    obtain ⟨⟨rhs, ts₃⟩, h_rhs, h⟩ := bind_eq_ok.1 h
    cases h
    obtain ⟨vs, h_vs, rfl⟩ := withRef_sound _ _ _ h_rhs
    obtain rfl := symbol_eq_ok.1 h_equal
    obtain ⟨us, h_us, rfl⟩ := withRef_sound _ _ _ h_lhs
    exact ⟨_, .compare h_us h_vs, by simp⟩

theorem condition_complete (kind : Section) :
    Complete (Body kind) (fun _ => True) (condition kind) := by
  cases kind with
  | suchThat => exact suchThat_complete
  | pattern => exact pattern_complete
  | compare =>
    intro us rest h_us h_lexical _
    cases h_us with
    | @compare lhs rhs h_lhs h_rhs =>
      simp only [List.cons_append, List.append_assoc] at h_lexical ⊢
      obtain ⟨h_first, h_second⟩ := lexical_append.1 h_lexical
      obtain ⟨a, h_a⟩ := withRef_complete lhs (.symbol '=' :: (rhs ++ rest)) h_lhs h_first trivial
      obtain ⟨b, h_b⟩ := withRef_complete rhs rest h_rhs h_second.tail trivial
      refine ⟨.compare a b, ?_⟩
      refine bind_eq_ok.2 ⟨_, h_a, ?_⟩
      refine bind_eq_ok.2 ⟨_, symbol_eq_ok.2 rfl, ?_⟩
      exact bind_eq_ok.2 ⟨_, h_b, rfl⟩

/-! ## Clauses -/

/-- In front of a body `not` is a synonym: it does not negate. -/
theorem negation_plain {kind : Section} {us : List QueryToken} (h : Body kind us)
    (rest : List QueryToken) : negation kind (us ++ rest) = (false, us ++ rest) := by
  have h_synonym :
      ¬ (frontName? (us ++ rest) = some "not" ∧ negates kind (us ++ rest).tail = true) := by
    rintro ⟨h_front, h_negates⟩
    -- No relationship has that name; elsewhere the second token decides.
    cases h with
    | suchThat r h_lhs h_rhs => cases r <;> simp [frontName?, RelationshipName.text] at h_front
    | pattern h_w h_var h_spec => simp [negates] at h_negates
    | longPattern h_w h_var => simp [negates] at h_negates
    | compare h_lhs h_rhs =>
      cases h_lhs with
      | name h_text => simp [frontName?] at h_front
      | number digits => simp [frontName?] at h_front
      | attr h_w a => simp [negates] at h_negates
  exact if_neg h_synonym

theorem negation_negated {kind : Section} {us : List QueryToken} (h : Body kind us)
    (rest : List QueryToken) :
    negation kind (.name "not" :: (us ++ rest)) = (true, us ++ rest) := by
  have h_negates : negates kind (us ++ rest) = true := by
    cases h with
    | suchThat r h_lhs h_rhs => rfl
    | pattern h_w h_var h_spec => rfl
    | longPattern h_w h_var => rfl
    | compare h_lhs h_rhs => cases h_lhs <;> rfl
  exact if_pos ⟨rfl, h_negates⟩

theorem signed_of_negation {kind : Section} {ts us : List QueryToken} (h : Body kind us)
    {rest : List QueryToken} (h_rest : (negation kind ts).2 = us ++ rest) :
    ∃ vs, Signed kind vs ∧ ts = vs ++ rest := by
  unfold negation at h_rest
  split at h_rest
  · rename_i h_not
    obtain ⟨more, rfl⟩ := frontName?_eq_some.1 h_not.1
    exact ⟨_, .negated h, by rw [show more = _ from h_rest]; rfl⟩
  · exact ⟨us, .plain h, h_rest⟩

theorem opening_opener (previous : Option Section) (kind : Section) (ts : List QueryToken) :
    opening previous (opener kind ++ ts) = .ok (kind, ts) := by
  cases kind <;> rfl

/-- What opens a clause: its own words, or `and` after a clause of the same kind. -/
theorem opening_eq_ok {previous : Option Section} {kind : Section} {ts rest : List QueryToken}
    (h : opening previous ts = .ok (kind, rest)) :
    ts = opener kind ++ rest ∨ previous = some kind ∧ ts = .name "and" :: rest := by
  unfold opening at h
  split at h
  · rename_i h_front
    obtain ⟨us, rfl⟩ := frontName?_eq_some.1 h_front
    split at h
    · rename_i h_that
      obtain ⟨vs, h_vs⟩ := frontName?_eq_some.1 h_that
      cases h
      rw [List.tail_cons] at h_vs
      subst h_vs
      exact Or.inl rfl
    · cases h
  · rename_i h_front
    obtain ⟨us, rfl⟩ := frontName?_eq_some.1 h_front
    cases h
    exact Or.inl rfl
  · rename_i h_front
    obtain ⟨us, rfl⟩ := frontName?_eq_some.1 h_front
    cases h
    exact Or.inl rfl
  · rename_i h_front
    obtain ⟨us, rfl⟩ := frontName?_eq_some.1 h_front
    split at h
    · cases h
      exact Or.inr ⟨rfl, rfl⟩
    · cases h
  · cases h

/-- What may stand in front of the next clause, after a clause or at the start. -/
def Pending : Option Section → List QueryToken → Prop
  | none, ts => ts = []
  | some kind, ts => Conjuncts kind ts

theorem clauses_sound {fuel : Nat} {previous : Option Section} {ts : List QueryToken}
    {cs : List Draft.Clause} (h : clauses fuel previous ts = .ok cs) :
    ∃ us vs, Pending previous us ∧ Clauses vs ∧ ts = us ++ vs := by
  have h_end : Pending previous [] := by
    cases previous with
    | none => rfl
    | some kind => exact .none
  induction fuel generalizing previous ts cs with
  | zero =>
    cases ts with
    | nil => exact ⟨[], [], h_end, .none, rfl⟩
    | cons t ts => cases h
  | succ fuel ih =>
    cases ts with
    | nil => exact ⟨[], [], h_end, .none, rfl⟩
    | cons t ts =>
      obtain ⟨⟨kind, rest⟩, h_opening, h⟩ := bind_eq_ok.1 h
      obtain ⟨⟨c, rest'⟩, h_c, h⟩ := bind_eq_ok.1 h
      obtain ⟨more, h_more, h⟩ := bind_eq_ok.1 h
      obtain ⟨body, h_body, h_rest⟩ := condition_sound kind _ _ _ h_c
      obtain ⟨first, h_first, rfl⟩ := signed_of_negation h_body h_rest
      obtain ⟨us, vs, h_us, h_vs, rfl⟩ := ih h_more .none
      -- The body starts a clause, or it goes on with the one before.
      obtain h_ts | ⟨rfl, h_ts⟩ := opening_eq_ok h_opening
      · refine ⟨[], _, h_end, .more kind h_first h_us h_vs, ?_⟩
        rw [h_ts]
        simp
      · refine ⟨_, vs, .more h_first h_us, h_vs, ?_⟩
        rw [h_ts]
        simp

/-- Clauses go on with a body of the kind that was opened. -/
theorem exists_clauses_of_signed {kind : Section} {previous : Option Section} {fuel : Nat}
    {ts us rest : List QueryToken} (h_opening : opening previous ts = .ok (kind, us ++ rest))
    (h_us : Signed kind us) (h_lexical : Lexical us)
    (h_rest : ∃ cs, clauses fuel (some kind) rest = .ok cs) :
    ∃ cs, clauses (fuel + 1) previous ts = .ok cs := by
  obtain ⟨cs, h_cs⟩ := h_rest
  have h_some : ts ≠ [] := by
    rintro rfl
    cases h_opening
  obtain ⟨t, ts, rfl⟩ := List.exists_cons_of_ne_nil h_some
  cases h_us with
  | plain h_body =>
    obtain ⟨c, h_c⟩ := condition_complete kind us rest h_body h_lexical trivial
    refine ⟨⟨c, false⟩ :: cs, bind_eq_ok.2 ⟨_, h_opening, ?_⟩⟩
    simp only [negation_plain h_body rest]
    refine bind_eq_ok.2 ⟨_, h_c, ?_⟩
    exact bind_eq_ok.2 ⟨_, h_cs, rfl⟩
  | @negated us h_body =>
    obtain ⟨c, h_c⟩ := condition_complete kind us rest h_body h_lexical.tail trivial
    refine ⟨⟨c, true⟩ :: cs, bind_eq_ok.2 ⟨_, h_opening, ?_⟩⟩
    simp only [List.cons_append, negation_negated h_body rest]
    refine bind_eq_ok.2 ⟨_, h_c, ?_⟩
    exact bind_eq_ok.2 ⟨_, h_cs, rfl⟩

theorem exists_clauses_of_conjuncts {kind : Section} {us vs : List QueryToken}
    (h_us : Conjuncts kind us) (h_lexical : Lexical us)
    (h_vs : ∀ fuel previous, vs.length ≤ fuel → ∃ cs, clauses fuel previous vs = .ok cs)
    (fuel : Nat) (h_fuel : (us ++ vs).length ≤ fuel) :
    ∃ cs, clauses fuel (some kind) (us ++ vs) = .ok cs := by
  induction h_us generalizing fuel with
  | none => exact h_vs fuel (some kind) h_fuel
  | @more first us h_first h_us ih =>
    simp only [List.cons_append, List.append_assoc, List.length_cons] at h_fuel h_lexical ⊢
    obtain ⟨fuel, rfl⟩ : ∃ k, fuel = k + 1 := ⟨fuel - 1, by omega⟩
    obtain ⟨h_signed, h_more⟩ := lexical_append.1 h_lexical.tail
    refine exists_clauses_of_signed rfl h_first h_signed (ih h_more fuel ?_)
    rw [List.length_append] at h_fuel
    omega

theorem exists_clauses {ts : List QueryToken} (h : Clauses ts) (h_lexical : Lexical ts) (fuel : Nat)
    (previous : Option Section) (h_fuel : ts.length ≤ fuel) :
    ∃ cs, clauses fuel previous ts = .ok cs := by
  induction h generalizing fuel previous with
  | none => exact ⟨[], by cases fuel <;> rfl⟩
  | @more kind first us vs h_first h_us h_vs ih =>
    simp only [List.append_assoc] at h_fuel h_lexical ⊢
    obtain ⟨-, h_lexical⟩ := lexical_append.1 h_lexical
    obtain ⟨h_signed, h_lexical⟩ := lexical_append.1 h_lexical
    obtain ⟨h_more, h_rest⟩ := lexical_append.1 h_lexical
    have h_opener : 0 < (opener kind).length := by cases kind <;> decide
    rw [List.length_append, List.length_append] at h_fuel
    obtain ⟨fuel, rfl⟩ : ∃ k, fuel = k + 1 := ⟨fuel - 1, by omega⟩
    refine exists_clauses_of_signed (opening_opener previous kind _) h_first h_signed ?_
    exact exists_clauses_of_conjuncts h_us h_more (ih h_rest) fuel (by omega)

/-! ## Results -/

theorem element_sound : Sound Elem element := by
  intro ts e rest h
  obtain ⟨⟨w, ts₁⟩, h_w, h_next⟩ := bind_eq_ok.1 h
  obtain ⟨rfl, h_name⟩ := synonym_eq_ok.1 h_w
  simp only at h_next
  split at h_next
  · rename_i ts₂ h_dot
    obtain rfl := eat_eq_some.1 h_dot
    obtain ⟨⟨a, ts₃⟩, h_a, h_next⟩ := bind_eq_ok.1 h_next
    cases h_next
    obtain rfl := attrName_eq_ok.1 h_a
    exact ⟨_, .attr h_name a, rfl⟩
  · cases h_next
    exact ⟨_, .synonym h_name, rfl⟩

/-- A synonym ends where no period follows. -/
theorem element_complete : Complete Elem (fun rest => eat '.' rest = none) element := by
  intro us rest h_us _ h_rest
  cases h_us with
  | @synonym w h_w =>
    have h_w : synonym (.name w :: rest) = .ok (w, rest) := synonym_eq_ok.2 ⟨rfl, h_w⟩
    refine ⟨⟨w, none⟩, bind_eq_ok.2 ⟨_, h_w, ?_⟩⟩
    simp only [h_rest]
  | @attr w h_w a =>
    refine ⟨⟨w, some a⟩, bind_eq_ok.2 ⟨_, synonym_eq_ok.2 ⟨rfl, h_w⟩, ?_⟩⟩
    exact bind_eq_ok.2 ⟨_, attrName_eq_ok.2 rfl, rfl⟩

theorem elements_sound (fuel : Nat) : Sound Elems (elements fuel) := by
  induction fuel with
  | zero =>
    intro ts es rest h
    cases h
  | succ fuel ih =>
    intro ts es rest h
    obtain ⟨⟨e, ts₁⟩, h_e, h_next⟩ := bind_eq_ok.1 h
    obtain ⟨us, h_us, rfl⟩ := element_sound _ _ _ h_e
    simp only at h_next
    split at h_next
    · rename_i ts₂ h_comma
      obtain rfl := eat_eq_some.1 h_comma
      obtain ⟨⟨more, ts₃⟩, h_more, h_next⟩ := bind_eq_ok.1 h_next
      cases h_next
      obtain ⟨vs, h_vs, rfl⟩ := ih _ _ _ h_more
      exact ⟨_, .more h_us h_vs, by simp⟩
    · cases h_next
      exact ⟨us, .one h_us, rfl⟩

theorem exists_elements {us : List QueryToken} (h : Elems us) (h_lexical : Lexical us) (fuel : Nat)
    (rest : List QueryToken) (h_fuel : us.length ≤ fuel) :
    ∃ es, elements fuel (us ++ .symbol '>' :: rest) = .ok (es, .symbol '>' :: rest) := by
  induction h generalizing fuel with
  | @one us h_us =>
    have h_pos : 0 < us.length := by cases h_us <;> simp
    obtain ⟨fuel, rfl⟩ : ∃ k, fuel = k + 1 := ⟨fuel - 1, by omega⟩
    obtain ⟨e, h_e⟩ := element_complete us (.symbol '>' :: rest) h_us h_lexical rfl
    exact ⟨[e], bind_eq_ok.2 ⟨_, h_e, rfl⟩⟩
  | @more us vs h_us h_vs ih =>
    simp only [List.append_assoc, List.cons_append, List.length_append, List.length_cons]
      at h_fuel ⊢
    obtain ⟨h_first, h_second⟩ := lexical_append.1 h_lexical
    obtain ⟨fuel, rfl⟩ : ∃ k, fuel = k + 1 := ⟨fuel - 1, by omega⟩
    obtain ⟨e, h_e⟩ :=
      element_complete us (.symbol ',' :: (vs ++ .symbol '>' :: rest)) h_us h_first rfl
    obtain ⟨es, h_es⟩ := ih h_second.tail fuel (by omega)
    refine ⟨e :: es, bind_eq_ok.2 ⟨_, h_e, ?_⟩⟩
    exact bind_eq_ok.2 ⟨_, h_es, rfl⟩

theorem selection_sound (fuel : Nat) : Sound Result (selection fuel) := by
  intro ts r rest h
  unfold selection at h
  split at h
  · rename_i h_boolean
    obtain ⟨us, rfl⟩ := frontName?_eq_some.1 h_boolean.1
    cases h
    exact ⟨_, .boolean, rfl⟩
  · split at h
    · rename_i ts₁ h_open
      obtain rfl := eat_eq_some.1 h_open
      obtain ⟨⟨es, ts₂⟩, h_es, h⟩ := bind_eq_ok.1 h
      obtain ⟨ts₃, h_close, h⟩ := bind_eq_ok.1 h
      cases h
      obtain rfl := symbol_eq_ok.1 h_close
      obtain ⟨us, h_us, rfl⟩ := elements_sound fuel _ _ _ h_es
      exact ⟨_, .tuple h_us, by simp⟩
    · obtain ⟨⟨e, ts₁⟩, h_e, h⟩ := bind_eq_ok.1 h
      cases h
      obtain ⟨us, h_us, rfl⟩ := element_sound _ _ _ h_e
      exact ⟨us, .single h_us, rfl⟩

/-- `BOOLEAN` alone is taken for the word, and before a period for a synonym: the
    tokens that are left are the same either way. -/
theorem exists_selection {us : List QueryToken} (h : Result us) (h_lexical : Lexical us)
    (fuel : Nat) (rest : List QueryToken) (h_fuel : us.length ≤ fuel)
    (h_rest : eat '.' rest = none) :
    ∃ r, selection fuel (us ++ rest) = .ok (r, rest) := by
  cases h with
  | boolean =>
    refine ⟨.boolean, ?_⟩
    unfold selection
    simp [frontName?, h_rest]
  | single h_us =>
    by_cases h_boolean : frontName? (us ++ rest) = some "BOOLEAN" ∧
        (eat '.' (us ++ rest).tail).isNone = true
    · cases h_us with
      | synonym h_w => exact ⟨.boolean, if_pos h_boolean⟩
      | attr h_w a => simp at h_boolean
    · obtain ⟨e, h_e⟩ := element_complete us rest h_us h_lexical h_rest
      have h_open : eat '<' (us ++ rest) = none := by cases h_us <;> rfl
      refine ⟨.tuple [e], ?_⟩
      unfold selection
      rw [if_neg h_boolean, h_open]
      exact bind_eq_ok.2 ⟨_, h_e, rfl⟩
  | @tuple us h_us =>
    simp only [List.cons_append, List.append_assoc, List.nil_append, List.length_cons,
      List.length_append] at h_fuel h_lexical ⊢
    obtain ⟨es, h_es⟩ :=
      exists_elements h_us (lexical_append.1 h_lexical.tail).1 fuel rest (by omega)
    refine ⟨.tuple es, bind_eq_ok.2 ⟨_, h_es, ?_⟩⟩
    exact bind_eq_ok.2 ⟨_, symbol_eq_ok.2 rfl, rfl⟩

/-! ## Declarations -/

theorem declared_sound (e : Entity) (fuel : Nat) :
    Sound (fun us => ∃ ns, Names ns ∧ us = ns ++ [.symbol ';']) (declared e fuel) := by
  induction fuel with
  | zero =>
    intro ts ds rest h
    cases h
  | succ fuel ih =>
    intro ts ds rest h
    obtain ⟨⟨w, ts₁⟩, h_w, h_next⟩ := bind_eq_ok.1 h
    obtain ⟨rfl, h_name⟩ := synonym_eq_ok.1 h_w
    simp only at h_next
    split at h_next
    · rename_i ts₂ h_comma
      obtain rfl := eat_eq_some.1 h_comma
      obtain ⟨⟨more, ts₃⟩, h_more, h_next⟩ := bind_eq_ok.1 h_next
      cases h_next
      obtain ⟨_, ⟨ns, h_ns, rfl⟩, rfl⟩ := ih _ _ _ h_more
      exact ⟨_, ⟨_, .more h_name h_ns, rfl⟩, by simp⟩
    · obtain ⟨ts₂, h_end, h_next⟩ := bind_eq_ok.1 h_next
      cases h_next
      obtain rfl := symbol_eq_ok.1 h_end
      exact ⟨_, ⟨_, .one h_name, rfl⟩, rfl⟩

theorem exists_declared {ns : List QueryToken} (h : Names ns) (e : Entity) (fuel : Nat)
    (rest : List QueryToken) (h_fuel : ns.length ≤ fuel) :
    ∃ ds, declared e fuel (ns ++ .symbol ';' :: rest) = .ok (ds, rest) := by
  induction h generalizing fuel with
  | @one w h_w =>
    obtain ⟨fuel, rfl⟩ : ∃ k, fuel = k + 1 :=
      ⟨fuel - 1, by rw [List.length_singleton] at h_fuel; omega⟩
    exact ⟨[(e, w)], bind_eq_ok.2 ⟨_, synonym_eq_ok.2 ⟨rfl, h_w⟩, rfl⟩⟩
  | @more w ns h_w h_ns ih =>
    simp only [List.length_cons] at h_fuel
    obtain ⟨fuel, rfl⟩ : ∃ k, fuel = k + 1 := ⟨fuel - 1, by omega⟩
    obtain ⟨ds, h_ds⟩ := ih fuel (by omega)
    refine ⟨(e, w) :: ds, bind_eq_ok.2 ⟨_, synonym_eq_ok.2 ⟨rfl, h_w⟩, ?_⟩⟩
    exact bind_eq_ok.2 ⟨_, h_ds, rfl⟩

theorem declarations_sound (fuel : Nat) : Sound Declarations (declarations fuel) := by
  induction fuel with
  | zero =>
    intro ts ds rest h
    cases h
    exact ⟨[], .none, rfl⟩
  | succ fuel ih =>
    intro ts ds rest h
    unfold declarations at h
    split at h
    · cases h
      exact ⟨[], .none, rfl⟩
    · rename_i e h_front
      obtain ⟨w, h_w, h_e⟩ := Option.bind_eq_some_iff.1 h_front
      obtain rfl := Entity.ofKeyword?_eq_some.1 h_e
      obtain ⟨us, rfl⟩ := frontName?_eq_some.1 h_w
      obtain ⟨⟨first, ts₁⟩, h_first, h⟩ := bind_eq_ok.1 h
      obtain ⟨⟨more, ts₂⟩, h_more, h⟩ := bind_eq_ok.1 h
      cases h
      obtain ⟨_, ⟨ns, h_ns, rfl⟩, h_us⟩ := declared_sound e _ _ _ _ h_first
      obtain ⟨vs, h_vs, rfl⟩ := ih _ _ _ h_more
      refine ⟨_, .more e h_ns h_vs, ?_⟩
      rw [show us = _ from h_us]
      simp

/-- Declarations end where no word declares anything. -/
theorem exists_declarations {ds : List QueryToken} (h : Declarations ds) (fuel : Nat)
    (rest : List QueryToken) (h_fuel : ds.length ≤ fuel)
    (h_rest : (frontName? rest).bind Entity.ofKeyword? = none) :
    ∃ r, declarations fuel (ds ++ rest) = .ok (r, rest) := by
  induction h generalizing fuel with
  | none =>
    refine ⟨[], ?_⟩
    cases fuel with
    | zero => rfl
    | succ fuel =>
      unfold declarations
      rw [List.nil_append, h_rest]
  | @more e ns ds h_ns h_ds ih =>
    simp only [List.cons_append, List.append_assoc, List.length_cons, List.length_append]
      at h_fuel ⊢
    obtain ⟨fuel, rfl⟩ : ∃ k, fuel = k + 1 := ⟨fuel - 1, by omega⟩
    obtain ⟨first, h_first⟩ := exists_declared h_ns e (fuel + 1) (ds ++ rest) (by omega)
    obtain ⟨more, h_more⟩ := ih fuel (by omega)
    refine ⟨first ++ more, ?_⟩
    unfold declarations
    simp only [frontName?, Option.bind_some, Entity.ofKeyword?_eq_some.2 rfl, List.tail_cons]
    refine bind_eq_ok.2 ⟨_, h_first, ?_⟩
    exact bind_eq_ok.2 ⟨_, h_more, rfl⟩

end QueryReader

/-! ## Whole queries -/

section

open QueryReader QueryGrammar

/-- Tokens are read as a query only if they are a sentence. -/
theorem Draft.sentence_of_ofTokens {ts : List QueryToken} {d : Draft}
    (h : Draft.ofTokens ts = .ok d) : Sentence ts := by
  obtain ⟨⟨ds, ts₁⟩, h_ds, h⟩ := bind_eq_ok.1 h
  simp only at h
  split at h
  · rename_i h_select
    obtain ⟨ts₂, rfl⟩ := frontName?_eq_some.1 h_select
    obtain ⟨⟨r, ts₃⟩, h_r, h⟩ := bind_eq_ok.1 h
    obtain ⟨cs, h_cs, h⟩ := bind_eq_ok.1 h
    obtain ⟨us, h_us, rfl⟩ := declarations_sound _ _ _ _ h_ds
    obtain ⟨vs, h_vs, h_ts⟩ := selection_sound _ _ _ _ h_r
    obtain ⟨_, ws, rfl, h_ws, rfl⟩ := clauses_sound h_cs
    rw [show ts₂ = _ from h_ts]
    simpa using Sentence.query h_us h_vs h_ws
  · cases h

/-- The sentences are read. -/
theorem Draft.exists_ofTokens {ts : List QueryToken} (h : Sentence ts) (h_lexical : Lexical ts) :
    ∃ d, Draft.ofTokens ts = .ok d := by
  cases h with
  | @query ds rs cs h_ds h_rs h_cs =>
    simp only [List.cons_append, List.append_assoc] at h_lexical ⊢
    obtain ⟨-, h_lexical⟩ := lexical_append.1 h_lexical
    obtain ⟨h_result, h_clauses⟩ := lexical_append.1 h_lexical.tail
    -- Behind the result there is nothing, or a word that opens a clause.
    have h_rest : eat '.' cs = none := by
      cases h_cs with
      | none => rfl
      | more kind h_first h_us h_vs => cases kind <;> rfl
    have h_length : ds.length + (rs.length + cs.length + 1) =
        (ds ++ .name "Select" :: (rs ++ cs)).length := by simp
    obtain ⟨d, h_d⟩ := exists_declarations h_ds _ (.name "Select" :: (rs ++ cs))
      (show ds.length ≤ (ds ++ .name "Select" :: (rs ++ cs)).length by omega) rfl
    obtain ⟨r, h_r⟩ := exists_selection h_rs h_result _ cs
      (show rs.length ≤ (ds ++ .name "Select" :: (rs ++ cs)).length by omega) h_rest
    obtain ⟨c, h_c⟩ := exists_clauses h_cs h_clauses _ none
      (show cs.length ≤ (ds ++ .name "Select" :: (rs ++ cs)).length by omega)
    refine ⟨⟨d, r, c⟩, bind_eq_ok.2 ⟨_, h_d, ?_⟩⟩
    simp only [frontName?, if_true, List.tail_cons]
    refine bind_eq_ok.2 ⟨_, h_r, ?_⟩
    exact bind_eq_ok.2 ⟨_, h_c, rfl⟩

end

end ProgramQuery
