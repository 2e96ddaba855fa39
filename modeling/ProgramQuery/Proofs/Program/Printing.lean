/-
  ProgramQuery.Proofs.Program.Printing

  Expressions and conditions are read back from their texts.

  The text of an operand can be derived at the level that its place asks for: a
  sum to the left of an operator of sums, a product to the right of it, and a
  factor to the right of an operator of products.  Where the expression itself is
  of a lower level the text has parentheses, and a derivation in parentheses is a
  factor.  Since derivations are what is read, so are the texts.
-/

import ProgramQuery.Proofs.Program.Recognise
import ProgramQuery.Proofs.Program.Scan

namespace ProgramQuery

/-! ## Levels -/

/-- The tokens can be derived as an expression at a level. -/
def Derives (l : Option Level) (e : Expr) (ts : List Located) : Prop :=
  ∃ d : ExprDerivation l, d.expr = e ∧ d.tokens = ts

namespace Derives

variable {e : Expr} {ts : List Located}

theorem single {l : Level} (h : Derives l.operand e ts) : Derives (some l) e ts := by
  obtain ⟨d, h_expr, h_tokens⟩ := h
  exact ⟨.single d, h_expr, h_tokens⟩

/-- A factor stands at every level. -/
theorem of_factor (h : Derives none e ts) (l : Option Level) : Derives l e ts := by
  have h_product : Derives (some .product) e ts := single (l := .product) h
  rcases l with _ | _ | _
  · exact h
  · exact single (l := .sum) h_product
  · exact h_product

/-- A chain of any level is a sum. -/
theorem sum {l : Level} (h : Derives (some l) e ts) : Derives (some .sum) e ts := by
  cases l with
  | sum => exact h
  | product => exact single (l := .sum) h

/-- Parentheses make a factor of every chain. -/
theorem parens {l : Level} (h : Derives (some l) e ts) (opening closing : Position) :
    Derives none e (⟨.symbol .openParen, opening⟩ :: ts ++ [⟨.symbol .closeParen, closing⟩]) := by
  obtain ⟨d, rfl, rfl⟩ := h.sum
  exact ⟨.parens opening d closing, rfl, rfl⟩

theorem binary {op : BinOp} {lhs rhs : Expr} {us : List Located}
    (h_lhs : Derives (some op.level) lhs ts) (pos : Position)
    (h_rhs : Derives op.level.operand rhs us) :
    Derives (some op.level) (.binary op lhs rhs) (ts ++ ⟨.symbol op.symbol, pos⟩ :: us) := by
  obtain ⟨d, rfl, rfl⟩ := h_lhs
  obtain ⟨d', rfl, rfl⟩ := h_rhs
  exact ⟨.binary d op rfl pos d', rfl, rfl⟩

end Derives

/-- The level at which an operand has to be derived: `outer` is how tightly the operator around
    it binds, and `right` says whether it stands to the right of that operator. -/
def operandLevel : Nat → Bool → Option Level
  | 0, _ | 1, false => some .sum
  | 1, true | 2, false => some .product
  | _, _ => none

theorem operandLevel_left (op : BinOp) : operandLevel op.precedence false = some op.level := by
  cases op <;> rfl

theorem operandLevel_right (op : BinOp) : operandLevel op.precedence true = op.level.operand := by
  cases op <;> rfl

/-- A chain that is written without parentheses is of the level that its place asks for, or of a
    higher one. -/
theorem Derives.bare {op : BinOp} {e : Expr} {ts : List Located} (h : Derives (some op.level) e ts)
    {outer : Nat} {right : Bool}
    (h_bare : (op.precedence < outer || (right && op.precedence == outer)) = false) :
    Derives (operandLevel outer right) e ts := by
  rcases outer with _ | _ | _ | n
  · exact h.sum
  · cases right with
    | false => exact h.sum
    | true =>
      have h_op : op.level = .product := by revert h_bare; cases op <;> decide
      rw [h_op] at h
      exact h
  · have h_op : right = false ∧ op.level = .product := by
      revert h_bare
      cases op <;> cases right <;> decide
    rw [h_op.2] at h
    rw [h_op.1]
    exact h
  · have h_low : op.precedence < n + 3 := by cases op <;> simp [BinOp.precedence]
    simp [h_low] at h_bare

/-! ## Expressions -/

theorem BinOp.toList_text (op : BinOp) : op.text.toList = op.symbol.chars := by
  cases op <;> rfl

theorem RelOp.toList_text (op : RelOp) : op.text.toList = op.symbol.chars := by
  cases op <;> rfl

namespace Spells

variable {pos : Position} {rest : List Char}

/-- A name and a space. -/
theorem word {text : String} (h : Text.isNameString text = true) :
    Spells pos (text.toList ++ [' ']) [⟨.name text, pos⟩] rest := by
  have h_name : Spells pos text.toList [⟨.name text, pos⟩] ([' '] ++ rest) :=
    Spells.name h (endsWord_cons (by decide) rest)
  exact h_name.append space

/-- A symbol and a space. -/
theorem mark (s : Symbol) : Spells pos (s.chars ++ [' ']) [⟨.symbol s, pos⟩] rest := by
  have h_symbol : Spells pos s.chars [⟨.symbol s, pos⟩] ([' '] ++ rest) :=
    Spells.symbol s fun _ => by simp
  exact h_symbol.append space

/-- A symbol between spaces. -/
theorem spacedMark (s : Symbol) :
    Spells pos ([' '] ++ (s.chars ++ [' '])) [⟨.symbol s, pos.after ' '⟩] rest :=
  space.append (mark s)

/-- Something in parentheses. -/
theorem parens {cs : List Char} {ts : List Located}
    (h : Spells (pos.advance ['(']) cs ts ([')'] ++ rest)) :
    Spells pos (['('] ++ (cs ++ [')'])) (⟨.symbol .openParen, pos⟩ :: ts ++
      [⟨.symbol .closeParen, (pos.advance ['(']).advance cs⟩]) rest := by
  have h_opening : Spells pos ['('] [⟨.symbol .openParen, pos⟩] (cs ++ [')'] ++ rest) :=
    Spells.symbol .openParen (by simp [Symbol.grows])
  have h_closing : Spells ((pos.advance ['(']).advance cs) [')']
      [⟨.symbol .closeParen, (pos.advance ['(']).advance cs⟩] rest :=
    Spells.symbol .closeParen (by simp [Symbol.grows])
  exact h_opening.append (h.append h_closing)

end Spells

namespace Expr

/-- The characters of two operands and the operator between them. -/
def chainChars (op : BinOp) (lhs rhs : Expr) : List Char :=
  (lhs.operandText op.precedence false).toList ++
    ([' '] ++ (op.symbol.chars ++ [' ']) ++ (rhs.operandText op.precedence true).toList)

theorem toList_operandText_binary (op : BinOp) (lhs rhs : Expr) (outer : Nat) (right : Bool) :
    ((Expr.binary op lhs rhs).operandText outer right).toList =
      if op.precedence < outer || (right && op.precedence == outer) then
        ['('] ++ (chainChars op lhs rhs ++ [')'])
      else chainChars op lhs rhs := by
  simp only [operandText]
  split
  · simp [chainChars, op.toList_text]
  · simp [chainChars, op.toList_text]

/-- The text of an operand is scanned to tokens that can be derived at the level of its place. -/
theorem exists_spells_operand {e : Expr} (h : e.isCanonical = true) (outer : Nat) (right : Bool)
    (pos : Position) {rest : List Char} (h_rest : EndsWord rest) :
    ∃ ts, Spells pos (e.operandText outer right).toList ts rest ∧
      Derives (operandLevel outer right) e ts := by
  induction e generalizing outer right pos rest with
  | var name =>
    refine ⟨_, Spells.name h h_rest, Derives.of_factor ?_ _⟩
    exact ⟨.name name pos, rfl, rfl⟩
  | const digits =>
    rw [isCanonical, Text.isNumeral_iff] at h
    refine ⟨_, Spells.integer h.1 h.2 h_rest, Derives.of_factor ?_ _⟩
    exact ⟨.integer digits pos, rfl, rfl⟩
  | binary op lhs rhs ih_lhs ih_rhs =>
    rw [isCanonical, Bool.and_eq_true] at h
    -- Both operands can be derived, each at its own place.
    have h_chain : ∀ pos rest, EndsWord rest → ∃ ts, Spells pos (chainChars op lhs rhs) ts rest ∧
        Derives (some op.level) (.binary op lhs rhs) ts := by
      intro pos rest h_rest
      obtain ⟨ts, h_ts, h_lhs⟩ := ih_lhs h.1 op.precedence false pos
        (endsWord_cons (c := ' ') (by decide) (op.symbol.chars ++ [' '] ++
          (rhs.operandText op.precedence true).toList ++ rest))
      obtain ⟨us, h_us, h_rhs⟩ := ih_rhs h.2 op.precedence true _ h_rest
      rw [operandLevel_left] at h_lhs
      rw [operandLevel_right] at h_rhs
      exact ⟨_, h_ts.append ((Spells.spacedMark op.symbol).append h_us), h_lhs.binary _ h_rhs⟩
    rw [toList_operandText_binary]
    split
    · obtain ⟨ts, h_ts, h_derives⟩ := h_chain (pos.advance ['(']) ([')'] ++ rest)
        (endsWord_cons (by decide) rest)
      exact ⟨_, Spells.parens h_ts, Derives.of_factor (h_derives.parens _ _) _⟩
    · rename_i h_bare
      obtain ⟨ts, h_ts, h_derives⟩ := h_chain pos rest h_rest
      exact ⟨ts, h_ts, h_derives.bare (Bool.eq_false_iff.2 h_bare)⟩

/-- The text of an expression is scanned to tokens that can be derived. -/
theorem exists_spells_text {e : Expr} (h : e.isCanonical = true) (pos : Position)
    {rest : List Char} (h_rest : EndsWord rest) :
    ∃ ts, Spells pos e.text.toList ts rest ∧
      ∃ d : ExprDerivation (some .sum), d.expr = e ∧ d.tokens = ts :=
  exists_spells_operand h 0 false pos h_rest

theorem read_text {e : Expr} (h : e.isCanonical = true) : Expr.read e.text = .ok e := by
  obtain ⟨ts, h_spells, d, h_expr, rfl⟩ := exists_spells_text h .start endsWord_nil
  have h_scanned := h_spells _ (.nil _)
  rw [List.append_nil] at h_scanned
  refine Expr.read_eq_ok.2 ⟨_, TokenStream.scan_eq_ok.2 h_scanned, d, ?_, h_expr⟩
  simp [TokenStream.prepend]

end Expr

/-! ## Conditions -/

namespace Cond

theorem toList_text_rel (op : RelOp) (lhs rhs : Expr) : (Cond.rel op lhs rhs).text.toList =
    lhs.text.toList ++ ([' '] ++ (op.symbol.chars ++ [' ']) ++ rhs.text.toList) := by
  simp [text, op.toList_text]

theorem toList_text_not (arg : Cond) :
    (Cond.not arg).text.toList = ['!'] ++ (['('] ++ (arg.text.toList ++ [')'])) := by
  simp [text]

theorem toList_text_join (connective : Connective) (lhs rhs : Cond) :
    (connective.join lhs rhs).text.toList = (['('] ++ (lhs.text.toList ++ [')'])) ++
      ([' '] ++ (connective.symbol.chars ++ [' ']) ++ (['('] ++ (rhs.text.toList ++ [')']))) := by
  cases connective with
  | and => simp [text, Connective.join, Connective.symbol, Symbol.chars]
  | or => simp [text, Connective.join, Connective.symbol, Symbol.chars]

/-- The characters are scanned, in front of all that ends a word, to tokens of a condition. -/
def Printed (cs : List Char) (c : Cond) : Prop :=
  ∀ pos rest, EndsWord rest →
    ∃ ts, Spells pos cs ts rest ∧ ∃ d : CondDerivation, d.cond = c ∧ d.tokens = ts

/-- In parentheses a condition can stand in front of anything. -/
theorem Printed.parens {cs : List Char} {c : Cond} (h : Printed cs c) (pos : Position)
    (rest : List Char) : ∃ d : CondDerivation, ∃ closing, d.cond = c ∧
      Spells pos (['('] ++ (cs ++ [')'])) (⟨.symbol .openParen, pos⟩ :: d.tokens ++
        [⟨.symbol .closeParen, closing⟩]) rest := by
  obtain ⟨ts, h_ts, d, h_cond, rfl⟩ :=
    h (pos.advance ['(']) _ (endsWord_cons (c := ')') (by decide) rest)
  exact ⟨d, _, h_cond, Spells.parens h_ts⟩

theorem Printed.join {lhs rhs : Cond} (h_lhs : Printed lhs.text.toList lhs)
    (h_rhs : Printed rhs.text.toList rhs) (connective : Connective) :
    Printed (connective.join lhs rhs).text.toList (connective.join lhs rhs) := by
  intro pos rest _
  rw [toList_text_join]
  obtain ⟨d, _, h_d, h_left⟩ := h_lhs.parens pos ([' '] ++ (connective.symbol.chars ++ [' ']) ++
    (['('] ++ (rhs.text.toList ++ [')'])) ++ rest)
  obtain ⟨d', _, h_d', h_right⟩ := h_rhs.parens _ rest
  have h_text := h_left.append ((Spells.spacedMark connective.symbol).append h_right)
  exact ⟨_, h_text, .compound _ d _ connective _ _ d' _,
    by rw [CondDerivation.cond, h_d, h_d'], rfl⟩

/-- The text of a condition is scanned to tokens that can be derived. -/
theorem printed_text {c : Cond} (h : c.isCanonical = true) : Printed c.text.toList c := by
  induction c with
  | rel op lhs rhs =>
    intro pos rest h_rest
    rw [isCanonical, Bool.and_eq_true] at h
    obtain ⟨ts, h_ts, d, rfl, rfl⟩ := Expr.exists_spells_text h.1 pos
      (endsWord_cons (c := ' ') (by decide) (op.symbol.chars ++ [' '] ++ rhs.text.toList ++ rest))
    obtain ⟨us, h_us, d', rfl, rfl⟩ := Expr.exists_spells_text h.2 _ h_rest
    rw [toList_text_rel]
    have h_text := h_ts.append ((Spells.spacedMark op.symbol).append h_us)
    exact ⟨_, h_text, .comparison d op _ d', rfl, rfl⟩
  | not arg ih =>
    intro pos rest _
    rw [toList_text_not]
    have h_bang : Spells pos ['!'] [⟨.symbol .bang, pos⟩]
        (['('] ++ (arg.text.toList ++ [')']) ++ rest) :=
      Spells.symbol .bang fun _ => by simp
    obtain ⟨d, _, h_d, h_arg⟩ := (ih h).parens (pos.advance ['!']) rest
    exact ⟨_, h_bang.append h_arg, .negation pos _ d _, by rw [CondDerivation.cond, h_d], rfl⟩
  | and lhs rhs ih_lhs ih_rhs =>
    rw [isCanonical, Bool.and_eq_true] at h
    exact (ih_lhs h.1).join (ih_rhs h.2) .and
  | or lhs rhs ih_lhs ih_rhs =>
    rw [isCanonical, Bool.and_eq_true] at h
    exact (ih_lhs h.1).join (ih_rhs h.2) .or

end Cond

/-! ## Loops -/

/-- The characters in front of the condition of a loop that makes up a procedure. -/
def loopHead : List Char :=
  "procedure".toList ++ [' '] ++ ("p".toList ++ [' '] ++ (Symbol.openBrace.chars ++ [' '] ++
    ("while".toList ++ [' '])))

/-- The characters behind its condition. -/
def loopTail : List Char :=
  [' '] ++ (Symbol.openBrace.chars ++ [' ']) ++ ("x".toList ++ [' '] ++
    (Symbol.equal.chars ++ [' '] ++ ("x".toList ++ (Symbol.semicolon.chars ++ [' '] ++
      (Symbol.closeBrace.chars ++ [' '] ++ Symbol.closeBrace.chars)))))

theorem toList_loop (cond : String) :
    ("procedure p \x7b while (" ++ cond ++ ") \x7b x = x; \x7d \x7d").toList =
      loopHead ++ (['('] ++ (cond.toList ++ [')']) ++ loopTail) := by
  have h_head : "procedure p \x7b while (".toList = loopHead ++ ['('] := by decide
  have h_tail : ") \x7b x = x; \x7d \x7d".toList = [')'] ++ loopTail := by decide
  simp only [String.toList_append, h_head, h_tail, List.append_assoc]

theorem exists_spells_loopHead (rest : List Char) : ∃ procedure name opening loop,
    Spells .start loopHead ([⟨.name "procedure", procedure⟩] ++ ([⟨.name "p", name⟩] ++
      ([⟨.symbol .openBrace, opening⟩] ++ [⟨.name "while", loop⟩]))) rest :=
  ⟨_, _, _, _, (Spells.word (by decide)).append ((Spells.word (by decide)).append
    ((Spells.mark .openBrace).append (Spells.word (by decide))))⟩

theorem exists_spells_loopTail (pos : Position) :
    ∃ opening body equal name semicolon closing closing',
      Spells pos loopTail ([⟨.symbol .openBrace, opening⟩] ++ ([⟨.name "x", body⟩] ++
        ([⟨.symbol .equal, equal⟩] ++ ([⟨.name "x", name⟩] ++ ([⟨.symbol .semicolon, semicolon⟩] ++
          ([⟨.symbol .closeBrace, closing⟩] ++ [⟨.symbol .closeBrace, closing'⟩])))))) [] := by
  have h_x : Text.isNameString "x" = true := by decide
  exact ⟨_, _, _, _, _, _, _, (Spells.spacedMark .openBrace).append ((Spells.word h_x).append
    ((Spells.mark .equal).append ((Spells.name h_x (endsWord_cons (c := ';') (by decide) _)).append
      ((Spells.mark .semicolon).append ((Spells.mark .closeBrace).append
        (Spells.symbol .closeBrace (by decide)))))))⟩

/-- The text is read as a procedure with the loop. -/
theorem readProcedures_loop {c : Cond} (h : c.isCanonical = true) :
    ∃ procedure loop body,
      readProcedures ("procedure p \x7b while (" ++ c.text ++ ") \x7b x = x; \x7d \x7d") =
        .ok [⟨"p", procedure, [.whileLoop loop c [.simple body (.assign "x" (.var "x"))]]⟩] := by
  obtain ⟨procedure, name, opening, loop, h_head⟩ :=
    exists_spells_loopHead (['('] ++ (c.text.toList ++ [')']) ++ loopTail ++ [])
  obtain ⟨d, closing, h_cond, h_spells⟩ :=
    (Cond.printed_text h).parens (Position.start.advance loopHead) (loopTail ++ [])
  obtain ⟨opening', body, equal, value, semicolon, closing', closing'', h_tail⟩ :=
    exists_spells_loopTail
      ((Position.start.advance loopHead).advance (['('] ++ (c.text.toList ++ [')'])))
  have h_scanned := (h_head.append (h_spells.append h_tail)) _ (.nil _)
  rw [List.append_nil, ← toList_loop] at h_scanned
  let inner : StmtDerivation .block := .block opening' (.last (.assign "x" body equal
    (.single (l := .sum) (.single (l := .product) (.name "x" value))) semicolon)) closing'
  let derivation : ProcedureDerivation := ⟨procedure, "p", name,
    .block opening (.last (.whileLoop loop (Position.start.advance loopHead) d closing inner))
      closing''⟩
  refine ⟨procedure, loop, body, ?_⟩
  unfold readProcedures
  rw [TokenStream.scan_eq_ok.2 h_scanned]
  refine TokenStream.procedures_eq_ok.2 ⟨⟨derivation, []⟩, ?_, ?_⟩
  · simp [ProgramDerivation.tokens, ProgramDerivation.procedures, ProcedureDerivation.tokens,
      StmtDerivation.tokens, ExprDerivation.tokens, TokenStream.prepend, derivation, inner]
  · rw [← h_cond]
    rfl

theorem read_loop {c : Cond} (h : c.isCanonical = true) :
    ∃ p, Program.read ("procedure p \x7b while (" ++ c.text ++ ") \x7b x = x; \x7d \x7d") = .ok p ∧
      p.procedureTrees = [⟨"p", [.whileLoop 1 c [.simple 0 (.assign "x" (.var "x"))]]⟩] := by
  obtain ⟨procedure, loop, body, h_read⟩ := readProcedures_loop h
  have h_trees := Program.procedureTrees_ofTexts
    [⟨"p", procedure, [.whileLoop loop c [.simple body (.assign "x" (.var "x"))]]⟩]
  have h_placed : Program.placedFrom 0
      [⟨"p", procedure, [.whileLoop loop c [.simple body (.assign "x" (.var "x"))]]⟩] =
        [⟨"p", [.whileLoop 1 c [.simple 0 (.assign "x" (.var "x"))]]⟩] := by
    simp [Program.placedFrom, Stmt.place, Stmt.sizeList, Stmt.size]
  rw [h_placed] at h_trees
  refine ⟨_, ?_, h_trees⟩
  rw [Program.read_of_texts h_read]
  simp only [Program.fault?, h_trees]
  rfl

/-- Whatever the nesting of operators, the text of an expression over names and numerals is read
    as this expression, and a loop whose condition is written as the text of a condition has this
    condition. -/
theorem printed_texts_read_back :
    (∀ e : Expr, e.isCanonical = true → Expr.read e.text = .ok e) ∧
      ∀ c : Cond, c.isCanonical = true → ∃ p,
        Program.read ("procedure p \x7b while (" ++ c.text ++ ") \x7b x = x; \x7d \x7d") = .ok p ∧
          p.procedureTrees = [⟨"p", [.whileLoop 1 c [.simple 0 (.assign "x" (.var "x"))]]⟩] :=
  ⟨fun _ => Expr.read_text, fun _ => read_loop⟩

/-- Differences to the right of differences, and a comparison that starts with a parenthesis. -/
theorem nested_texts_read_back :
    let e : Expr := .binary .sub (.var "a") (.binary .sub (.binary .mul (.var "b")
      (.binary .mod (.const "10") (.var "c"))) (.const "0"))
    let c : Cond :=
      .or (.rel .lt (.binary .mul (.binary .add (.var "x") (.const "1")) (.var "y")) e)
        (.not (.rel .ge e (.const "7")))
    e.text = "a - (b * (10 % c) - 0)" ∧
      c.text = "((x + 1) * y < a - (b * (10 % c) - 0)) || (!(a - (b * (10 % c) - 0) >= 7))" ∧
      e.isCanonical = true ∧ c.isCanonical = true ∧ Expr.read e.text = .ok e ∧
      ∃ p, Program.read ("procedure p \x7b while (" ++ c.text ++
          ") \x7b x = x; \x7d \x7d") = .ok p ∧
        p.procedureTrees = [⟨"p", [.whileLoop 1 c [.simple 0 (.assign "x" (.var "x"))]]⟩] := by
  intro e c
  have h_e : e.isCanonical = true := by decide
  have h_c : c.isCanonical = true := by decide
  exact ⟨by decide +kernel, by decide +kernel, h_e, h_c, printed_texts_read_back.1 e h_e,
    printed_texts_read_back.2 c h_c⟩

end ProgramQuery
