/-
  ProgramQuery.Proofs.Program.Phrases

  Reading expressions and conditions against the grammar.

  A reader that gives a value back has consumed the leaves of a derivation of
  that value, whatever its fuel; a fuel of the number of tokens is never used
  up, so more of it changes no answer; and on the leaves of a derivation a reader
  with enough fuel gives the derived value.  Behind a parenthesis a condition is
  tried first: since no expression starts with a condition in parentheses, the
  attempt fails wherever a comparison is derived.
-/

import ProgramQuery.Proofs.Program.Grammar
import ProgramQuery.Proofs.Program.Read

namespace ProgramQuery

namespace Reader

/-! ## Single tokens -/

@[simp] theorem front?_cons (t : Located) (ts : List Located) :
    front? (t :: ts) = some t.token := rfl

@[simp] theorem front?_nil : front? [] = none := rfl

theorem front?_eq_some {ts : List Located} {t : Token} :
    front? ts = some t ↔ ∃ pos rest, ts = ⟨t, pos⟩ :: rest := by
  cases ts with
  | nil => simp
  | cons u us =>
    obtain ⟨token, pos⟩ := u
    simp

theorem symbol_eq_ok {s : Symbol} {ts rest : List Located} :
    symbol s ts = .ok rest ↔ ∃ pos, ts = ⟨.symbol s, pos⟩ :: rest := by
  unfold symbol
  split
  · rename_i h_front
    obtain ⟨pos, us, rfl⟩ := front?_eq_some.1 h_front
    simp
  · rename_i h_front
    simp only [reduceCtorEq, false_iff, not_exists]
    rintro pos rfl
    exact h_front rfl

theorem keyword_eq_ok {text : String} {ts rest : List Located} :
    keyword text ts = .ok rest ↔ ∃ pos, ts = ⟨.name text, pos⟩ :: rest := by
  unfold keyword
  split
  · rename_i h_front
    obtain ⟨pos, us, rfl⟩ := front?_eq_some.1 h_front
    simp
  · rename_i h_front
    simp only [reduceCtorEq, false_iff, not_exists]
    rintro pos rfl
    exact h_front rfl

theorem name_eq_ok {ts rest : List Located} {text : String} :
    name ts = .ok (text, rest) ↔ ∃ pos, ts = ⟨.name text, pos⟩ :: rest := by
  unfold name
  split
  · simp [eq_comm, and_comm]
  · rename_i h_none
    simp only [reduceCtorEq, false_iff, not_exists]
    rintro pos rfl
    exact h_none text pos rest rfl

theorem parenthesised_eq_ok {α : Type} {inner : Reader α} {ts rest : List Located} {a : α} :
    parenthesised inner ts = .ok (a, rest) ↔ ∃ opening closing mid,
      ts = ⟨.symbol .openParen, opening⟩ :: mid ∧
        inner mid = .ok (a, ⟨.symbol .closeParen, closing⟩ :: rest) := by
  constructor
  · intro h
    obtain ⟨mid, h_open, h⟩ := bind_eq_ok.1 h
    obtain ⟨⟨b, mid'⟩, h_inner, h⟩ := bind_eq_ok.1 h
    obtain ⟨mid'', h_close, h⟩ := bind_eq_ok.1 h
    cases h
    obtain ⟨opening, rfl⟩ := symbol_eq_ok.1 h_open
    obtain ⟨closing, rfl⟩ := symbol_eq_ok.1 h_close
    exact ⟨opening, closing, mid, rfl, h_inner⟩
  · rintro ⟨opening, closing, mid, rfl, h_inner⟩
    refine bind_eq_ok.2 ⟨mid, symbol_eq_ok.2 ⟨opening, rfl⟩, ?_⟩
    refine bind_eq_ok.2 ⟨_, h_inner, ?_⟩
    exact bind_eq_ok.2 ⟨rest, symbol_eq_ok.2 ⟨closing, rfl⟩, rfl⟩

/-! ## Soundness -/

/-- What a reader consumes are the leaves of a derivation of what it gives back. -/
def Sound {δ α : Type} (tokens : δ → List Located) (value : δ → α) (read : Reader α) : Prop :=
  ∀ ts a rest, read ts = .ok (a, rest) → ∃ d, ts = tokens d ++ rest ∧ value d = a

/-- A sound reader consumes a token at least. -/
theorem Sound.length_lt {δ α : Type} {tokens : δ → List Located} {value : δ → α} {read : Reader α}
    (h : Sound tokens value read) (h_tokens : ∀ d, tokens d ≠ []) {ts rest : List Located} {a : α}
    (h_ok : read ts = .ok (a, rest)) : rest.length < ts.length := by
  obtain ⟨d, rfl, -⟩ := h ts a rest h_ok
  have h_pos := List.length_pos_iff.2 (h_tokens d)
  rw [List.length_append]
  omega

end Reader

/-- The operators of a level. -/
def Level.op? : Level → Token → Option BinOp
  | .sum => Token.sumOp?
  | .product => Token.productOp?

theorem Level.op?_eq_some {l : Level} {t : Token} {op : BinOp} :
    l.op? t = some op ↔ t = .symbol op.symbol ∧ op.level = l := by
  cases l with
  | sum =>
    simp only [Level.op?]
    unfold Token.sumOp?
    split <;> cases op <;> simp_all [BinOp.symbol, BinOp.level]
  | product =>
    simp only [Level.op?]
    unfold Token.productOp?
    split <;> cases op <;> simp_all [BinOp.symbol, BinOp.level]

namespace Reader

/-- Reads a part of an expression. -/
def part : Option Level → Nat → Reader Expr
  | none, fuel => factor fuel
  | some .product, fuel => chain Token.productOp? (factor fuel) fuel
  | some .sum, fuel => expr fuel

theorem part_some (l : Level) (fuel : Nat) :
    part (some l) fuel = chain l.op? (part l.operand fuel) fuel := by
  cases l <;> rfl

theorem chainFrom_sound {l : Level} {operand : Reader Expr}
    (h_operand : Sound (ExprDerivation.tokens (p := l.operand)) ExprDerivation.expr operand)
    (fuel : Nat) (lhs : ExprDerivation (some l)) (ts rest : List Located) (e : Expr)
    (h : chainFrom l.op? operand fuel lhs.expr ts = .ok (e, rest)) :
    ∃ d : ExprDerivation (some l), lhs.tokens ++ ts = d.tokens ++ rest ∧ d.expr = e := by
  induction fuel generalizing lhs ts with
  | zero =>
    cases h
    exact ⟨lhs, rfl, rfl⟩
  | succ fuel ih =>
    unfold chainFrom at h
    split at h
    · cases h
      exact ⟨lhs, rfl, rfl⟩
    · rename_i op h_front
      obtain ⟨t, h_t, h_op⟩ := Option.bind_eq_some_iff.1 h_front
      obtain ⟨rfl, h_level⟩ := Level.op?_eq_some.1 h_op
      obtain ⟨pos, us, rfl⟩ := front?_eq_some.1 h_t
      obtain ⟨⟨e', rest'⟩, h_rhs, h⟩ := bind_eq_ok.1 h
      obtain ⟨rhs, h_us, rfl⟩ := h_operand _ _ _ h_rhs
      obtain ⟨d, h_tokens, h_expr⟩ := ih (.binary lhs op h_level pos rhs) rest' h
      refine ⟨d, ?_, h_expr⟩
      rw [← h_tokens, show us = _ from h_us]
      simp [ExprDerivation.tokens]

theorem chain_sound {l : Level} {operand : Reader Expr}
    (h_operand : Sound (ExprDerivation.tokens (p := l.operand)) ExprDerivation.expr operand)
    (fuel : Nat) :
    Sound (ExprDerivation.tokens (p := some l)) ExprDerivation.expr (chain l.op? operand fuel) := by
  intro ts e rest h
  obtain ⟨⟨e', rest'⟩, h_first, h⟩ := bind_eq_ok.1 h
  obtain ⟨first, rfl, rfl⟩ := h_operand _ _ _ h_first
  obtain ⟨d, h_tokens, h_expr⟩ := chainFrom_sound h_operand fuel (.single first) rest' rest e h
  exact ⟨d, h_tokens, h_expr⟩

/-- What a factor can be. -/
theorem factor_eq_ok {fuel : Nat} {ts rest : List Located} {e : Expr}
    (h : factor fuel ts = .ok (e, rest)) :
    (∃ text pos, ts = ⟨.name text, pos⟩ :: rest ∧ e = .var text) ∨
    (∃ digits pos, ts = ⟨.integer digits, pos⟩ :: rest ∧ e = .const digits) ∨
    ∃ k opening closing mid, fuel = k + 1 ∧ ts = ⟨.symbol .openParen, opening⟩ :: mid ∧
      sum (factor k) k mid = .ok (e, ⟨.symbol .closeParen, closing⟩ :: rest) := by
  unfold factor at h
  split at h
  · rename_i text pos us
    cases h
    exact Or.inl ⟨text, pos, rfl, rfl⟩
  · rename_i digits pos us
    cases h
    exact Or.inr (Or.inl ⟨digits, pos, rfl, rfl⟩)
  · rename_i k opening mid
    obtain ⟨⟨e', rest'⟩, h_inner, h⟩ := bind_eq_ok.1 h
    obtain ⟨rest'', h_close, h⟩ := bind_eq_ok.1 h
    cases h
    obtain ⟨closing, rfl⟩ := symbol_eq_ok.1 h_close
    exact Or.inr (Or.inr ⟨k, opening, closing, mid, rfl, rfl, h_inner⟩)
  · cases h

theorem factor_sound (fuel : Nat) :
    Sound (ExprDerivation.tokens (p := none)) ExprDerivation.expr (factor fuel) := by
  induction fuel with
  | zero =>
    intro ts e rest h
    obtain ⟨text, pos, rfl, rfl⟩ | ⟨digits, pos, rfl, rfl⟩ | ⟨k, -, -, -, h_fuel, -⟩ :=
      factor_eq_ok h
    · exact ⟨.name text pos, rfl, rfl⟩
    · exact ⟨.integer digits pos, rfl, rfl⟩
    · omega
  | succ fuel ih =>
    intro ts e rest h
    obtain ⟨text, pos, rfl, rfl⟩ | ⟨digits, pos, rfl, rfl⟩ |
      ⟨k, opening, closing, mid, h_fuel, rfl, h_inner⟩ := factor_eq_ok h
    · exact ⟨.name text pos, rfl, rfl⟩
    · exact ⟨.integer digits pos, rfl, rfl⟩
    · obtain rfl : fuel = k := by omega
      have h_sum := chain_sound (l := .sum) (chain_sound (l := .product) ih fuel) fuel
      obtain ⟨inner, rfl, rfl⟩ := h_sum _ _ _ h_inner
      exact ⟨.parens opening inner closing, by simp [ExprDerivation.tokens], rfl⟩

theorem part_sound (p : Option Level) (fuel : Nat) :
    Sound (ExprDerivation.tokens (p := p)) ExprDerivation.expr (part p fuel) := by
  match p with
  | none => exact factor_sound fuel
  | some .product => exact chain_sound (l := .product) (factor_sound fuel) fuel
  | some .sum =>
    exact chain_sound (l := .sum) (chain_sound (l := .product) (factor_sound fuel) fuel) fuel

theorem part_length_lt {p : Option Level} {fuel : Nat} {ts rest : List Located} {e : Expr}
    (h : part p fuel ts = .ok (e, rest)) : rest.length < ts.length :=
  (part_sound p fuel).length_lt ExprDerivation.tokens_ne_nil h

/-! ## Fuel -/

theorem chainFrom_congr {op? : Token → Option BinOp} {read read' : Reader Expr} {n : Nat}
    (h_read : ∀ ts, ts.length ≤ n → read ts = read' ts)
    (h_rest : ∀ ts e rest, read ts = .ok (e, rest) → rest.length < ts.length)
    {fuel fuel' : Nat} {lhs : Expr} {ts : List Located} (h_n : ts.length ≤ n)
    (h_fuel : ts.length ≤ fuel) (h_fuel' : ts.length ≤ fuel') :
    chainFrom op? read fuel lhs ts = chainFrom op? read' fuel' lhs ts := by
  induction fuel generalizing fuel' lhs ts with
  | zero =>
    obtain rfl : ts = [] := List.length_eq_zero_iff.1 (by omega)
    cases fuel' <;> rfl
  | succ fuel ih =>
    cases ts with
    | nil => cases fuel' <;> rfl
    | cons t ts =>
      simp only [List.length_cons] at h_n h_fuel h_fuel'
      obtain ⟨fuel', rfl⟩ : ∃ k, fuel' = k + 1 := ⟨fuel' - 1, by omega⟩
      simp only [chainFrom, List.tail_cons]
      cases (front? (t :: ts)).bind op? with
      | none => rfl
      | some op =>
        simp only
        rw [← h_read ts (by omega)]
        cases h_rhs : read ts with
        | error stuck => rfl
        | ok found =>
          obtain ⟨rhs, rest⟩ := found
          have h_lt : rest.length < ts.length := h_rest ts rhs rest h_rhs
          show chainFrom op? read fuel _ rest = chainFrom op? read' fuel' _ rest
          exact ih (by omega) (by omega) (by omega)

/-- No operator at the front goes on with a part. -/
def Stops : Option Level → List Located → Prop
  | none, _ => True
  | some .product, ts => (front? ts).bind Token.productOp? = none
  | some .sum, ts => (front? ts).bind Token.sumOp? = none ∧ (front? ts).bind Token.productOp? = none

theorem stops_some {l : Level} {ts : List Located} :
    Stops (some l) ts ↔ (front? ts).bind l.op? = none ∧ Stops l.operand ts := by
  cases l with
  | sum => rfl
  | product => simp [Stops, Level.op?, Level.operand]

/-- An operator of a level does not go on with an operand of that level. -/
theorem stops_operand {l : Level} {op : BinOp} (h : op.level = l) (pos : Position)
    (rest : List Located) : Stops l.operand (⟨.symbol op.symbol, pos⟩ :: rest) := by
  subst h
  cases op <;> trivial

theorem stops_of_not_arithmetic {p : Option Level} {t : Located} (h : t.token.isArithmetic = false)
    (rest : List Located) : Stops p (t :: rest) := by
  obtain ⟨token, pos⟩ := t
  cases token with
  | name | integer => simp [Token.isArithmetic] at h
  | symbol s =>
    rcases p with _ | _ | _
    · trivial
    · cases s <;> first | exact ⟨rfl, rfl⟩ | (simp [Token.isArithmetic] at h)
    · cases s <;> first | rfl | (simp [Token.isArithmetic] at h)

theorem stops_closeParen {p : Option Level} (pos : Position) (rest : List Located) :
    Stops p (⟨.symbol .closeParen, pos⟩ :: rest) := by
  match p with
  | none => trivial
  | some .product => rfl
  | some .sum => exact ⟨rfl, rfl⟩

theorem chainFrom_of_stops {l : Level} {read : Reader Expr} {fuel : Nat} {e : Expr}
    {ts : List Located} (h : Stops (some l) ts) : chainFrom l.op? read fuel e ts = .ok (e, ts) := by
  cases fuel with
  | zero => rfl
  | succ fuel =>
    unfold chainFrom
    rw [(stops_some.1 h).1]

/-- A reader that meets the leaves of a derivation is, behind them, where it would
    be with the derived expression read; a chain may go on from there. -/
def Reads : {p : Option Level} → ExprDerivation p → Prop
  | none, d => ∀ fuel rest, (d.tokens ++ rest).length ≤ fuel →
    factor fuel (d.tokens ++ rest) = .ok (d.expr, rest)
  | some l, d => ∀ fuel rest, (d.tokens ++ rest).length ≤ fuel → Stops l.operand rest →
    part (some l) fuel (d.tokens ++ rest) =
      chainFrom l.op? (part l.operand fuel) rest.length d.expr rest

theorem Reads.part_eq {p : Option Level} {d : ExprDerivation p} (h : Reads d) {fuel : Nat}
    {rest : List Located} (h_fuel : (d.tokens ++ rest).length ≤ fuel) (h_stops : Stops p rest) :
    part p fuel (d.tokens ++ rest) = .ok (d.expr, rest) := by
  cases p with
  | none => exact h fuel rest h_fuel
  | some l =>
    rw [h fuel rest h_fuel (stops_some.1 h_stops).2]
    exact chainFrom_of_stops h_stops

theorem reads {p : Option Level} (d : ExprDerivation p) : Reads d := by
  induction d with
  | name text pos =>
    intro fuel rest h_fuel
    cases fuel <;> rfl
  | integer digits pos =>
    intro fuel rest h_fuel
    cases fuel <;> rfl
  | parens opening inner closing ih =>
    intro fuel rest h_fuel
    simp only [ExprDerivation.tokens, List.cons_append, List.append_assoc, List.nil_append,
      List.length_cons] at h_fuel ⊢
    obtain ⟨fuel, rfl⟩ : ∃ k, fuel = k + 1 := ⟨fuel - 1, by omega⟩
    have h_inner : sum (factor fuel) fuel _ = _ :=
      ih.part_eq (show _ ≤ fuel by omega) (stops_closeParen closing rest)
    simp only [factor]
    rw [h_inner]
    rfl
  | single operand ih =>
    intro fuel rest h_fuel h_stops
    have h_operand := ih.part_eq h_fuel h_stops
    rw [part_some]
    unfold chain
    rw [show (ExprDerivation.single operand).tokens = operand.tokens from rfl, h_operand]
    rw [List.length_append] at h_fuel
    exact chainFrom_congr (fun _ _ => rfl) (fun _ _ _ h => part_length_lt h) le_rfl (by omega)
      le_rfl
  | binary lhs op h_op pos rhs ih_lhs ih_rhs =>
    intro fuel rest h_fuel h_stops
    simp only [ExprDerivation.tokens, List.append_assoc, List.cons_append] at h_fuel ⊢
    rw [ih_lhs fuel _ h_fuel (stops_operand h_op pos _)]
    -- The chain goes on with this operator and its right operand.
    have h_front : (front? (⟨.symbol op.symbol, pos⟩ :: (rhs.tokens ++ rest))).bind (Level.op? _) =
        some op := Level.op?_eq_some.2 ⟨rfl, h_op⟩
    simp only [List.length_append, List.length_cons] at h_fuel
    have h_rhs := ih_rhs.part_eq (show (rhs.tokens ++ rest).length ≤ fuel by
      rw [List.length_append]; omega) h_stops
    simp only [List.length_cons, chainFrom, h_front, List.tail_cons]
    rw [h_rhs]
    exact chainFrom_congr (fun _ _ => rfl) (fun _ _ _ h => part_length_lt h) le_rfl (by simp) le_rfl

/-- The leaves of an expression are read as that expression. -/
theorem expr_tokens (d : ExprDerivation (some .sum)) {fuel : Nat} {rest : List Located}
    (h_fuel : (d.tokens ++ rest).length ≤ fuel) (h_stops : Stops (some .sum) rest) :
    expr fuel (d.tokens ++ rest) = .ok (d.expr, rest) :=
  (reads d).part_eq h_fuel h_stops

/-! ## Conditions -/

theorem relOp?_eq_some {t : Token} {op : RelOp} :
    Token.relOp? t = some op ↔ t = .symbol op.symbol := by
  unfold Token.relOp?
  split <;> cases op <;> simp_all [RelOp.symbol]

theorem connective?_symbol (c : Connective) :
    Token.connective? (.symbol c.symbol) = some c.join := by
  cases c <;> rfl

theorem connective?_eq_some {t : Token} {join : Cond → Cond → Cond}
    (h : Token.connective? t = some join) :
    ∃ c : Connective, t = .symbol c.symbol ∧ join = c.join := by
  unfold Token.connective? at h
  split at h
  · cases h
    exact ⟨.and, rfl, rfl⟩
  · cases h
    exact ⟨.or, rfl, rfl⟩
  · cases h

theorem comparison_sound (fuel : Nat) :
    Sound CondDerivation.tokens CondDerivation.cond (comparison fuel) := by
  intro ts c rest h
  obtain ⟨⟨e, rest'⟩, h_lhs, h⟩ := bind_eq_ok.1 h
  obtain ⟨lhs, rfl, rfl⟩ := part_sound (some .sum) fuel _ _ _ h_lhs
  simp only at h
  split at h
  · cases h
  · rename_i op h_front
    obtain ⟨t, h_t, h_op⟩ := Option.bind_eq_some_iff.1 h_front
    obtain rfl := relOp?_eq_some.1 h_op
    obtain ⟨pos, us, rfl⟩ := front?_eq_some.1 h_t
    obtain ⟨⟨e', rest''⟩, h_rhs, h⟩ := bind_eq_ok.1 h
    obtain ⟨rhs, h_us, rfl⟩ := part_sound (some .sum) fuel _ _ _ h_rhs
    cases h
    refine ⟨.comparison lhs op pos rhs, ?_, rfl⟩
    rw [show us = _ from h_us]
    simp [CondDerivation.tokens]

/-- The ways in which a condition is read. -/
theorem cond_eq_ok {fuel : Nat} {ts rest : List Located} {c : Cond}
    (h : cond (fuel + 1) ts = .ok (c, rest)) :
    (∃ bang mid arg, ts = ⟨.symbol .bang, bang⟩ :: mid ∧
      parenthesised (cond fuel) mid = .ok (arg, rest) ∧ c = .not arg) ∨
    (∃ lhs rhs pos mid, ∃ connective : Connective,
      parenthesised (cond fuel) ts = .ok (lhs, ⟨.symbol connective.symbol, pos⟩ :: mid) ∧
        parenthesised (cond fuel) mid = .ok (rhs, rest) ∧ c = connective.join lhs rhs) ∨
    comparison (fuel + 1) ts = .ok (c, rest) := by
  unfold cond at h
  split at h
  · rename_i h_front
    obtain ⟨bang, mid, rfl⟩ := front?_eq_some.1 h_front
    obtain ⟨⟨arg, rest'⟩, h_arg, h⟩ := bind_eq_ok.1 h
    cases h
    exact Or.inl ⟨bang, mid, arg, rfl, h_arg, rfl⟩
  · split at h
    · exact Or.inr (Or.inr h)
    · rename_i lhs rest' h_lhs
      split at h
      · exact Or.inr (Or.inr h)
      · rename_i join h_join
        obtain ⟨t, h_t, h_join⟩ := Option.bind_eq_some_iff.1 h_join
        obtain ⟨connective, rfl, rfl⟩ := connective?_eq_some h_join
        obtain ⟨pos, mid, rfl⟩ := front?_eq_some.1 h_t
        obtain ⟨⟨rhs, rest''⟩, h_rhs, h⟩ := bind_eq_ok.1 h
        cases h
        exact Or.inr (Or.inl ⟨lhs, rhs, pos, mid, connective, h_lhs, h_rhs, rfl⟩)
  · exact Or.inr (Or.inr h)

theorem cond_sound (fuel : Nat) : Sound CondDerivation.tokens CondDerivation.cond (cond fuel) := by
  induction fuel with
  | zero => exact comparison_sound 0
  | succ fuel ih =>
    intro ts c rest h
    obtain ⟨bang, mid, arg, rfl, h_arg, rfl⟩ |
      ⟨lhs, rhs, pos, mid, connective, h_lhs, h_rhs, rfl⟩ | h := cond_eq_ok h
    · obtain ⟨opening, closing, inner, rfl, h_inner⟩ := parenthesised_eq_ok.1 h_arg
      obtain ⟨d, rfl, rfl⟩ := ih _ _ _ h_inner
      exact ⟨.negation bang opening d closing, by simp [CondDerivation.tokens], rfl⟩
    · obtain ⟨opening, closing, inner, rfl, h_inner⟩ := parenthesised_eq_ok.1 h_lhs
      obtain ⟨opening', closing', inner', rfl, h_inner'⟩ := parenthesised_eq_ok.1 h_rhs
      obtain ⟨d, rfl, rfl⟩ := ih _ _ _ h_inner
      obtain ⟨d', rfl, rfl⟩ := ih _ _ _ h_inner'
      exact ⟨.compound opening d closing connective pos opening' d' closing',
        by simp [CondDerivation.tokens], rfl⟩
    · exact comparison_sound (fuel + 1) ts c rest h

/-- Where an expression stands in front, a condition is a comparison: what the
    attempt at a compound condition may read is not looked at again. -/
theorem cond_eq_comparison (e : ExprDerivation (some .sum)) (fuel : Nat) (r : List Located) :
    cond (fuel + 1) (e.tokens ++ r) = comparison (fuel + 1) (e.tokens ++ r) := by
  unfold cond
  split
  · rename_i h_front
    obtain ⟨bang, us, h_us⟩ := front?_eq_some.1 h_front
    exact (CondDerivation.not_expr_of_bang e bang r us h_us).elim
  · split
    · rfl
    · rename_i lhs rest h_lhs
      obtain ⟨opening, closing, mid, h_mid, h_inner⟩ := parenthesised_eq_ok.1 h_lhs
      obtain ⟨d, rfl, -⟩ := cond_sound fuel _ _ _ h_inner
      exact (d.not_expr_of_parens e opening r _ h_mid).elim
  · rfl

theorem comparison_tokens (lhs rhs : ExprDerivation (some .sum)) (op : RelOp) (pos : Position)
    {fuel : Nat} {rest : List Located}
    (h_fuel : (lhs.tokens ++ ⟨.symbol op.symbol, pos⟩ :: (rhs.tokens ++ rest)).length ≤ fuel)
    (h_stops : Stops (some .sum) rest) :
    comparison fuel (lhs.tokens ++ ⟨.symbol op.symbol, pos⟩ :: (rhs.tokens ++ rest)) =
      .ok (.rel op lhs.expr rhs.expr, rest) := by
  have h_lhs := expr_tokens lhs h_fuel (stops_of_not_arithmetic op.isArithmetic_symbol _)
  simp only [List.length_append, List.length_cons] at h_fuel
  have h_rhs := expr_tokens rhs (show (rhs.tokens ++ rest).length ≤ fuel by
    rw [List.length_append]; omega) h_stops
  have h_op : (front? (⟨.symbol op.symbol, pos⟩ :: (rhs.tokens ++ rest))).bind Token.relOp? =
      some op :=
    relOp?_eq_some.2 rfl
  refine bind_eq_ok.2 ⟨_, h_lhs, ?_⟩
  simp only [h_op, List.tail_cons]
  exact bind_eq_ok.2 ⟨_, h_rhs, rfl⟩

/-- The leaves of a condition are read as that condition. -/
theorem cond_tokens (d : CondDerivation) {fuel : Nat} {rest : List Located}
    (h_fuel : (d.tokens ++ rest).length ≤ fuel) (h_stops : Stops (some .sum) rest) :
    cond fuel (d.tokens ++ rest) = .ok (d.cond, rest) := by
  induction d generalizing fuel rest with
  | comparison lhs op pos rhs =>
    simp only [CondDerivation.tokens, List.append_assoc, List.cons_append] at h_fuel ⊢
    have h_comparison := comparison_tokens lhs rhs op pos h_fuel h_stops
    cases fuel with
    | zero => exact h_comparison
    | succ fuel =>
      rw [cond_eq_comparison lhs fuel]
      exact h_comparison
  | negation bang opening arg closing ih =>
    simp only [CondDerivation.tokens, List.append_assoc, List.cons_append, List.nil_append,
      List.length_cons] at h_fuel ⊢
    obtain ⟨fuel, rfl⟩ : ∃ k, fuel = k + 1 := ⟨fuel - 1, by omega⟩
    have h_arg := parenthesised_eq_ok.2 ⟨opening, closing, _, rfl,
      ih (show _ ≤ fuel by omega) (stops_closeParen closing rest)⟩
    exact bind_eq_ok.2 ⟨_, h_arg, rfl⟩
  | compound opening lhs closing connective pos opening' rhs closing' ih_lhs ih_rhs =>
    simp only [CondDerivation.tokens, List.append_assoc, List.cons_append, List.nil_append,
      List.length_cons] at h_fuel ⊢
    obtain ⟨fuel, rfl⟩ : ∃ k, fuel = k + 1 := ⟨fuel - 1, by omega⟩
    have h_inner := ih_lhs (Nat.le_of_succ_le_succ h_fuel) (stops_closeParen closing _)
    have h_lhs := parenthesised_eq_ok.2 ⟨opening, closing, _, rfl, h_inner⟩
    simp only [List.length_append, List.length_cons] at h_fuel
    have h_rhs := parenthesised_eq_ok.2 ⟨opening', closing', _, rfl,
      ih_rhs (show (rhs.tokens ++ ⟨.symbol .closeParen, closing'⟩ :: rest).length ≤ fuel by
        simp only [List.length_append, List.length_cons]; omega) (stops_closeParen closing' rest)⟩
    unfold cond
    simp only [front?_cons]
    rw [h_lhs]
    simp only [front?_cons, Option.bind_some, connective?_symbol, List.tail_cons]
    exact bind_eq_ok.2 ⟨_, h_rhs, rfl⟩

end Reader

/-! ## Whole texts -/

/-- Expressions are read exactly from texts whose tokens can be derived. -/
theorem Expr.read_eq_ok {text : String} {e : Expr} :
    Expr.read text = .ok e ↔ ∃ stream, TokenStream.scan text.toList = .ok stream ∧
      ∃ d : ExprDerivation (some .sum), d.tokens = stream.tokens ∧ d.expr = e := by
  rw [Expr.read_eq]
  cases TokenStream.scan text.toList with
  | error stray => simp
  | ok stream =>
    simp only [Except.ok.injEq, exists_eq_left']
    constructor
    · intro h
      split at h
      · cases h
      · rename_i e' h_read
        cases h
        obtain ⟨d, h_tokens, h_expr⟩ := Reader.part_sound (some .sum) _ _ _ _ h_read
        exact ⟨d, by simpa using h_tokens.symm, h_expr⟩
      · cases h
    · rintro ⟨d, h_tokens, rfl⟩
      have h_read := Reader.expr_tokens d (show (d.tokens ++ []).length ≤ stream.tokens.length by
        simp [h_tokens]) ⟨rfl, rfl⟩
      rw [List.append_nil, h_tokens] at h_read
      rw [h_read]

end ProgramQuery
