/-
  ProgramQuery.Proofs.Program.Grammar

  The grammar of program texts, as derivation trees.

  A derivation has one node for each rule that is used, and its leaves are the
  tokens that it derives, in order.  A name leaf holds any name: no word is
  reserved.  Operators of one level group to the left because the rule of a
  chain is left recursive.  Each derivation stands for a tree of the program,
  and `tokens` is injective: no two derivations have the same leaves.
-/

import Mathlib.Algebra.BigOperators.Group.List.Basic
import Mathlib.Algebra.GroupWithZero.Nat
import Mathlib.Algebra.Ring.Int.Defs
import ProgramQuery.Proofs.Program.Reader

namespace ProgramQuery

/-! ## Operators and their symbols -/

/-- The symbol of an arithmetic operator. -/
def BinOp.symbol : BinOp → Symbol
  | .add => .plus
  | .sub => .minus
  | .mul => .star
  | .div => .slash
  | .mod => .percent

theorem BinOp.symbol_injective {a b : BinOp} (h : a.symbol = b.symbol) : a = b := by
  revert h
  cases a <;> cases b <;> decide

/-- The symbol of a comparison. -/
def RelOp.symbol : RelOp → Symbol
  | .gt => .greater
  | .ge => .greaterEqual
  | .lt => .less
  | .le => .lessEqual
  | .eq => .equalEqual
  | .ne => .notEqual

theorem RelOp.symbol_injective {a b : RelOp} (h : a.symbol = b.symbol) : a = b := by
  revert h
  cases a <;> cases b <;> decide

/-- The connectives of compound conditions. -/
inductive Connective where
  | and
  | or
  deriving DecidableEq

namespace Connective

/-- The symbol of a connective. -/
def symbol : Connective → Symbol
  | .and => .andAnd
  | .or => .orOr

/-- The condition that a connective makes of two. -/
def join : Connective → Cond → Cond → Cond
  | .and => .and
  | .or => .or

theorem symbol_injective {a b : Connective} (h : a.symbol = b.symbol) : a = b := by
  revert h
  cases a <;> cases b <;> decide

end Connective

/-- The levels at which operators group. -/
inductive Level where
  | sum
  | product
  deriving DecidableEq

/-- The level of an operator. -/
def BinOp.level : BinOp → Level
  | .add | .sub => .sum
  | .mul | .div | .mod => .product

/-- What the operators of a level join: sums are made of products, and products
    of factors, which are no chain at all. -/
def Level.operand : Level → Option Level
  | .sum => some .product
  | .product => none

/-! ## Derivations -/

/-- Derivations of expressions: of a factor, or of a chain of some level. -/
inductive ExprDerivation : Option Level → Type where
  | name (text : String) (pos : Position) : ExprDerivation none
  | integer (digits : String) (pos : Position) : ExprDerivation none
  | parens (opening : Position) (inner : ExprDerivation (some .sum)) (closing : Position) :
    ExprDerivation none
  | single {l : Level} (operand : ExprDerivation l.operand) : ExprDerivation (some l)
  | binary {l : Level} (lhs : ExprDerivation (some l)) (op : BinOp) (h_op : op.level = l)
      (pos : Position) (rhs : ExprDerivation l.operand) : ExprDerivation (some l)

namespace ExprDerivation

/-- The leaves of a derivation. -/
def tokens : {p : Option Level} → ExprDerivation p → List Located
  | _, .name text pos => [⟨.name text, pos⟩]
  | _, .integer digits pos => [⟨.integer digits, pos⟩]
  | _, .parens opening inner closing =>
    ⟨.symbol .openParen, opening⟩ :: inner.tokens ++ [⟨.symbol .closeParen, closing⟩]
  | _, .single operand => operand.tokens
  | _, .binary lhs op _ pos rhs => lhs.tokens ++ ⟨.symbol op.symbol, pos⟩ :: rhs.tokens

/-- The expression that is derived; parentheses leave no trace in it. -/
def expr : {p : Option Level} → ExprDerivation p → Expr
  | _, .name text _ => .var text
  | _, .integer digits _ => .const digits
  | _, .parens _ inner _ => inner.expr
  | _, .single operand => operand.expr
  | _, .binary lhs op _ _ rhs => .binary op lhs.expr rhs.expr

end ExprDerivation

/-- Derivations of conditions. -/
inductive CondDerivation where
  | comparison (lhs : ExprDerivation (some .sum)) (op : RelOp) (pos : Position)
      (rhs : ExprDerivation (some .sum))
  | negation (bang opening : Position) (arg : CondDerivation) (closing : Position)
  | compound (opening : Position) (lhs : CondDerivation) (closing : Position)
      (connective : Connective) (pos : Position)
      (opening' : Position) (rhs : CondDerivation) (closing' : Position)

namespace CondDerivation

/-- The leaves of a derivation. -/
def tokens : CondDerivation → List Located
  | .comparison lhs op pos rhs => lhs.tokens ++ ⟨.symbol op.symbol, pos⟩ :: rhs.tokens
  | .negation bang opening arg closing =>
    ⟨.symbol .bang, bang⟩ :: ⟨.symbol .openParen, opening⟩ :: arg.tokens ++
      [⟨.symbol .closeParen, closing⟩]
  | .compound opening lhs closing connective pos opening' rhs closing' =>
    (⟨.symbol .openParen, opening⟩ :: lhs.tokens ++ [⟨.symbol .closeParen, closing⟩]) ++
      ⟨.symbol connective.symbol, pos⟩ ::
      (⟨.symbol .openParen, opening'⟩ :: rhs.tokens ++ [⟨.symbol .closeParen, closing'⟩])

/-- The condition that is derived. -/
def cond : CondDerivation → Cond
  | .comparison lhs op _ rhs => .rel op lhs.expr rhs.expr
  | .negation _ _ arg _ => .not arg.cond
  | .compound _ lhs _ connective _ _ rhs _ => connective.join lhs.cond rhs.cond

end CondDerivation

/-- The statements that are a keyword and a name. -/
inductive NamedAction where
  | read
  | print
  | call
  deriving DecidableEq

namespace NamedAction

/-- The keyword. -/
def word : NamedAction → String
  | .read => "read"
  | .print => "print"
  | .call => "call"

/-- The action on a name. -/
def action : NamedAction → String → Action
  | .read => .read
  | .print => .print
  | .call => .call

theorem word_injective {a b : NamedAction} (h : a.word = b.word) : a = b := by
  revert h
  cases a <;> cases b <;> decide

end NamedAction

/-- What statement derivations derive. -/
inductive StmtPart where
  | statement
  | statements
  | block

/-- The trees that a part stands for. -/
def StmtPart.Value : StmtPart → Type
  | .statement => Stmt Position
  | .statements | .block => List (Stmt Position)

/-- Derivations of statements, of one statement or more, and of blocks. -/
inductive StmtDerivation : StmtPart → Type where
  | assign (var : String) (pos equal : Position) (rhs : ExprDerivation (some .sum))
      (semicolon : Position) : StmtDerivation .statement
  | named (kind : NamedAction) (pos : Position) (name : String) (namePos semicolon : Position) :
    StmtDerivation .statement
  | whileLoop (pos opening : Position) (cond : CondDerivation) (closing : Position)
      (body : StmtDerivation .block) : StmtDerivation .statement
  | ifElse (pos opening : Position) (cond : CondDerivation) (closing thenPos : Position)
      (thenBranch : StmtDerivation .block) (elsePos : Position)
      (elseBranch : StmtDerivation .block) : StmtDerivation .statement
  | last (s : StmtDerivation .statement) : StmtDerivation .statements
  | more (s : StmtDerivation .statement) (rest : StmtDerivation .statements) :
    StmtDerivation .statements
  | block (opening : Position) (body : StmtDerivation .statements) (closing : Position) :
    StmtDerivation .block

namespace StmtDerivation

/-- The leaves of a derivation. -/
def tokens : {p : StmtPart} → StmtDerivation p → List Located
  | _, .assign var pos equal rhs semicolon =>
    ⟨.name var, pos⟩ :: ⟨.symbol .equal, equal⟩ :: rhs.tokens ++ [⟨.symbol .semicolon, semicolon⟩]
  | _, .named kind pos name namePos semicolon =>
    [⟨.name kind.word, pos⟩, ⟨.name name, namePos⟩, ⟨.symbol .semicolon, semicolon⟩]
  | _, .whileLoop pos opening cond closing body =>
    ⟨.name "while", pos⟩ :: ⟨.symbol .openParen, opening⟩ :: cond.tokens ++
      ⟨.symbol .closeParen, closing⟩ :: body.tokens
  | _, .ifElse pos opening cond closing thenPos thenBranch elsePos elseBranch =>
    ⟨.name "if", pos⟩ :: ⟨.symbol .openParen, opening⟩ :: cond.tokens ++
      ⟨.symbol .closeParen, closing⟩ :: ⟨.name "then", thenPos⟩ :: thenBranch.tokens ++
      ⟨.name "else", elsePos⟩ :: elseBranch.tokens
  | _, .last s => s.tokens
  | _, .more s rest => s.tokens ++ rest.tokens
  | _, .block opening body closing =>
    ⟨.symbol .openBrace, opening⟩ :: body.tokens ++ [⟨.symbol .closeBrace, closing⟩]

/-- The statements that are derived. -/
def value : {p : StmtPart} → StmtDerivation p → p.Value
  | _, .assign var pos _ rhs _ => Stmt.simple pos (.assign var rhs.expr)
  | _, .named kind pos name _ _ => Stmt.simple pos (kind.action name)
  | _, .whileLoop pos _ cond _ body => Stmt.whileLoop pos cond.cond body.value
  | _, .ifElse pos _ cond _ _ thenBranch _ elseBranch =>
    Stmt.ifElse pos cond.cond thenBranch.value elseBranch.value
  | _, .last s => [s.value]
  | _, .more s rest => List.cons s.value rest.value
  | _, .block _ body _ => body.value

end StmtDerivation

/-- A derivation of a procedure. -/
structure ProcedureDerivation where
  pos : Position
  name : String
  namePos : Position
  body : StmtDerivation .block

namespace ProcedureDerivation

/-- The leaves of a derivation. -/
def tokens (d : ProcedureDerivation) : List Located :=
  ⟨.name "procedure", d.pos⟩ :: ⟨.name d.name, d.namePos⟩ :: d.body.tokens

/-- The procedure that is derived. -/
def text (d : ProcedureDerivation) : ProcedureText :=
  ⟨d.name, d.pos, d.body.value⟩

end ProcedureDerivation

/-- A derivation of a program: of one procedure or more. -/
structure ProgramDerivation where
  first : ProcedureDerivation
  rest : List ProcedureDerivation

namespace ProgramDerivation

/-- The derivations of the procedures. -/
def procedures (d : ProgramDerivation) : List ProcedureDerivation :=
  d.first :: d.rest

/-- The leaves of a derivation. -/
def tokens (d : ProgramDerivation) : List Located :=
  d.procedures.flatMap ProcedureDerivation.tokens

/-- The procedures that are derived. -/
def texts (d : ProgramDerivation) : List ProcedureText :=
  d.procedures.map ProcedureDerivation.text

end ProgramDerivation

/-! ## Alphabets -/

/-- Two lists that go on after their first marked element agree up to it. -/
theorem eq_of_append_marked {α : Type} {P : α → Prop} {xs ys r s : List α} {a b : α}
    (h_xs : ∀ x ∈ xs, ¬ P x) (h_ys : ∀ y ∈ ys, ¬ P y) (h_a : P a) (h_b : P b)
    (h : xs ++ a :: r = ys ++ b :: s) : xs = ys ∧ a = b ∧ r = s := by
  induction xs generalizing ys with
  | nil =>
    cases ys with
    | nil => simpa using h
    | cons y ys =>
      obtain rfl : a = y := by simpa using congrArg List.head? h
      exact absurd h_a (h_ys a (by simp))
  | cons x xs ih =>
    cases ys with
    | nil =>
      obtain rfl : x = b := by simpa using congrArg List.head? h
      exact absurd h_b (h_xs x (by simp))
    | cons y ys =>
      obtain ⟨rfl, h_tail⟩ : x = y ∧ xs ++ a :: r = ys ++ b :: s := by simpa using h
      have h_rest :=
        ih (fun z hz => h_xs z (by simp [hz])) (fun z hz => h_ys z (by simp [hz])) h_tail
      exact ⟨by rw [h_rest.1], h_rest.2⟩

/-- The tokens that expressions are made of. -/
def Token.isArithmetic : Token → Bool
  | .name _ | .integer _ => true
  | .symbol s => s ∈ [.openParen, .closeParen, .plus, .minus, .star, .slash, .percent]

theorem BinOp.isArithmetic_symbol (op : BinOp) : (Token.symbol op.symbol).isArithmetic = true := by
  cases op <;> rfl

theorem RelOp.isArithmetic_symbol (op : RelOp) : (Token.symbol op.symbol).isArithmetic = false := by
  cases op <;> rfl

namespace ExprDerivation

variable {p : Option Level}

theorem tokens_ne_nil (d : ExprDerivation p) : d.tokens ≠ [] := by
  induction d with
  | name | integer | parens | binary => simp [tokens]
  | single operand ih => exact ih

theorem isArithmetic_of_mem (d : ExprDerivation p) :
    ∀ t ∈ d.tokens, t.token.isArithmetic = true := by
  induction d with
  | name text pos => simp [tokens, Token.isArithmetic]
  | integer digits pos => simp [tokens, Token.isArithmetic]
  | parens opening inner closing ih =>
    intro t h_t
    simp only [tokens, List.cons_append, List.mem_cons, List.mem_append, List.mem_nil_iff,
      or_false] at h_t
    obtain rfl | h_t | rfl := h_t
    · rfl
    · exact ih t h_t
    · rfl
  | single operand ih => exact ih
  | binary lhs op h_op pos rhs ih_lhs ih_rhs =>
    intro t h_t
    simp only [tokens, List.mem_append, List.mem_cons] at h_t
    obtain h_t | rfl | h_t := h_t
    · exact ih_lhs t h_t
    · exact op.isArithmetic_symbol
    · exact ih_rhs t h_t

/-- An expression ends where the first token stands that is no part of one. -/
theorem tokens_eq_of_append {d d' : ExprDerivation p} {a b : Located} {r s : List Located}
    (h_a : a.token.isArithmetic = false) (h_b : b.token.isArithmetic = false)
    (h : d.tokens ++ a :: r = d'.tokens ++ b :: s) : d.tokens = d'.tokens ∧ a = b ∧ r = s := by
  refine eq_of_append_marked (P := fun t => t.token.isArithmetic = false) ?_ ?_ h_a h_b h
  · intro t h_t
    simp [d.isArithmetic_of_mem t h_t]
  · intro t h_t
    simp [d'.isArithmetic_of_mem t h_t]

end ExprDerivation

/-! ## Nesting -/

/-- How a token changes the depth of parentheses. -/
def Token.rise : Token → Int
  | .symbol .openParen => 1
  | .symbol .closeParen => -1
  | _ => 0

/-- How tokens change the depth of parentheses. -/
def depth (ts : List Located) : Int :=
  (ts.map (fun t => t.token.rise)).sum

@[simp] theorem depth_nil : depth [] = 0 := rfl

@[simp] theorem depth_cons (t : Located) (ts : List Located) :
    depth (t :: ts) = t.token.rise + depth ts := by
  simp [depth]

@[simp] theorem depth_append (xs ys : List Located) : depth (xs ++ ys) = depth xs + depth ys := by
  simp [depth]

theorem BinOp.rise_symbol (op : BinOp) : (Token.symbol op.symbol).rise = 0 := by
  cases op <;> rfl

theorem RelOp.rise_symbol (op : RelOp) : (Token.symbol op.symbol).rise = 0 := by
  cases op <;> rfl

theorem Connective.rise_symbol (c : Connective) : (Token.symbol c.symbol).rise = 0 := by
  cases c <;> rfl

/-- Each parenthesis that is closed was opened before, and all are closed. -/
structure Balanced (ts : List Located) : Prop where
  level : depth ts = 0
  nested : ∀ pre post, ts = pre ++ post → 0 ≤ depth pre

namespace Balanced

theorem singleton {t : Located} (h : t.token.rise = 0) : Balanced [t] := by
  refine ⟨by simp [h], ?_⟩
  intro pre post h_split
  cases pre with
  | nil => simp
  | cons x pre =>
    obtain ⟨rfl, h_nil⟩ : t = x ∧ [] = pre ++ post := by simpa using h_split
    have h_pre : pre = [] := (List.append_eq_nil_iff.1 h_nil.symm).1
    simp [h_pre, h]

theorem append {xs ys : List Located} (h_xs : Balanced xs) (h_ys : Balanced ys) :
    Balanced (xs ++ ys) := by
  refine ⟨by rw [depth_append, h_xs.level, h_ys.level]; rfl, ?_⟩
  intro pre post h_split
  obtain ⟨more, rfl, -⟩ | ⟨more, h_more, -⟩ := List.append_eq_append_iff.1 h_split
  · -- The cut lies in `ys`.
    rw [depth_append, h_xs.level]
    have h_more := h_ys.nested more post (by simpa using h_split)
    omega
  · exact h_xs.nested pre more h_more

theorem cons {t : Located} {ts : List Located} (h : t.token.rise = 0) (h_ts : Balanced ts) :
    Balanced (t :: ts) :=
  (singleton h).append h_ts

theorem parens {ts : List Located} (opening closing : Position) (h : Balanced ts) :
    Balanced (⟨.symbol .openParen, opening⟩ :: ts ++ [⟨.symbol .closeParen, closing⟩]) := by
  refine ⟨by simp [h.level, Token.rise], ?_⟩
  intro pre post h_split
  cases pre with
  | nil => simp
  | cons x pre =>
    obtain ⟨rfl, h_rest⟩ : _ = x ∧ ts ++ [⟨.symbol .closeParen, closing⟩] = pre ++ post := by
      simpa using h_split
    rw [depth_cons]
    obtain ⟨more, rfl, h_more⟩ | ⟨more, h_more, -⟩ := List.append_eq_append_iff.1 h_rest
    · -- All of `ts` is in front of the cut, and the closing parenthesis at most.
      have h_end : 0 ≤ depth more + 1 := by
        cases more with
        | nil => simp
        | cons y more =>
          obtain ⟨rfl, h_nil⟩ : _ = y ∧ [] = more ++ post := by simpa using h_more
          have h_none : more = [] := (List.append_eq_nil_iff.1 h_nil.symm).1
          simp [h_none, Token.rise]
      rw [depth_append, h.level]
      simp only [Token.rise]
      omega
    · have h_pre := h.nested pre more h_more
      simp only [Token.rise]
      omega

/-- A parenthesis that closes more than was opened ends what is balanced. -/
theorem not_append_close {xs more : List Located} {p : Position} (h_xs : Balanced xs) :
    ¬ Balanced (xs ++ ⟨.symbol .closeParen, p⟩ :: more) := by
  intro h
  have h_depth := h.nested (xs ++ [⟨.symbol .closeParen, p⟩]) more (by simp)
  rw [depth_append, h_xs.level] at h_depth
  simp [Token.rise] at h_depth

/-- What stands in parentheses ends where its parenthesis is closed. -/
theorem eq_of_append_close {xs ys r s : List Located} {p q : Position} (h_xs : Balanced xs)
    (h_ys : Balanced ys)
    (h : xs ++ ⟨.symbol .closeParen, p⟩ :: r = ys ++ ⟨.symbol .closeParen, q⟩ :: s) :
    xs = ys ∧ p = q ∧ r = s := by
  obtain ⟨more, rfl, h_more⟩ | ⟨more, rfl, h_more⟩ := List.append_eq_append_iff.1 h
  · cases more with
    | nil => simpa using h
    | cons t more =>
      obtain rfl : _ = t := (List.cons.inj h_more).1
      exact absurd h_ys h_xs.not_append_close
  · cases more with
    | nil => simpa using h
    | cons t more =>
      obtain rfl : _ = t := (List.cons.inj h_more).1
      exact absurd h_xs h_ys.not_append_close

end Balanced

theorem ExprDerivation.balanced {p : Option Level} (d : ExprDerivation p) : Balanced d.tokens := by
  induction d with
  | name text pos => exact .singleton rfl
  | integer digits pos => exact .singleton rfl
  | parens opening inner closing ih => exact ih.parens opening closing
  | single operand ih => exact ih
  | binary lhs op h_op pos rhs ih_lhs ih_rhs => exact ih_lhs.append (ih_rhs.cons op.rise_symbol)

theorem CondDerivation.balanced (d : CondDerivation) : Balanced d.tokens := by
  induction d with
  | comparison lhs op pos rhs => exact lhs.balanced.append (rhs.balanced.cons op.rise_symbol)
  | negation bang opening arg closing ih => exact (ih.parens opening closing).cons rfl
  | compound opening lhs closing connective pos opening' rhs closing' ih_lhs ih_rhs =>
    exact (ih_lhs.parens opening closing).append
      ((ih_rhs.parens opening' closing').cons connective.rise_symbol)

/-! ## One derivation for each list of tokens -/

/-- The operators that bind too loosely to stand in a part outside of parentheses. -/
def Level.Excludes : Option Level → BinOp → Prop
  | none, _ => True
  | some .product, op => op.level = .sum
  | some .sum, _ => False

theorem Level.excludes_operand {l : Level} {op : BinOp} (h : op.level = l) :
    Level.Excludes l.operand op := by
  cases l with
  | sum => exact h
  | product => trivial

theorem Level.excludes_of_some {l : Level} {op : BinOp} (h : Level.Excludes (some l) op) :
    Level.Excludes l.operand op ∧ op.level ≠ l := by
  cases l with
  | sum => exact h.elim
  | product =>
    refine ⟨trivial, ?_⟩
    rw [show op.level = .sum from h]
    decide

namespace ExprDerivation

/-- An operator that binds too loosely for a part stands in parentheses there. -/
theorem depth_pos_of_excludes {p : Option Level} (d : ExprDerivation p) {op : BinOp}
    (h_op : Level.Excludes p op) (pre post : List Located) (pos : Position)
    (h : d.tokens = pre ++ ⟨.symbol op.symbol, pos⟩ :: post) : 0 < depth pre := by
  induction d generalizing pre post with
  | name text pos' =>
    have h_mem : ⟨.symbol op.symbol, pos⟩ ∈ (name text pos').tokens := by
      rw [h]
      simp
    simp [tokens] at h_mem
  | integer digits pos' =>
    have h_mem : ⟨.symbol op.symbol, pos⟩ ∈ (integer digits pos').tokens := by
      rw [h]
      simp
    simp [tokens] at h_mem
  | parens opening inner closing ih =>
    cases pre with
    | nil =>
      have h_head := congrArg List.head? h
      cases op <;> simp [tokens, BinOp.symbol] at h_head
    | cons t pre =>
      simp only [tokens, List.cons_append, List.cons.injEq] at h
      obtain ⟨rfl, h⟩ := h
      rw [depth_cons]
      obtain ⟨more, rfl, h_more⟩ | ⟨more, h_more, -⟩ := List.append_eq_append_iff.1 h
      · -- Behind the inner expression there is just the closing parenthesis.
        have h_mem : (⟨.symbol op.symbol, pos⟩ : Located) ∈ [⟨.symbol .closeParen, closing⟩] := by
          rw [h_more]
          simp
        cases op <;> simp [BinOp.symbol] at h_mem
      · have h_pre := inner.balanced.nested pre more h_more
        simp only [Token.rise]
        omega
  | single operand ih => exact ih (Level.excludes_of_some h_op).1 pre post h
  | binary lhs op' h_op' pos' rhs ih_lhs ih_rhs =>
    obtain ⟨h_rhs_op, h_ne⟩ := Level.excludes_of_some h_op
    have h_symbol : op.symbol ≠ op'.symbol := by
      intro h_eq
      rw [BinOp.symbol_injective h_eq] at h_ne
      exact h_ne h_op'
    obtain ⟨more, rfl, h_more⟩ | ⟨more, h_lhs, h_more⟩ := List.append_eq_append_iff.1 h
    · cases more with
      | nil => simp [h_symbol.symm] at h_more
      | cons t more =>
        obtain ⟨rfl, h_rhs⟩ := List.cons.inj h_more
        have h_pos := ih_rhs h_rhs_op more post h_rhs
        rw [depth_append, lhs.balanced.level, depth_cons, op'.rise_symbol]
        omega
    · cases more with
      | nil => simp [h_symbol] at h_more
      | cons t more =>
        obtain ⟨rfl, -⟩ := List.cons.inj h_more
        exact ih_lhs h_op pre more h_lhs

/-- A chain does not go on inside its last operand. -/
theorem not_operand_of_longer {l : Level} {lhs lhs' : ExprDerivation (some l)}
    {rhs : ExprDerivation l.operand} {op op' : BinOp} {pos pos' : Position}
    {more post : List Located} (h_op' : op'.level = l)
    (h_lhs : lhs'.tokens = lhs.tokens ++ ⟨.symbol op.symbol, pos⟩ :: more)
    (h_rhs : rhs.tokens = more ++ ⟨.symbol op'.symbol, pos'⟩ :: post) : False := by
  have h_pos := rhs.depth_pos_of_excludes (Level.excludes_operand h_op') more post pos' h_rhs
  have h_level := lhs'.balanced.level
  rw [h_lhs, depth_append, lhs.balanced.level, depth_cons, op.rise_symbol] at h_level
  omega

/-- No two derivations of an expression have the same tokens. -/
theorem eq_of_tokens_eq {p : Option Level} {d d' : ExprDerivation p} (h : d.tokens = d'.tokens) :
    d = d' := by
  induction d with
  | name text pos => cases d' <;> simp_all [tokens]
  | integer digits pos => cases d' <;> simp_all [tokens]
  | parens opening inner closing ih =>
    cases d' with
    | name | integer => simp [tokens] at h
    | parens opening' inner' closing' =>
      simp only [tokens, List.cons_append, List.cons.injEq, Located.mk.injEq, true_and] at h
      obtain ⟨h_tokens, rfl, -⟩ := inner.balanced.eq_of_append_close inner'.balanced h.2
      rw [h.1, ih h_tokens]
  | single operand ih =>
    cases d' with
    | single operand' => rw [ih h]
    | binary lhs' op' h_op' pos' rhs' =>
      -- An operand has no operator of the level outside of parentheses.
      have h_pos := operand.depth_pos_of_excludes (Level.excludes_operand h_op') _ _ pos' h
      rw [lhs'.balanced.level] at h_pos
      omega
  | binary lhs op h_op pos rhs ih_lhs ih_rhs =>
    cases d' with
    | single operand' =>
      have h_pos := operand'.depth_pos_of_excludes (Level.excludes_operand h_op) _ _ pos h.symm
      rw [lhs.balanced.level] at h_pos
      omega
    | binary lhs' op' h_op' pos' rhs' =>
      obtain ⟨more, h_lhs, h_more⟩ | ⟨more, h_lhs, h_more⟩ := List.append_eq_append_iff.1 h
      · cases more with
        | nil =>
          simp only [List.nil_append, List.cons.injEq, Located.mk.injEq, Token.symbol.injEq]
            at h_more
          obtain ⟨⟨h_symbol, rfl⟩, h_rhs⟩ := h_more
          obtain rfl := BinOp.symbol_injective h_symbol
          rw [ih_lhs (by simpa using h_lhs.symm), ih_rhs h_rhs]
        | cons t more =>
          obtain ⟨rfl, h_rhs⟩ := List.cons.inj h_more
          exact (not_operand_of_longer h_op' h_lhs h_rhs).elim
      · cases more with
        | nil =>
          simp only [List.nil_append, List.cons.injEq, Located.mk.injEq, Token.symbol.injEq]
            at h_more
          obtain ⟨⟨h_symbol, rfl⟩, h_rhs⟩ := h_more
          obtain rfl := BinOp.symbol_injective h_symbol
          rw [ih_lhs (by simpa using h_lhs), ih_rhs h_rhs.symm]
        | cons t more =>
          obtain ⟨rfl, h_rhs⟩ := List.cons.inj h_more
          exact (not_operand_of_longer h_op h_lhs h_rhs).elim

end ExprDerivation

namespace CondDerivation

theorem exists_not_arithmetic (d : CondDerivation) :
    ∃ t ∈ d.tokens, t.token.isArithmetic = false := by
  cases d with
  | comparison lhs op pos rhs =>
    exact ⟨⟨.symbol op.symbol, pos⟩, by simp [tokens], op.isArithmetic_symbol⟩
  | negation bang opening arg closing => exact ⟨⟨.symbol .bang, bang⟩, by simp [tokens], rfl⟩
  | compound opening lhs closing connective pos opening' rhs closing' =>
    refine ⟨⟨.symbol connective.symbol, pos⟩, by simp [tokens], ?_⟩
    cases connective <;> rfl

/-- No expression starts with a condition in parentheses: it would end behind the
    comparison in there, or leave the parenthesis open. -/
theorem not_expr_of_parens (d : CondDerivation) (e : ExprDerivation (some .sum))
    (opening : Position) (r s : List Located) :
    e.tokens ++ r ≠ ⟨.symbol .openParen, opening⟩ :: d.tokens ++ s := by
  intro h
  obtain ⟨more, h_more, -⟩ | ⟨more, h_more, -⟩ := List.append_eq_append_iff.1 h
  · cases h_e : e.tokens with
    | nil => exact e.tokens_ne_nil h_e
    | cons t pre =>
      rw [h_e] at h_more
      obtain ⟨rfl, h_pre⟩ := List.cons.inj h_more
      have h_nested := d.balanced.nested pre more h_pre
      have h_level := e.balanced.level
      rw [h_e, depth_cons] at h_level
      simp only [Token.rise] at h_level
      omega
  · obtain ⟨t, h_t, h_not⟩ := d.exists_not_arithmetic
    have h_arithmetic := e.isArithmetic_of_mem t (by rw [h_more]; simp [h_t])
    simp [h_arithmetic] at h_not

/-- No expression starts with a negation sign. -/
theorem not_expr_of_bang (e : ExprDerivation (some .sum)) (bang : Position) (r s : List Located) :
    e.tokens ++ r ≠ ⟨.symbol .bang, bang⟩ :: s := by
  intro h
  cases h_e : e.tokens with
  | nil => exact e.tokens_ne_nil h_e
  | cons t pre =>
    rw [h_e] at h
    obtain ⟨rfl, -⟩ := List.cons.inj h
    have h_arithmetic := e.isArithmetic_of_mem ⟨.symbol .bang, bang⟩ (by rw [h_e]; simp)
    simp [Token.isArithmetic] at h_arithmetic

/-- No two derivations of a condition have the same tokens. -/
theorem eq_of_tokens_eq {d d' : CondDerivation} (h : d.tokens = d'.tokens) : d = d' := by
  induction d generalizing d' with
  | comparison lhs op pos rhs =>
    cases d' with
    | comparison lhs' op' pos' rhs' =>
      obtain ⟨h_lhs, h_op, h_rhs⟩ := ExprDerivation.tokens_eq_of_append op.isArithmetic_symbol
        op'.isArithmetic_symbol h
      simp only [Located.mk.injEq, Token.symbol.injEq] at h_op
      rw [ExprDerivation.eq_of_tokens_eq h_lhs, RelOp.symbol_injective h_op.1, h_op.2,
        ExprDerivation.eq_of_tokens_eq h_rhs]
    | negation bang opening arg closing => exact (not_expr_of_bang lhs bang _ _ h).elim
    | compound opening lhs' closing connective pos' opening' rhs' closing' =>
      exact (not_expr_of_parens lhs' lhs opening _ _ (by simpa [tokens] using h)).elim
  | negation bang opening arg closing ih =>
    cases d' with
    | comparison lhs op pos rhs => exact (not_expr_of_bang lhs bang _ _ h.symm).elim
    | negation bang' opening' arg' closing' =>
      simp only [tokens, List.cons_append, List.cons.injEq, Located.mk.injEq, true_and] at h
      obtain ⟨rfl, rfl, h⟩ := h
      obtain ⟨h_arg, rfl, -⟩ := arg.balanced.eq_of_append_close arg'.balanced h
      rw [ih h_arg]
    | compound opening' lhs closing' connective pos opening'' rhs closing'' => simp [tokens] at h
  | compound opening lhs closing connective pos opening' rhs closing' ih_lhs ih_rhs =>
    cases d' with
    | comparison lhs' op pos' rhs' =>
      exact (not_expr_of_parens lhs lhs' opening _ _ (by simpa [tokens] using h.symm)).elim
    | negation bang opening'' arg closing'' => simp [tokens] at h
    | compound o₁ lhs' c₁ connective' pos' o₂ rhs' c₂ =>
      simp only [tokens, List.cons_append, List.append_assoc, List.nil_append, List.cons.injEq,
        Located.mk.injEq, true_and] at h
      obtain ⟨rfl, h⟩ := h
      obtain ⟨h_lhs, rfl, h_tail⟩ := lhs.balanced.eq_of_append_close lhs'.balanced h
      simp only [List.cons.injEq, Located.mk.injEq, Token.symbol.injEq, true_and] at h_tail
      obtain ⟨⟨h_symbol, rfl⟩, rfl, h_tail⟩ := h_tail
      obtain ⟨h_rhs, rfl, -⟩ := rhs.balanced.eq_of_append_close rhs'.balanced h_tail
      rw [ih_lhs h_lhs, Connective.symbol_injective h_symbol, ih_rhs h_rhs]

end CondDerivation

namespace StmtDerivation

/-- A statement starts with a name. -/
theorem exists_tokens_eq_name (d : StmtDerivation .statement) :
    ∃ text pos rest, d.tokens = ⟨.name text, pos⟩ :: rest := by
  cases d <;> exact ⟨_, _, _, rfl⟩

theorem exists_statements_eq_name (d : StmtDerivation .statements) :
    ∃ text pos rest, d.tokens = ⟨.name text, pos⟩ :: rest := by
  cases d with
  | last s => exact s.exists_tokens_eq_name
  | more s more =>
    obtain ⟨text, pos, rest, h⟩ := s.exists_tokens_eq_name
    exact ⟨text, pos, rest ++ more.tokens, by simp [tokens, h]⟩

/-- The tokens of a derivation show where it ends, those of statements once the
    closing brace of their block stands behind them. -/
def Delimited : {p : StmtPart} → StmtDerivation p → Prop
  | .statement, d => ∀ (d' : StmtDerivation .statement) (r s : List Located),
    d.tokens ++ r = d'.tokens ++ s → d = d' ∧ r = s
  | .statements, d => ∀ (d' : StmtDerivation .statements) (a b : Position) (r s : List Located),
    d.tokens ++ ⟨.symbol .closeBrace, a⟩ :: r = d'.tokens ++ ⟨.symbol .closeBrace, b⟩ :: s →
      d = d' ∧ a = b ∧ r = s
  | .block, d => ∀ (d' : StmtDerivation .block) (r s : List Located),
    d.tokens ++ r = d'.tokens ++ s → d = d' ∧ r = s

theorem delimited {p : StmtPart} (d : StmtDerivation p) : d.Delimited := by
  induction d with
  | assign var pos equal rhs semicolon =>
    intro d' r s h
    cases d' with
    | assign var' pos' equal' rhs' semicolon' =>
      simp only [tokens, List.cons_append, List.append_assoc, List.nil_append, List.cons.injEq,
        Located.mk.injEq, Token.name.injEq, true_and] at h
      obtain ⟨⟨rfl, rfl⟩, rfl, h⟩ := h
      obtain ⟨h_rhs, h_semicolon, rfl⟩ := ExprDerivation.tokens_eq_of_append rfl rfl h
      simp only [Located.mk.injEq, true_and] at h_semicolon
      rw [ExprDerivation.eq_of_tokens_eq h_rhs, h_semicolon]
      exact ⟨rfl, rfl⟩
    | named | whileLoop | ifElse => simp [tokens] at h
  | named kind pos name namePos semicolon =>
    intro d' r s h
    cases d' with
    | named kind' pos' name' namePos' semicolon' =>
      simp only [tokens, List.cons_append, List.nil_append, List.cons.injEq, Located.mk.injEq,
        Token.name.injEq, true_and] at h
      obtain ⟨⟨h_word, rfl⟩, ⟨rfl, rfl⟩, rfl, rfl⟩ := h
      rw [NamedAction.word_injective h_word]
      exact ⟨rfl, rfl⟩
    | assign | whileLoop | ifElse => simp [tokens] at h
  | whileLoop pos opening cond closing body ih =>
    intro d' r s h
    cases d' with
    | whileLoop pos' opening' cond' closing' body' =>
      simp only [tokens, List.cons_append, List.append_assoc, List.cons.injEq, Located.mk.injEq,
        true_and] at h
      obtain ⟨rfl, rfl, h⟩ := h
      obtain ⟨h_cond, rfl, h_body⟩ := cond.balanced.eq_of_append_close cond'.balanced h
      obtain ⟨rfl, rfl⟩ := ih body' r s h_body
      rw [CondDerivation.eq_of_tokens_eq h_cond]
      exact ⟨rfl, rfl⟩
    | assign | named | ifElse => simp [tokens] at h
  | ifElse pos opening cond closing thenPos thenBranch elsePos elseBranch ih_then ih_else =>
    intro d' r s h
    cases d' with
    | ifElse pos' opening' cond' closing' thenPos' thenBranch' elsePos' elseBranch' =>
      simp only [tokens, List.cons_append, List.append_assoc, List.cons.injEq, Located.mk.injEq,
        true_and] at h
      obtain ⟨rfl, rfl, h⟩ := h
      obtain ⟨h_cond, rfl, h_branches⟩ := cond.balanced.eq_of_append_close cond'.balanced h
      simp only [List.cons.injEq, Located.mk.injEq, true_and] at h_branches
      obtain ⟨rfl, h_branches⟩ := h_branches
      obtain ⟨rfl, h_else⟩ := ih_then thenBranch' _ _ h_branches
      simp only [List.cons.injEq, Located.mk.injEq, true_and] at h_else
      obtain ⟨rfl, h_else⟩ := h_else
      obtain ⟨rfl, rfl⟩ := ih_else elseBranch' r s h_else
      rw [CondDerivation.eq_of_tokens_eq h_cond]
      exact ⟨rfl, rfl⟩
    | assign | named | whileLoop => simp [tokens] at h
  | last s ih =>
    intro d' a b r rest h
    cases d' with
    | last s' =>
      obtain ⟨rfl, h_rest⟩ := ih s' _ _ h
      simp only [List.cons.injEq, Located.mk.injEq, true_and] at h_rest
      exact ⟨rfl, h_rest⟩
    | more s' more' =>
      -- Behind the first statement stands a brace on one side, a name on the other.
      obtain ⟨text, pos, tail, h_more⟩ := more'.exists_statements_eq_name
      have h_brace := (ih s' (⟨.symbol .closeBrace, a⟩ :: r) _ (by simpa [tokens] using h)).2
      simp [h_more] at h_brace
  | more s more ih_s ih_more =>
    intro d' a b r rest h
    cases d' with
    | last s' =>
      obtain ⟨text, pos, tail, h_more⟩ := more.exists_statements_eq_name
      have h_brace := (ih_s s' _ (⟨.symbol .closeBrace, b⟩ :: rest) (by simpa [tokens] using h)).2
      simp [h_more] at h_brace
    | more s' more' =>
      obtain ⟨rfl, h_more⟩ := ih_s s' _ _ (by simpa [tokens] using h)
      obtain ⟨rfl, h_rest⟩ := ih_more more' a b r rest h_more
      exact ⟨rfl, h_rest⟩
  | block opening body closing ih =>
    intro d' r s h
    cases d' with
    | block opening' body' closing' =>
      simp only [tokens, List.cons_append, List.append_assoc, List.nil_append, List.cons.injEq,
        Located.mk.injEq, true_and] at h
      obtain ⟨rfl, h⟩ := h
      obtain ⟨rfl, rfl, rfl⟩ := ih body' closing closing' r s h
      exact ⟨rfl, rfl⟩

end StmtDerivation

/-- The tokens of a procedure show where it ends. -/
theorem ProcedureDerivation.eq_of_tokens_append {d d' : ProcedureDerivation} {r s : List Located}
    (h : d.tokens ++ r = d'.tokens ++ s) : d = d' ∧ r = s := by
  obtain ⟨pos, name, namePos, body⟩ := d
  obtain ⟨pos', name', namePos', body'⟩ := d'
  simp only [tokens, List.cons_append, List.cons.injEq, Located.mk.injEq, Token.name.injEq,
    true_and] at h
  obtain ⟨rfl, ⟨rfl, rfl⟩, h⟩ := h
  obtain ⟨rfl, rfl⟩ := body.delimited body' r s h
  exact ⟨rfl, rfl⟩

theorem ProcedureDerivation.eq_of_flatMap_tokens_eq {ds ds' : List ProcedureDerivation}
    (h : ds.flatMap tokens = ds'.flatMap tokens) : ds = ds' := by
  induction ds generalizing ds' with
  | nil =>
    cases ds' with
    | nil => rfl
    | cons d' ds' => simp [tokens] at h
  | cons d ds ih =>
    cases ds' with
    | nil => simp [tokens] at h
    | cons d' ds' =>
      obtain ⟨rfl, h_rest⟩ := eq_of_tokens_append (by simpa using h)
      rw [ih h_rest]

/-- No two derivations of a program have the same tokens. -/
theorem ProgramDerivation.eq_of_tokens_eq {d d' : ProgramDerivation} (h : d.tokens = d'.tokens) :
    d = d' := by
  have h_procedures := ProcedureDerivation.eq_of_flatMap_tokens_eq h
  obtain ⟨h_first, h_rest⟩ := List.cons.inj h_procedures
  obtain ⟨first, rest⟩ := d
  obtain ⟨first', rest'⟩ := d'
  obtain rfl : first = first' := h_first
  obtain rfl : rest = rest' := h_rest
  rfl

end ProgramQuery
