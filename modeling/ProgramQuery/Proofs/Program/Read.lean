/-
  ProgramQuery.Proofs.Program.Read

  What is known of a program that was read from a text.

  The reader refuses empty blocks, the layout makes numbers follow the reading
  order, and the checks make names distinct, callees declared and calls acyclic.
  `WellFormed` collects these facts; all later arguments about accepted programs
  start from it.
-/

import ProgramQuery.Proofs.Graph.Order
import ProgramQuery.Proofs.Program.Parser

namespace ProgramQuery

/-- A computation in steps succeeds if each step does. -/
theorem bind_eq_ok {ε α β : Type} {x : Except ε α} {f : α → Except ε β} {r : β} :
    (x >>= f) = .ok r ↔ ∃ a, x = .ok a ∧ f a = .ok r := by
  cases x with
  | error e => simp [bind, Except.bind]
  | ok a => simp [bind, Except.bind]

/-- A computation that passes a test has a result, with whatever the test implies. -/
theorem exists_ok_of_test {ε α : Type} {x : Except ε α} {P : α → Prop} (test : α → Bool)
    (h_test : x.toOption.any test = true) (h : ∀ a, x = .ok a → test a = true → P a) :
    ∃ a, x = .ok a ∧ P a := by
  cases x with
  | error e => simp [Except.toOption] at h_test
  | ok a => exact ⟨a, rfl, h a rfl (by simpa [Except.toOption] using h_test)⟩

namespace Stmt

variable {α : Type}

/-! ## Filled trees -/

mutual

/-- No block of the statement, or of one inside it, is empty. -/
def Filled : Stmt α → Prop
  | .simple _ _ => True
  | .whileLoop _ _ body => body ≠ [] ∧ FilledList body
  | .ifElse _ _ thenBranch elseBranch =>
    (thenBranch ≠ [] ∧ FilledList thenBranch) ∧ (elseBranch ≠ [] ∧ FilledList elseBranch)

/-- No block in a list of statements is empty. -/
def FilledList : List (Stmt α) → Prop
  | [] => True
  | s :: rest => Filled s ∧ FilledList rest

end

theorem placeList_ne_nil {ss : List (Stmt α)} (base : Nat) (h : ss ≠ []) :
    placeList base ss ≠ [] := by
  cases ss with
  | nil => exact absurd rfl h
  | cons s rest => simp

theorem filled_place :
    (∀ (s : Stmt α) base, s.Filled → (s.place base).Filled) ∧
    (∀ (ss : List (Stmt α)) base, FilledList ss → FilledList (placeList base ss)) := by
  refine induction ?_ ?_ ?_ ?_ ?_
  · intro tag action base _
    simp [place, Filled]
  · intro tag cond body ih base h
    simp only [Filled] at h
    simp only [place, Filled]
    exact ⟨placeList_ne_nil _ h.1, ih _ h.2⟩
  · intro tag cond thenBranch elseBranch ih_then ih_else base h
    simp only [Filled] at h
    simp only [place, Filled]
    exact ⟨⟨placeList_ne_nil _ h.1.1, ih_then _ h.1.2⟩, ⟨placeList_ne_nil _ h.2.1, ih_else _ h.2.2⟩⟩
  · intro base h
    simp [FilledList]
  · intro s rest ih_s ih_rest base h
    simp only [FilledList] at h
    simp only [placeList_cons, FilledList]
    exact ⟨ih_s _ h.1, ih_rest _ h.2⟩

end Stmt

/-! ## Reading -/

namespace Reader

theorem statementsFrom_filled {read : Reader (Stmt Position)}
    (h_read : ∀ ts s rest, read ts = .ok (s, rest) → s.Filled) (fuel : Nat) (ts rest : List Located)
    (body : List (Stmt Position)) (h : statementsFrom read fuel ts = .ok (body, rest)) :
    Stmt.FilledList body := by
  induction fuel generalizing ts rest body with
  | zero => simp [statementsFrom] at h
  | succ fuel ih =>
    simp only [statementsFrom] at h
    split at h
    · cases h
    · cases h
      simp [Stmt.FilledList]
    · obtain ⟨⟨s, rest₁⟩, h_s, h⟩ := bind_eq_ok.1 h
      obtain ⟨⟨more, rest₂⟩, h_more, h⟩ := bind_eq_ok.1 h
      cases h
      simp only [Stmt.FilledList]
      exact ⟨h_read _ _ _ h_s, ih _ _ _ h_more⟩

theorem block_filled {read : Reader (Stmt Position)}
    (h_read : ∀ ts s rest, read ts = .ok (s, rest) → s.Filled) {fuel : Nat} {ts rest : List Located}
    {body : List (Stmt Position)} (h : block read fuel ts = .ok (body, rest)) :
    body ≠ [] ∧ Stmt.FilledList body := by
  obtain ⟨rest₁, -, h⟩ := bind_eq_ok.1 h
  obtain ⟨⟨found, rest₂⟩, h_found, h⟩ := bind_eq_ok.1 h
  simp only at h
  split at h
  · cases h
  · rename_i h_some
    cases h
    exact ⟨by simpa using h_some, statementsFrom_filled h_read _ _ _ _ h_found⟩

theorem nameAction_filled {pos : Position} {action : String → Action} {ts rest : List Located}
    {s : Stmt Position} (h : nameAction pos action ts = .ok (s, rest)) : s.Filled := by
  obtain ⟨⟨text, rest₁⟩, -, h⟩ := bind_eq_ok.1 h
  obtain ⟨rest₂, -, h⟩ := bind_eq_ok.1 h
  cases h
  simp [Stmt.Filled]

/-- Statements that are read have no empty blocks. -/
theorem statement_filled (fuel : Nat) (ts : List Located) (s : Stmt Position) (rest : List Located)
    (h : statement fuel ts = .ok (s, rest)) : s.Filled := by
  induction fuel generalizing ts s rest with
  | zero => simp [statement] at h
  | succ fuel ih =>
    unfold statement at h
    split at h
    · cases h
    · rename_i fuel' word pos rest₀ h_fuel
      obtain rfl := Nat.succ.inj h_fuel
      -- An assignment; then `read`, `print` and `call`; then the two containers.
      split at h
      · obtain ⟨⟨e, rest₁⟩, -, h⟩ := bind_eq_ok.1 h
        obtain ⟨rest₂, -, h⟩ := bind_eq_ok.1 h
        cases h
        simp [Stmt.Filled]
      split at h
      · exact nameAction_filled h
      split at h
      · exact nameAction_filled h
      split at h
      · exact nameAction_filled h
      split at h
      · obtain ⟨⟨c, rest₁⟩, -, h⟩ := bind_eq_ok.1 h
        obtain ⟨⟨body, rest₂⟩, h_body, h⟩ := bind_eq_ok.1 h
        cases h
        simp only [Stmt.Filled]
        exact block_filled ih h_body
      split at h
      · obtain ⟨⟨c, rest₁⟩, -, h⟩ := bind_eq_ok.1 h
        obtain ⟨rest₂, -, h⟩ := bind_eq_ok.1 h
        obtain ⟨⟨thenBranch, rest₃⟩, h_then, h⟩ := bind_eq_ok.1 h
        obtain ⟨rest₄, -, h⟩ := bind_eq_ok.1 h
        obtain ⟨⟨elseBranch, rest₅⟩, h_else, h⟩ := bind_eq_ok.1 h
        cases h
        simp only [Stmt.Filled]
        exact ⟨block_filled ih h_then, block_filled ih h_else⟩
      · cases h
    · cases h

theorem procedures_filled (fuel : Nat) (ts : List Located) (ps : List ProcedureText)
    (h : procedures fuel ts = .ok ps) : ∀ p ∈ ps, p.body ≠ [] ∧ Stmt.FilledList p.body := by
  induction fuel generalizing ts ps with
  | zero =>
    cases ts with
    | nil =>
      cases h
      simp
    | cons t ts => cases h
  | succ fuel ih =>
    cases ts with
    | nil =>
      cases h
      simp
    | cons t ts =>
      obtain ⟨⟨p, rest⟩, h_p, h⟩ := bind_eq_ok.1 h
      obtain ⟨more, h_more, h⟩ := bind_eq_ok.1 h
      cases h
      obtain ⟨rest₁, -, h_p⟩ := bind_eq_ok.1 h_p
      obtain ⟨⟨text, rest₂⟩, -, h_p⟩ := bind_eq_ok.1 h_p
      obtain ⟨⟨body, rest₃⟩, h_body, h_p⟩ := bind_eq_ok.1 h_p
      cases h_p
      intro q hq
      rcases List.mem_cons.1 hq with rfl | hq
      · exact block_filled (statement_filled _) h_body
      · exact ih _ _ h_more q hq

end Reader

theorem readProcedures_filled {text : String} {ps : List ProcedureText}
    (h : readProcedures text = .ok ps) : ∀ p ∈ ps, p.body ≠ [] ∧ Stmt.FilledList p.body := by
  unfold readProcedures at h
  split at h
  · cases h
  · unfold TokenStream.procedures at h
    split at h
    · cases h
    · cases h
    · rename_i h_ps
      cases h
      exact Reader.procedures_filled _ _ _ h_ps

/-! ## Checks -/

namespace Program

theorem nodup_of_firstRepeated? {seen names : List String} (h : firstRepeated? seen names = none) :
    names.Nodup ∧ ∀ name ∈ names, name ∉ seen := by
  induction names generalizing seen with
  | nil => simp
  | cons name rest ih =>
    rw [firstRepeated?] at h
    split at h
    · cases h
    · rename_i h_new
      obtain ⟨h_nodup, h_apart⟩ := ih h
      have h_first : name ∉ rest := fun h_in => h_apart name h_in (List.mem_cons_self ..)
      refine ⟨List.nodup_cons.2 ⟨h_first, h_nodup⟩, fun x hx => ?_⟩
      rcases List.mem_cons.1 hx with rfl | hx
      · exact h_new
      · exact fun h_seen => h_apart x hx (List.mem_cons_of_mem _ h_seen)

theorem declared_of_firstUndefined? {declared : List String} {ps : List ProcedureTree}
    (h : firstUndefined? declared ps = none) : ∀ p ∈ ps, ∀ c ∈ p.callees, c ∈ declared := by
  intro p hp c hc
  have h_p := List.findSome?_eq_none_iff.1 h p hp
  rw [Option.map_eq_none_iff, List.find?_eq_none] at h_p
  simpa using h_p c hc

/-- A call is an edge of the call graph. -/
theorem edge_callGraph {ps : List ProcedureTree} {a b : String} :
    (callGraph ps).Edge a b ↔ ∃ p ∈ ps, p.name = a ∧ b ∈ p.callees := by
  rw [callGraph, Graph.OrderedGraph.edge_ofAdjacency]
  simp [@eq_comm _ a]

theorem endsAreNodes_callGraph (ps : List ProcedureTree) : (callGraph ps).EndsAreNodes :=
  Graph.OrderedGraph.endsAreNodes_ofAdjacency _

end Program

/-! ## Well-formed programs -/

namespace NumberedProgram

/-- All statements of a program, in reading order. -/
def statements (p : NumberedProgram) : List (Stmt StatementId) :=
  p.procedures.flatMap ProcedureTree.statements

/-- What the numbering and the later analyses of a program rely on. -/
structure WellFormed (p : NumberedProgram) : Prop where
  numbers : p.statements.map (fun s => p.number s.tag) = List.range' 1 p.statements.length
  filled : ∀ q ∈ p.procedures, q.body ≠ [] ∧ Stmt.FilledList q.body
  names : (p.procedures.map ProcedureTree.name).Nodup
  declared : ∀ q ∈ p.procedures, ∀ c ∈ q.callees, ∃ r ∈ p.procedures, r.name = c
  acyclic : (Program.callGraph p.procedures).Acyclic

end NumberedProgram

namespace Program

theorem filled_placedFrom (base : Nat) (ps : List ProcedureText)
    (h : ∀ p ∈ ps, p.body ≠ [] ∧ Stmt.FilledList p.body) :
    ∀ q ∈ placedFrom base ps, q.body ≠ [] ∧ Stmt.FilledList q.body := by
  induction ps generalizing base with
  | nil => simp [placedFrom]
  | cons p rest ih =>
    intro q hq
    rw [placedFrom, List.mem_cons] at hq
    rcases hq with rfl | hq
    · obtain ⟨h_some, h_filled⟩ := h p (List.mem_cons_self ..)
      exact ⟨Stmt.placeList_ne_nil base h_some, Stmt.filled_place.2 _ base h_filled⟩
    · exact ih _ (fun r hr => h r (List.mem_cons_of_mem _ hr)) q hq

/-- Numbers follow the reading order in a program that was laid out. -/
theorem numbers_ofTexts (ps : List ProcedureText) :
    (ofTexts ps).numbered.statements.map (fun s => (ofTexts ps).numbered.number s.tag) =
      List.range' 1 (ofTexts ps).numbered.statements.length := by
  obtain ⟨h_nodup, h_range⟩ := tags_placedFrom 0 ps
  have h_trees : (ofTexts ps).numbered.procedures = placedFrom 0 ps := procedureTrees_ofTexts ps
  have h_visits : (ofTexts ps).numbered.numbering = .ofVisits (ofTexts ps).statements.size
      (((placedFrom 0 ps).flatMap ProcedureTree.statements).map Stmt.tag) := by
    simp only [numbered, NumberedProgram.ofTrees, procedureTrees_ofTexts, List.map_flatMap]
  have h_numbers := Numbering.map_number_ofVisits (totalSize ps) _ h_nodup (by
    intro id h_id
    obtain ⟨t, ht, rfl⟩ := List.mem_map.1 h_id
    have := (h_range t ht).2
    rwa [Nat.zero_add] at this)
  rw [List.map_map, List.length_map] at h_numbers
  simp only [NumberedProgram.statements, NumberedProgram.number, h_trees, h_visits,
    size_statements_ofTexts]
  exact h_numbers

/-- A program without a fault has distinct names, declared callees and no recursion. -/
theorem checks_of_fault?_eq_none {p : Program} (h : p.fault? = none) :
    (p.procedureTrees.map ProcedureTree.name).Nodup ∧
      (∀ q ∈ p.procedureTrees, ∀ c ∈ q.callees, ∃ r ∈ p.procedureTrees, r.name = c) ∧
      (callGraph p.procedureTrees).Acyclic := by
  simp only [fault?] at h
  -- The three checks come one after the other, and each of them has to pass.
  split at h
  · cases h
  rename_i h_repeated
  split at h
  · cases h
  rename_i h_undefined
  split at h
  · cases h
  rename_i order h_order
  have h_ends := endsAreNodes_callGraph p.procedureTrees
  refine ⟨(nodup_of_firstRepeated? h_repeated).1, fun q hq c hc => ?_,
    (Graph.OrderedGraph.isTopological_of_ok h_ends h_order).acyclic h_ends⟩
  exact List.mem_map.1 (declared_of_firstUndefined? h_undefined q hq c hc)

/-- A text is read by putting its procedures into a program and checking it. -/
theorem read_of_texts {text : String} {ps : List ProcedureText} (h : readProcedures text = .ok ps) :
    read text = match (ofTexts ps).fault? with
      | some fault => .error fault
      | none => .ok (ofTexts ps) := by
  rw [read, parse_eq, h]
  rfl

/-- A program that was read is that of the procedures of its text, and it has no fault. -/
theorem exists_texts_of_read {text : String} {p : Program} (h : read text = .ok p) :
    ∃ ps, readProcedures text = .ok ps ∧ p = ofTexts ps ∧ p.fault? = none := by
  cases h_ps : readProcedures text with
  | error fault =>
    rw [read, parse_eq, h_ps] at h
    cases h
  | ok ps =>
    rw [read_of_texts h_ps] at h
    cases h_fault : (ofTexts ps).fault? with
    | some fault =>
      rw [h_fault] at h
      cases h
    | none =>
      rw [h_fault] at h
      cases h
      exact ⟨ps, rfl, rfl, h_fault⟩

/-- A program that was read has its trees. -/
theorem procedureTrees?_of_read {text : String} {p : Program} (h : read text = .ok p) :
    p.procedureTrees? = some p.procedureTrees := by
  obtain ⟨ps, -, rfl, -⟩ := exists_texts_of_read h
  rw [procedureTrees_ofTexts, procedureTrees?_ofTexts]

/-- A program that was read is well formed. -/
theorem wellFormed_of_read {text : String} {p : Program} (h : read text = .ok p) :
    p.numbered.WellFormed := by
  obtain ⟨ps, h_ps, rfl, h_fault⟩ := exists_texts_of_read h
  obtain ⟨h_names, h_declared, h_acyclic⟩ := checks_of_fault?_eq_none h_fault
  have h_filled := filled_placedFrom 0 ps (readProcedures_filled h_ps)
  rw [← procedureTrees_ofTexts] at h_filled
  exact ⟨numbers_ofTexts ps, h_filled, h_names, h_declared, h_acyclic⟩

end Program

namespace NumberedProgram.WellFormed

variable {p : NumberedProgram}

/-- The numbers of all statements grow in reading order. -/
theorem pairwise_numbers (h : p.WellFormed) :
    p.statements.Pairwise fun s t => p.number s.tag < p.number t.tag := by
  have h_sorted : (p.statements.map fun s => p.number s.tag).Pairwise (· < ·) := by
    rw [h.numbers]
    exact List.pairwise_lt_range'
  exact List.pairwise_map.1 h_sorted

/-- The numbers of a procedure grow in reading order. -/
theorem ascending (h : p.WellFormed) {q : ProcedureTree} (hq : q ∈ p.procedures) :
    Stmt.Ascending p.number q.body := by
  obtain ⟨l₁, l₂, h_eq⟩ := List.append_of_mem hq
  refine List.Pairwise.sublist ?_ h.pairwise_numbers
  rw [statements, h_eq]
  simp only [List.flatMap_append, List.flatMap_cons]
  exact (List.sublist_append_left _ _).trans (List.sublist_append_right _ _)

/-- Equal numbers belong to one statement. -/
theorem eq_of_number (h : p.WellFormed) {s t : Stmt StatementId} (hs : s ∈ p.statements)
    (ht : t ∈ p.statements) (h_eq : p.number s.tag = p.number t.tag) : s = t :=
  eq_of_key_eq h.pairwise_numbers hs ht h_eq

/-- A number occurs in one procedure only. -/
theorem procedure_eq (h : p.WellFormed) {q r : ProcedureTree} (hq : q ∈ p.procedures)
    (hr : r ∈ p.procedures) {n : Nat} (h_q : Stmt.HasNumber p.number q.body n)
    (h_r : Stmt.HasNumber p.number r.body n) : q = r := by
  obtain ⟨i, h_i, rfl⟩ := List.getElem_of_mem hq
  obtain ⟨j, h_j, rfl⟩ := List.getElem_of_mem hr
  have h_pair := List.pairwise_flatMap.1 h.pairwise_numbers
  have h_before := List.pairwise_iff_getElem.1 h_pair.2
  obtain ⟨s, hs, rfl⟩ := h_q
  obtain ⟨t, ht, h_t⟩ := h_r
  -- The numbers of an earlier procedure are all smaller, so both are at one place.
  rcases Nat.lt_trichotomy i j with h_lt | rfl | h_lt
  · exact absurd h_t.symm (Nat.ne_of_lt (h_before i j h_i h_j h_lt s hs t ht))
  · rfl
  · exact absurd h_t (Nat.ne_of_lt (h_before j i h_j h_i h_lt t ht s hs))

/-- The k-th statement has the number k. -/
theorem number_of_getElem? (h : p.WellFormed) {i : Nat} {s : Stmt StatementId}
    (h_s : p.statements[i]? = some s) : p.number s.tag = 1 + i := by
  have h_get := congrArg (fun l => l[i]?) h.numbers
  obtain ⟨h_i, -⟩ := List.getElem?_eq_some_iff.1 h_s
  simp only [List.getElem?_map, h_s, Option.map_some, List.getElem?_range' h_i, Nat.one_mul,
    Option.some.injEq] at h_get
  exact h_get

/-- The visits of a program are its statements with their numbers. -/
theorem mem_visits (h : p.WellFormed) {n : StatementNumber} {s : Stmt StatementId} :
    (n, s) ∈ p.visits ↔ s ∈ p.statements ∧ p.number s.tag = n := by
  have h_visit : (n, s) ∈ p.visits ↔ ∃ i, p.statements[i]? = some s ∧ n = 1 + i := by
    simp only [visits, statements, List.mem_map, Prod.exists,
      List.mk_mem_zipIdx_iff_le_and_getElem?_sub, Prod.mk.injEq]
    constructor
    · rintro ⟨t, k, ⟨h_le, h_get⟩, rfl, rfl⟩
      exact ⟨k - 1, h_get, (Nat.add_sub_of_le h_le).symm⟩
    · rintro ⟨i, h_get, rfl⟩
      exact ⟨s, 1 + i, ⟨Nat.le_add_right 1 i, by simpa using h_get⟩, rfl, rfl⟩
  rw [h_visit]
  constructor
  · rintro ⟨i, h_get, rfl⟩
    exact ⟨List.mem_of_getElem? h_get, h.number_of_getElem? h_get⟩
  · rintro ⟨hs, rfl⟩
    obtain ⟨i, h_get⟩ := List.getElem?_of_mem hs
    exact ⟨i, h_get, h.number_of_getElem? h_get⟩

end NumberedProgram.WellFormed

/-! ## Assignments -/

/-- The variable and the expression of an assignment. -/
def Stmt.assignment? {α : Type} : Stmt α → Option (String × Expr)
  | .simple _ (.assign var e) => some (var, e)
  | _ => none

theorem Stmt.assignment?_eq_some {α : Type} {s : Stmt α} {var : String} {e : Expr} :
    s.assignment? = some (var, e) ↔ ∃ tag, s = .simple tag (.assign var e) := by
  cases s with
  | simple tag action => cases action <;> simp [assignment?]
  | whileLoop tag cond body => simp [assignment?]
  | ifElse tag cond thenBranch elseBranch => simp [assignment?]

namespace NumberedProgram

variable {p : NumberedProgram} {n : StatementNumber} {var : String} {e : Expr}

/-- The statement with the number assigns the expression to the variable. -/
def Assigns (p : NumberedProgram) (n : StatementNumber) (var : String) (e : Expr) : Prop :=
  ∃ s ∈ p.statements, p.number s.tag = n ∧ s.assignment? = some (var, e)

instance : Decidable (p.Assigns n var e) :=
  inferInstanceAs (Decidable (∃ s ∈ p.statements, _ ∧ _))

theorem assigns_iff :
    p.Assigns n var e ↔ ∃ tag, .simple tag (.assign var e) ∈ p.statements ∧ p.number tag = n := by
  simp only [Assigns, Stmt.assignment?_eq_some]
  constructor
  · rintro ⟨_, hs, h_number, tag, rfl⟩
    exact ⟨tag, hs, h_number⟩
  · rintro ⟨tag, hs, h_number⟩
    exact ⟨_, hs, h_number, tag, rfl⟩

/-- A number stands for one assignment at most. -/
theorem Assigns.unique (h : p.WellFormed) {var' : String} {e' : Expr} (h₁ : p.Assigns n var e)
    (h₂ : p.Assigns n var' e') : var = var' ∧ e = e' := by
  obtain ⟨s, hs, rfl, h_s⟩ := h₁
  obtain ⟨t, ht, h_number, h_t⟩ := h₂
  rw [h.eq_of_number ht hs h_number, h_s] at h_t
  simpa using h_t

end NumberedProgram

end ProgramQuery
