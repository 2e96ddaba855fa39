/-
  ProgramQuery.Proofs.Flow.NextStar

  What the closure of Next means in terms of the program text.

  Inside a procedure the paths of the flow graph are its leads
  (`Flow.transGen_edges_iff`).  A number belongs to one procedure only, so a path
  never leaves the procedure it started in, and the closure of Next over the
  whole program is the union of the leads of its procedures.
-/

import ProgramQuery.Proofs.Facts.OfProgram
import ProgramQuery.Proofs.Flow.Paths

namespace ProgramQuery

open Relation (TransGen)

namespace NumberedProgram

/-- Both numbers belong to statements of one procedure. -/
def InOneProcedure (p : NumberedProgram) (a b : StatementNumber) : Prop :=
  ∃ q ∈ p.procedures, Stmt.HasNumber p.number q.body a ∧ Stmt.HasNumber p.number q.body b

/-- Some `while` statement of the program is, or contains, the statements of both numbers. -/
def InOneLoop (p : NumberedProgram) (a b : StatementNumber) : Prop :=
  ∃ w ∈ p.statements, w.type = .whileLoop ∧
    Stmt.HasNumber p.number [w] a ∧ Stmt.HasNumber p.number [w] b

/-- Some `if` statement of the program has the one number inside its first branch and
    the other inside its second. -/
def InOppositeBranches (p : NumberedProgram) (a b : StatementNumber) : Prop :=
  ∃ tag cond thenBranch elseBranch, .ifElse tag cond thenBranch elseBranch ∈ p.statements ∧
    Stmt.HasNumber p.number thenBranch a ∧ Stmt.HasNumber p.number elseBranch b

instance (p : NumberedProgram) (a b : StatementNumber) : Decidable (p.InOneProcedure a b) :=
  inferInstanceAs (Decidable (∃ q ∈ p.procedures, _ ∧ _))

instance (p : NumberedProgram) (a b : StatementNumber) : Decidable (p.InOneLoop a b) :=
  inferInstanceAs (Decidable (∃ w ∈ p.statements, _ ∧ _ ∧ _))

variable {p : NumberedProgram} {a b : StatementNumber}

theorem mem_statements {s : Stmt StatementId} :
    s ∈ p.statements ↔ ∃ q ∈ p.procedures, s ∈ Stmt.preorderList q.body := by
  simp only [statements, List.mem_flatMap, ProcedureTree.statements]

/-- The statement that contains a number is in the procedure of that number. -/
theorem WellFormed.mem_of_contains (h : p.WellFormed) {q : ProcedureTree} (hq : q ∈ p.procedures)
    (h_a : Stmt.HasNumber p.number q.body a) {s : Stmt StatementId} (hs : s ∈ p.statements)
    (h_s : Stmt.HasNumber p.number [s] a) : s ∈ Stmt.preorderList q.body := by
  obtain ⟨r, hr, hs⟩ := mem_statements.1 hs
  rwa [h.procedure_eq hq hr h_a (Stmt.hasNumber_of_mem hs h_s)]

theorem WellFormed.inOneLoop_iff (h : p.WellFormed) {q : ProcedureTree} (hq : q ∈ p.procedures)
    (h_a : Stmt.HasNumber p.number q.body a) :
    p.InOneLoop a b ↔ Stmt.ShareLoop p.number q.body a b := by
  constructor
  · rintro ⟨w, hw, h_type, h_wa, h_wb⟩
    exact ⟨w, h.mem_of_contains hq h_a hw h_wa, h_type, h_wa, h_wb⟩
  · rintro ⟨w, hw, h_w⟩
    exact ⟨w, mem_statements.2 ⟨q, hq, hw⟩, h_w⟩

theorem WellFormed.inOppositeBranches_iff (h : p.WellFormed) {q : ProcedureTree}
    (hq : q ∈ p.procedures) (h_a : Stmt.HasNumber p.number q.body a) :
    p.InOppositeBranches a b ↔ Stmt.Separated p.number q.body a b := by
  constructor
  · rintro ⟨tag, cond, thenBranch, elseBranch, hi, h_ia, h_ib⟩
    exact ⟨tag, cond, thenBranch, elseBranch,
      h.mem_of_contains hq h_a hi (Stmt.hasNumber_ifElse.2 (.inr (.inl h_ia))), h_ia, h_ib⟩
  · rintro ⟨tag, cond, thenBranch, elseBranch, hi, h_i⟩
    exact ⟨tag, cond, thenBranch, elseBranch, mem_statements.2 ⟨q, hq, hi⟩, h_i⟩

/-- The leads of the procedures, said about the whole program. -/
theorem WellFormed.exists_leads_iff (h : p.WellFormed) :
    (∃ q ∈ p.procedures, Stmt.Leads p.number q.body a b) ↔
      p.InOneProcedure a b ∧ (p.InOneLoop a b ∨ (a < b ∧ ¬ p.InOppositeBranches a b)) := by
  constructor
  · rintro ⟨q, hq, h_leads⟩
    refine ⟨⟨q, hq, h_leads.source, h_leads.target⟩, ?_⟩
    rw [h.inOneLoop_iff hq h_leads.source, h.inOppositeBranches_iff hq h_leads.source]
    exact h_leads.way
  · rintro ⟨⟨q, hq, h_a, h_b⟩, h_way⟩
    rw [h.inOneLoop_iff hq h_a, h.inOppositeBranches_iff hq h_a] at h_way
    exact ⟨q, hq, h_a, h_b, h_way⟩

end NumberedProgram

namespace FactBase

variable {p : NumberedProgram} {a b : StatementNumber}

theorem contains_next : (ofProgram p).next.direct.contains a b ↔
    ∃ q ∈ p.procedures, (a, b) ∈ (Flow.linkList p.number [] q.body).edges := by
  rw [← NumberedProgram.mem_facts_next]
  exact knows_ofFacts_iff_mem (g := .next a b) (by simp)

/-- Control passes between different statements of one procedure. -/
theorem leads_of_next (h : p.WellFormed) {q : ProcedureTree} (hq : q ∈ p.procedures)
    (h_edge : (a, b) ∈ (Flow.linkList p.number [] q.body).edges) :
    Stmt.Leads p.number q.body a b ∧ a ≠ b := by
  rcases Flow.edge_leads.2 q.body (h.filled q hq).2 (h.ascending hq) [] a b h_edge with h | h
  · simp at h
  · exact h

/-- The closure of Next joins what control can get between in one procedure. -/
theorem contains_nextStar_iff_leads (h : p.WellFormed) :
    (ofProgram p).next.star.contains a b ↔ ∃ q ∈ p.procedures, Stmt.Leads p.number q.body a b := by
  refine contains_nextStar.trans ?_
  change TransGen (fun x y => (ofProgram p).next.direct.contains x y) a b ↔ _
  simp only [contains_next]
  constructor
  · intro h_path
    induction h_path with
    | single h_edge =>
      obtain ⟨q, hq, h_edge⟩ := h_edge
      exact ⟨q, hq, (leads_of_next h hq h_edge).1⟩
    | tail _ h_edge ih =>
      obtain ⟨q, hq, h_leads⟩ := ih
      obtain ⟨r, hr, h_edge⟩ := h_edge
      have h_last := (leads_of_next h hr h_edge).1
      -- The path and its last edge meet in a number, so they are in one procedure.
      obtain rfl := h.procedure_eq hq hr h_leads.target h_last.source
      exact ⟨q, hq, h_leads.trans (h.ascending hq) h_last⟩
  · rintro ⟨q, hq, h_leads⟩
    have h_path := (Flow.transGen_edges_iff (h.filled q hq).2 (h.ascending hq)).2 h_leads
    exact TransGen.mono (fun x y h_edge => ⟨q, hq, h_edge⟩) a b h_path

/-- The closure of Next in terms of the program text: `b` is reached from `a` exactly if both
    are in one procedure and either a loop holds both or `b` comes later and no `if` keeps
    them apart.  A statement is reached from itself exactly if it is, or is in, a loop. -/
theorem nextStar_iff_loop_or_later {source : String} {p : Program}
    (h : Program.read source = .ok p) :
    (∀ a b, (ofProgram p.numbered).next.star.contains a b ↔
      p.numbered.InOneProcedure a b ∧
        (p.numbered.InOneLoop a b ∨ (a < b ∧ ¬ p.numbered.InOppositeBranches a b))) ∧
    (∀ a, (ofProgram p.numbered).next.star.contains a a ↔
      ∃ w ∈ p.numbered.statements, w.type = .whileLoop ∧
        Stmt.HasNumber p.numbered.number [w] a) := by
  have h_wf := Program.wellFormed_of_read h
  have h_star : ∀ a b, (ofProgram p.numbered).next.star.contains a b ↔ _ := fun a b =>
    (contains_nextStar_iff_leads h_wf).trans h_wf.exists_leads_iff
  refine ⟨h_star, fun a => ?_⟩
  rw [h_star]
  constructor
  · rintro ⟨-, ⟨w, hw, h_type, h_a, -⟩ | ⟨h_lt, -⟩⟩
    · exact ⟨w, hw, h_type, h_a⟩
    · exact absurd h_lt (Nat.lt_irrefl a)
  · rintro ⟨w, hw, h_type, h_a⟩
    obtain ⟨q, hq, h_in⟩ := NumberedProgram.mem_statements.1 hw
    have h_q := Stmt.hasNumber_of_mem h_in h_a
    exact ⟨⟨q, hq, h_q, h_q⟩, .inl ⟨w, hw, h_type, h_a, h_a⟩⟩

/-- In a loop control gets from the second branch of an `if` to the first; after the loop
    there is no way back. -/
theorem nextStar_between_branches :
    ∃ p, Program.read ("procedure main \x7b while (x > 0) \x7b if (x == 1) " ++
        "then \x7b y = x; \x7d else \x7b y = 2; \x7d x = x - y; \x7d print y; \x7d") = .ok p ∧
      (ofProgram p.numbered).next.star.contains 4 3 ∧
      ¬ (ofProgram p.numbered).next.star.contains 6 6 := by
  refine exists_ok_of_test (fun p => p.numbered.InOneProcedure 4 3 ∧ p.numbered.InOneLoop 4 3 ∧
    ¬ ∃ w ∈ p.numbered.statements, w.type = .whileLoop ∧
      Stmt.HasNumber p.numbered.number [w] 6) (by decide +kernel) fun p h_read h_test => ?_
  obtain ⟨h_procedure, h_loop, h_after⟩ := of_decide_eq_true h_test
  have h_star := nextStar_iff_loop_or_later h_read
  exact ⟨(h_star.1 4 3).2 ⟨h_procedure, .inl h_loop⟩, fun h => h_after ((h_star.2 6).1 h)⟩

end FactBase

end ProgramQuery
