/-
  ProgramQuery.Proofs.Facts.Effects

  What Modifies and Uses mean.

  A procedure has an effect on a variable if some statement of it, or of a procedure
  that it calls through others, has the effect directly (`Affects`).  The facts
  are collected procedure by procedure with the callees first, and that order is
  what makes them complete: when a call is met, all effects of its callee are
  already known (`Collected`).
-/

import ProgramQuery.Proofs.Facts.OfProgram
import ProgramQuery.Proofs.Program.Calls

namespace ProgramQuery

open Facts
open Relation (TransGen ReflTransGen)

/-! ## Direct effects -/

/-- The expression mentions the variable. -/
def Expr.Mentions (var : String) : Expr → Prop
  | .var name => name = var
  | .const _ => False
  | .binary _ lhs rhs => lhs.Mentions var ∨ rhs.Mentions var

/-- The condition mentions the variable. -/
def Cond.Mentions (var : String) : Cond → Prop
  | .rel _ lhs rhs => lhs.Mentions var ∨ rhs.Mentions var
  | .not arg => arg.Mentions var
  | .and lhs rhs => lhs.Mentions var ∨ rhs.Mentions var
  | .or lhs rhs => lhs.Mentions var ∨ rhs.Mentions var

theorem Expr.mem_vars {var : String} {e : Expr} : var ∈ e.vars ↔ e.Mentions var := by
  induction e with
  | var name => simp [vars, Mentions]
  | const digits => simp [vars, Mentions]
  | binary op lhs rhs ih_lhs ih_rhs => simp [vars, Mentions, ih_lhs, ih_rhs]

theorem Cond.mem_vars {var : String} {c : Cond} : var ∈ c.vars ↔ c.Mentions var := by
  induction c with
  | rel op lhs rhs => simp [vars, Mentions, Expr.mem_vars]
  | not arg ih => simp [vars, Mentions, ih]
  | and lhs rhs ih_lhs ih_rhs => simp [vars, Mentions, ih_lhs, ih_rhs]
  | or lhs rhs ih_lhs ih_rhs => simp [vars, Mentions, ih_lhs, ih_rhs]

namespace Stmt

variable {α : Type}

/-- The statement itself reads or assigns the variable. -/
def Writes (var : String) : Stmt α → Prop
  | .simple _ (.read name) => name = var
  | .simple _ (.assign name _) => name = var
  | _ => False

/-- The statement itself prints the variable or mentions it in its expression or condition. -/
def Mentions (var : String) : Stmt α → Prop
  | .simple _ (.print name) => name = var
  | .simple _ (.assign _ e) => e.Mentions var
  | .whileLoop _ cond _ => cond.Mentions var
  | .ifElse _ cond _ _ => cond.Mentions var
  | _ => False

instance decidableWrites (var : String) : (s : Stmt α) → Decidable (s.Writes var)
  | .simple _ (.read name) => inferInstanceAs (Decidable (name = var))
  | .simple _ (.assign name _) => inferInstanceAs (Decidable (name = var))
  | .simple _ (.print _) | .simple _ (.call _) | .whileLoop .. | .ifElse .. => isFalse id

theorem callee?_eq_some {s : Stmt α} {r : String} :
    s.callee? = some r ↔ ∃ tag, s = .simple tag (.call r) := by
  cases s with
  | simple tag action => cases action <;> simp [callee?]
  | whileLoop tag cond body => simp [callee?]
  | ifElse tag cond thenBranch elseBranch => simp [callee?]

end Stmt

theorem ProcedureTree.mem_callees {q : ProcedureTree} {c : String} :
    c ∈ q.callees ↔ ∃ tag, .simple tag (.call c) ∈ q.statements := by
  simp only [callees, List.mem_filterMap, Stmt.callee?_eq_some]
  constructor
  · rintro ⟨s, hs, tag, rfl⟩
    exact ⟨tag, hs⟩
  · rintro ⟨tag, hs⟩
    exact ⟨_, hs, tag, rfl⟩

namespace NumberedProgram

/-- The statement itself has the effect. -/
def Effect.Direct : Effect → Stmt StatementId → String → Prop
  | .modifies, s, var => s.Writes var
  | .uses, s, var => s.Mentions var

/-- What a single statement affects: what it affects itself, and what its callee is
    known to affect. -/
theorem mem_ownEffect {effect : Effect} {known : ProcedureEffects} {s : Stmt StatementId}
    {var : String} : var ∈ ownEffect effect known s ↔
      effect.Direct s var ∨ ∃ r, s.callee? = some r ∧ var ∈ known.getD r ∅ := by
  cases s with
  | simple tag action =>
    cases action <;> cases effect <;>
      simp [ownEffect, Effect.Direct, Stmt.Writes, Stmt.Mentions, Stmt.callee?, Expr.mem_vars]
  | whileLoop tag cond body =>
    cases effect <;>
      simp [ownEffect, Effect.Direct, Stmt.Writes, Stmt.Mentions, Stmt.callee?, Cond.mem_vars]
  | ifElse tag cond thenBranch elseBranch =>
    cases effect <;>
      simp [ownEffect, Effect.Direct, Stmt.Writes, Stmt.Mentions, Stmt.callee?, Cond.mem_vars]

theorem mem_effectOf {effect : Effect} {known : ProcedureEffects} {ss : List (Stmt StatementId)}
    {var : String} : var ∈ effectOf effect known ss ↔
      ∃ s ∈ ss, effect.Direct s var ∨ ∃ r, s.callee? = some r ∧ var ∈ known.getD r ∅ := by
  have h_fold : ∀ vars : NameSet,
      var ∈ ss.foldl (fun vars s => vars ∪ ownEffect effect known s) vars ↔
        var ∈ vars ∨ ∃ s ∈ ss, var ∈ ownEffect effect known s := by
    induction ss with
    | nil => simp
    | cons s rest ih =>
      intro vars
      rw [List.foldl_cons, ih, List.exists_mem_cons_iff, Std.ExtTreeSet.mem_union_iff, or_assoc]
  rw [effectOf, h_fold]
  simp only [mem_ownEffect, Std.ExtTreeSet.not_mem_empty, false_or]

/-! ## Effects through calls -/

/-- Procedures of the name have the effect, themselves or through calls. -/
def Affects (p : NumberedProgram) (effect : Effect) (name var : String) : Prop :=
  ∃ q ∈ p.procedures, ReflTransGen p.Calls name q.name ∧ ∃ s ∈ q.statements, effect.Direct s var

/-- Some of the statements has the effect, directly or by a call. -/
def AnyAffects (p : NumberedProgram) (effect : Effect) (ss : List (Stmt StatementId))
    (var : String) : Prop :=
  ∃ s ∈ ss, effect.Direct s var ∨ ∃ r, s.callee? = some r ∧ p.Affects effect r var

variable {p : NumberedProgram} {effect : Effect}

/-- A procedure has the effects of its own statements and those of its callees. -/
theorem WellFormed.affects_iff (h : p.WellFormed) {q : ProcedureTree} (hq : q ∈ p.procedures)
    {var : String} : p.Affects effect q.name var ↔ p.AnyAffects effect q.statements var := by
  constructor
  · rintro ⟨r, hr, h_path, h_direct⟩
    -- The path of calls is empty, or it starts with a call in this procedure.
    rcases h_path.cases_head with h_name | ⟨c, ⟨q', hq', h_name, hc⟩, h_rest⟩
    · obtain rfl := h.eq_of_name hq hr h_name
      obtain ⟨s, hs, h_s⟩ := h_direct
      exact ⟨s, hs, .inl h_s⟩
    · obtain rfl := h.eq_of_name hq' hq h_name
      obtain ⟨s, hs, h_call⟩ := List.mem_filterMap.1 hc
      exact ⟨s, hs, .inr ⟨c, h_call, r, hr, h_rest, h_direct⟩⟩
  · rintro ⟨s, hs, h_s | ⟨c, h_call, r, hr, h_path, h_direct⟩⟩
    · exact ⟨q, hq, .refl, s, hs, h_s⟩
    · exact ⟨r, hr, .head ⟨q, hq, rfl, List.mem_filterMap.2 ⟨s, hs, h_call⟩⟩ h_path, h_direct⟩

/-- The effects of the procedures `done` are known in full, and the facts are theirs. -/
structure Collected (p : NumberedProgram) (effect : Effect) (done : List ProcedureTree)
    (found : EffectFacts) : Prop where
  known : ∀ q ∈ done, ∀ var, var ∈ found.known.getD q.name ∅ ↔ p.Affects effect q.name var
  facts : ∀ f, f ∈ found.facts ↔ ∃ q ∈ done,
    (∃ s ∈ q.statements, ∃ var, p.AnyAffects effect s.preorder var ∧
      f = effect.statementFact (p.number s.tag) var) ∨
    ∃ var, p.Affects effect q.name var ∧ f = effect.procedureFact q.name var

/-- Statements whose callees are done affect what they should. -/
theorem Collected.mem_effectOf {done : List ProcedureTree} {found : EffectFacts}
    (h : Collected p effect done found) {ss : List (Stmt StatementId)}
    (h_callees : ∀ s ∈ ss, ∀ c, s.callee? = some c → ∃ r ∈ done, r.name = c) {var : String} :
    var ∈ effectOf effect found.known ss ↔ p.AnyAffects effect ss var := by
  rw [NumberedProgram.mem_effectOf]
  refine exists_congr fun s => and_congr_right fun hs => or_congr_right (exists_congr fun c =>
    and_congr_right fun h_call => ?_)
  obtain ⟨r, hr, rfl⟩ := h_callees s hs c h_call
  exact h.known r hr var

/-- One procedure more, given that its callees are done. -/
theorem Collected.add (h_wf : p.WellFormed) {done : List ProcedureTree} {found : EffectFacts}
    (h : Collected p effect done found) {q : ProcedureTree} (hq : q ∈ p.procedures)
    (h_callees : ∀ c ∈ q.callees, ∃ r ∈ done, r.name = c) :
    Collected p effect (done ++ [q]) (found.addProcedure p effect q) := by
  have h_calls : ∀ s ∈ q.statements, ∀ c, s.callee? = some c → ∃ r ∈ done, r.name = c :=
    fun s hs c h_call => h_callees c (List.mem_filterMap.2 ⟨s, hs, h_call⟩)
  have h_whole : ∀ var, var ∈ effectOf effect found.known q.statements ↔
      p.Affects effect q.name var := by
    intro var
    rw [h.mem_effectOf h_calls, h_wf.affects_iff hq]
  have h_inner : ∀ s ∈ q.statements, ∀ var, var ∈ effectOf effect found.known s.preorder ↔
      p.AnyAffects effect s.preorder var := by
    intro s hs var
    exact h.mem_effectOf fun t ht => h_calls t (Stmt.mem_preorderList_trans hs ht)
  constructor
  · intro r hr var
    simp only [EffectFacts.addProcedure, Std.ExtTreeMap.getD_insert]
    split
    · rename_i h_eq
      rw [← Std.LawfulEqOrd.eq_of_compare h_eq]
      exact h_whole var
    · rename_i h_ne
      rcases List.mem_append.1 hr with hr | hr
      · exact h.known r hr var
      · rw [List.mem_singleton.1 hr] at h_ne
        exact absurd Std.ReflOrd.compare_self h_ne
  · intro f
    simp only [EffectFacts.addProcedure, List.mem_append, h.facts, List.mem_flatMap, List.mem_map,
      Std.ExtTreeSet.mem_toList, h_whole, List.mem_singleton, or_and_right, exists_or,
      exists_eq_left, or_assoc, @eq_comm _ _ f]
    refine or_congr_right (or_congr_left (exists_congr fun s => and_congr_right fun hs => ?_))
    simp only [h_inner s hs]

/-- All procedures of a list whose callees come first. -/
theorem Collected.foldl (h_wf : p.WellFormed) {done qs : List ProcedureTree} {found : EffectFacts}
    (h : Collected p effect done found) (h_first : CalleesFirst (done ++ qs))
    (h_qs : ∀ q ∈ qs, q ∈ p.procedures) :
    Collected p effect (done ++ qs) (qs.foldl (EffectFacts.addProcedure p effect) found) := by
  induction qs generalizing done found with
  | nil => simpa using h
  | cons q rest ih =>
    -- The callees of the next procedure are among those done.
    have h_q := h.add h_wf (h_qs q (List.mem_cons_self ..)) (h_first done q rest rfl)
    have h_eq : done ++ q :: rest = done ++ [q] ++ rest := by simp
    rw [h_eq] at h_first ⊢
    exact ih h_q h_first fun r hr => h_qs r (List.mem_cons_of_mem _ hr)

theorem WellFormed.mem_effectFacts (h : p.WellFormed) {f : Fact} :
    f ∈ p.effectFacts effect ↔
      (∃ s ∈ p.statements, ∃ var, p.AnyAffects effect s.preorder var ∧
        f = effect.statementFact (p.number s.tag) var) ∨
      ∃ q ∈ p.procedures, ∃ var, p.Affects effect q.name var ∧
        f = effect.procedureFact q.name var := by
  have h_start : Collected p effect [] {} := ⟨by simp, by simp⟩
  have h_all : Collected p effect p.orderedProcedures _ :=
    h_start.foldl h h.calleesFirst_procedures fun q hq => h.mem_orderedProcedures.1 hq
  refine (h_all.facts f).trans ?_
  simp only [h.mem_orderedProcedures, and_or_left, exists_or, statements, List.mem_flatMap]
  refine or_congr_left ⟨?_, ?_⟩
  · rintro ⟨q, hq, s, hs, h_s⟩
    exact ⟨s, ⟨q, hq, hs⟩, h_s⟩
  · rintro ⟨s, ⟨q, hq, hs⟩, h_s⟩
    exact ⟨q, hq, s, hs, h_s⟩

theorem Effect.statementFact_inj {n m : StatementNumber} {v w : String} :
    effect.statementFact n v = effect.statementFact m w ↔ n = m ∧ v = w := by
  cases effect <;> simp [Effect.statementFact]

theorem Effect.procedureFact_inj {q r v w : String} :
    effect.procedureFact q v = effect.procedureFact r w ↔ q = r ∧ v = w := by
  cases effect <;> simp [Effect.procedureFact]

theorem Effect.statementFact_ne {n : StatementNumber} {q v w : String} :
    effect.statementFact n v ≠ effect.procedureFact q w := by
  cases effect <;> simp [Effect.statementFact, Effect.procedureFact]

theorem WellFormed.statementFact_mem_facts (h : p.WellFormed) (effect : Effect)
    {n : StatementNumber} {var : String} :
    effect.statementFact n var ∈ p.facts ↔
      ∃ s ∈ p.statements, p.number s.tag = n ∧ p.AnyAffects effect s.preorder var := by
  rw [mem_facts, family_statementFact, familyFacts, h.mem_effectFacts]
  constructor
  · rintro (⟨s, hs, v, h_v, h_eq⟩ | ⟨q, -, v, -, h_eq⟩)
    · obtain ⟨rfl, rfl⟩ := Effect.statementFact_inj.1 h_eq
      exact ⟨s, hs, rfl, h_v⟩
    · exact absurd h_eq Effect.statementFact_ne
  · rintro ⟨s, hs, rfl, h_v⟩
    exact .inl ⟨s, hs, var, h_v, rfl⟩

/-- What is called, or calls, is a procedure. -/
theorem Affects.exists_procedure {name var : String} (h : p.Affects effect name var) :
    ∃ q ∈ p.procedures, q.name = name := by
  obtain ⟨q, hq, h_path, -⟩ := h
  rcases h_path.cases_head with rfl | ⟨c, ⟨r, hr, h_name, -⟩, -⟩
  · exact ⟨q, hq, rfl⟩
  · exact ⟨r, hr, h_name⟩

theorem WellFormed.procedureFact_mem_facts (h : p.WellFormed) (effect : Effect)
    {name var : String} :
    effect.procedureFact name var ∈ p.facts ↔ p.Affects effect name var := by
  rw [mem_facts, family_procedureFact, familyFacts, h.mem_effectFacts]
  constructor
  · rintro (⟨s, -, v, -, h_eq⟩ | ⟨q, hq, v, h_v, h_eq⟩)
    · exact absurd h_eq.symm Effect.statementFact_ne
    · obtain ⟨rfl, rfl⟩ := Effect.procedureFact_inj.1 h_eq
      exact h_v
  · intro h_v
    obtain ⟨q, hq, rfl⟩ := h_v.exists_procedure
    exact .inr ⟨q, hq, var, h_v, rfl⟩

end NumberedProgram

/-! ## The fact base -/

namespace FactBase

variable {p : NumberedProgram}

theorem contains_calls {a c : String} :
    (ofProgram p).calls.direct.contains a c ↔ p.Calls a c :=
  (knows_ofFacts_iff_mem (g := .calls a c) (by simp)).trans NumberedProgram.mem_facts_calls

theorem contains_callsStar_iff {a c : String} :
    (ofProgram p).calls.star.contains a c ↔ TransGen p.Calls a c := by
  refine contains_callsStar.trans ?_
  change TransGen (fun x y => (ofProgram p).calls.direct.contains x y) a c ↔ _
  simp only [contains_calls]

/-- The procedures that a procedure gets to by calls: itself, and those in the closure of Calls. -/
theorem reflTransGen_calls_iff {a c : String} :
    Relation.ReflTransGen p.Calls a c ↔ c = a ∨ (ofProgram p).calls.star.contains a c := by
  rw [Relation.reflTransGen_iff_eq_or_transGen, contains_callsStar_iff]

theorem affects_iff_star {effect : NumberedProgram.Effect} {name var : String} :
    p.Affects effect name var ↔ ∃ q ∈ p.procedures,
      (q.name = name ∨ (ofProgram p).calls.star.contains name q.name) ∧
        ∃ s ∈ q.statements, effect.Direct s var := by
  simp only [NumberedProgram.Affects, reflTransGen_calls_iff]

/-- The procedures that have an effect, with the variables they have it on. -/
def procedureEffects (b : FactBase) : NumberedProgram.Effect → PairStore String String
  | .modifies => b.modifiesProc
  | .uses => b.usesProc

/-- The statements that have an effect, with the variables they have it on. -/
def statementEffects (b : FactBase) : NumberedProgram.Effect → PairStore StatementNumber String
  | .modifies => b.modifies
  | .uses => b.uses

theorem contains_procedureEffects (h : p.WellFormed) (effect : NumberedProgram.Effect)
    {name var : String} : ((ofProgram p).procedureEffects effect).contains name var ↔
      p.Affects effect name var := by
  refine Iff.trans ?_ (h.procedureFact_mem_facts effect)
  cases effect
  · exact knows_ofFacts_iff_mem (g := .modifiesProc name var) (by simp)
  · exact knows_ofFacts_iff_mem (g := .usesProc name var) (by simp)

theorem contains_statementEffects (h : p.WellFormed) (effect : NumberedProgram.Effect)
    {n : StatementNumber} {var : String} :
    ((ofProgram p).statementEffects effect).contains n var ↔
      ∃ s ∈ p.statements, p.number s.tag = n ∧ ∃ t ∈ s.preorder, effect.Direct t var ∨
        ∃ tag r, t = .simple tag (.call r) ∧
          ((ofProgram p).procedureEffects effect).contains r var := by
  have h_knows : ((ofProgram p).statementEffects effect).contains n var ↔
      effect.statementFact n var ∈ p.facts := by
    cases effect
    · exact knows_ofFacts_iff_mem (g := .modifies n var) (by simp)
    · exact knows_ofFacts_iff_mem (g := .uses n var) (by simp)
  rw [h_knows, h.statementFact_mem_facts]
  simp only [NumberedProgram.AnyAffects, Stmt.callee?_eq_some, contains_procedureEffects h]
  refine exists_congr fun s => and_congr_right fun _ => and_congr_right fun _ =>
    exists_congr fun t => and_congr_right fun _ => or_congr_right ⟨?_, ?_⟩
  · rintro ⟨r, ⟨tag, h_t⟩, h_r⟩
    exact ⟨tag, r, h_t, h_r⟩
  · rintro ⟨tag, r, h_t, h_r⟩
    exact ⟨r, ⟨tag, h_t⟩, h_r⟩

/-- Modifies and Uses in terms of the program text.  Calls joins the procedures between which
    there is a `call`; a procedure modifies or uses what a statement of it, or of a procedure in
    the closure of its calls, writes or mentions; a statement modifies or uses what it or a
    statement nested in it writes or mentions, and what procedures called there do. -/
theorem modifies_uses_iff_statements {source : String} {p : Program}
    (h : Program.read source = .ok p) :
    (∀ a c, (ofProgram p.numbered).calls.direct.contains a c ↔
      ∃ q ∈ p.numbered.procedures, q.name = a ∧ ∃ tag, .simple tag (.call c) ∈ q.statements) ∧
    (∀ a c, (ofProgram p.numbered).calls.star.contains a c ↔
      TransGen (fun x y => (ofProgram p.numbered).calls.direct.contains x y) a c) ∧
    (∀ a v, (ofProgram p.numbered).modifiesProc.contains a v ↔ ∃ q ∈ p.numbered.procedures,
      (q.name = a ∨ (ofProgram p.numbered).calls.star.contains a q.name) ∧
        ∃ s ∈ q.statements, s.Writes v) ∧
    (∀ a v, (ofProgram p.numbered).usesProc.contains a v ↔ ∃ q ∈ p.numbered.procedures,
      (q.name = a ∨ (ofProgram p.numbered).calls.star.contains a q.name) ∧
        ∃ s ∈ q.statements, s.Mentions v) ∧
    (∀ n v, (ofProgram p.numbered).modifies.contains n v ↔ ∃ s ∈ p.numbered.statements,
      p.numbered.number s.tag = n ∧ ∃ t ∈ s.preorder, t.Writes v ∨
        ∃ tag r, t = .simple tag (.call r) ∧ (ofProgram p.numbered).modifiesProc.contains r v) ∧
    (∀ n v, (ofProgram p.numbered).uses.contains n v ↔ ∃ s ∈ p.numbered.statements,
      p.numbered.number s.tag = n ∧ ∃ t ∈ s.preorder, t.Mentions v ∨
        ∃ tag r, t = .simple tag (.call r) ∧ (ofProgram p.numbered).usesProc.contains r v) := by
  have h_wf := Program.wellFormed_of_read h
  refine ⟨fun a c => ?_, fun a c => contains_callsStar, fun a v => ?_, fun a v => ?_,
    fun n v => ?_, fun n v => ?_⟩
  · rw [contains_calls]
    simp only [NumberedProgram.Calls, ProcedureTree.mem_callees]
  · exact (contains_procedureEffects h_wf .modifies).trans affects_iff_star
  · exact (contains_procedureEffects h_wf .uses).trans affects_iff_star
  · exact contains_statementEffects h_wf .modifies
  · exact contains_statementEffects h_wf .uses

/-- What a callee reads is modified by its caller, at the call and not at other statements. -/
theorem modifies_through_call :
    ∃ p, Program.read ("procedure main \x7b x = 1; call helper; print x; \x7d " ++
        "procedure helper \x7b while (y > 0) \x7b read z; y = y - z; \x7d \x7d") = .ok p ∧
      (ofProgram p.numbered).calls.star.contains "main" "helper" ∧
      (ofProgram p.numbered).modifiesProc.contains "main" "z" ∧
      (ofProgram p.numbered).modifies.contains 2 "z" ∧
      ¬ (ofProgram p.numbered).modifies.contains 3 "z" := by
  refine exists_ok_of_test (fun p =>
      (∃ q ∈ p.numbered.procedures, q.name = "main" ∧ "helper" ∈ q.callees) ∧
      (∃ q ∈ p.numbered.procedures, q.name = "helper" ∧ ∃ s ∈ q.statements, s.Writes "z") ∧
      (∃ s ∈ p.numbered.statements, p.numbered.number s.tag = 2 ∧ s.callee? = some "helper") ∧
      ∀ s ∈ p.numbered.statements, p.numbered.number s.tag = 3 →
        ∀ t ∈ s.preorder, ¬ t.Writes "z" ∧ t.callee? = none)
    (by decide +kernel) fun p h_read h_test => ?_
  obtain ⟨⟨q, hq, h_main, h_call⟩, ⟨r, hr, h_name, h_writes⟩, h_two, h_three⟩ :=
    of_decide_eq_true h_test
  obtain ⟨h_calls, h_star, h_modifiesProc, -, h_modifies, -⟩ := modifies_uses_iff_statements h_read
  have h_path : (ofProgram p.numbered).calls.star.contains "main" "helper" :=
    (h_star _ _).2 (.single ((h_calls _ _).2 ⟨q, hq, h_main, ProcedureTree.mem_callees.1 h_call⟩))
  have h_helper : (ofProgram p.numbered).modifiesProc.contains "helper" "z" :=
    (h_modifiesProc _ _).2 ⟨r, hr, .inl h_name, h_writes⟩
  refine ⟨h_path, (h_modifiesProc _ _).2 ⟨r, hr, .inr (h_name ▸ h_path), h_writes⟩,
    (h_modifies _ _).2 ?_, fun h => ?_⟩
  · obtain ⟨s, hs, h_number, h_s⟩ := h_two
    obtain ⟨tag, rfl⟩ := Stmt.callee?_eq_some.1 h_s
    exact ⟨_, hs, h_number, _, Stmt.mem_preorder_self _, .inr ⟨tag, _, rfl, h_helper⟩⟩
  · obtain ⟨s, hs, h_number, t, ht, h_t⟩ := (h_modifies _ _).1 h
    obtain ⟨h_own, h_none⟩ := h_three s hs h_number t ht
    rcases h_t with h_t | ⟨tag, r, rfl, -⟩
    · exact h_own h_t
    · cases h_none

end FactBase

end ProgramQuery
