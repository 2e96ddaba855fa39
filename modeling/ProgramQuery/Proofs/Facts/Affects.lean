/-
  ProgramQuery.Proofs.Facts.Affects

  What Affects means.

  An assignment influences another one if the value it gives to a variable gets there
  along Next without being overwritten on the way (`Influences`).  Finalizing finds
  exactly the pairs that the facts of that moment make influence each other, and it
  never takes a pair back: after several rounds Affects is the union over all of them.
  In the fact base of a program there is one round, and the paths are those of the
  program itself.
-/

import Mathlib.Data.List.Chain
import ProgramQuery.Proofs.Answer.Regular

namespace ProgramQuery

open Facts
open Relation (ReflTransGen)

/-- Facts that can close a path: registrations, which may change a type, and Modifies. -/
def Fact.closesPaths : Fact → Bool
  | .statement .. => true
  | .modifies .. => true
  | _ => false

namespace FactBase

variable {b b' : FactBase} {var : String} {a c : StatementNumber}

/-! ## Paths -/

/-- The statement is an assignment, a `read` or a `call`, and modifies the variable. -/
def Overwrites (b : FactBase) (var : String) (n : StatementNumber) : Prop :=
  (b.typeOf? n = some .assign ∨ b.typeOf? n = some .read ∨ b.typeOf? n = some .call) ∧
    b.modifies.contains n var

/-- A path of Next from one statement to another, over the statements `between`. -/
def NextPath (b : FactBase) (a : StatementNumber) (between : List StatementNumber)
    (c : StatementNumber) : Prop :=
  List.IsChain (fun x y => b.next.direct.contains x y) (a :: (between ++ [c]))

/-- A value of the variable gets from one statement to another: no statement in between
    overwrites it. -/
def Carries (b : FactBase) (var : String) (a c : StatementNumber) : Prop :=
  ∃ between, b.NextPath a between c ∧ ∀ n ∈ between, ¬ b.Overwrites var n

/-- The first statement assigns a variable whose value gets to the second one, which is an
    assignment and uses it. -/
def Influences (b : FactBase) (a c : StatementNumber) : Prop :=
  ∃ var, b.targets.contains a var ∧ b.Carries var a c ∧
    b.typeOf? c = some .assign ∧ b.uses.contains c var

theorem nextPath_nil : b.NextPath a [] c ↔ b.next.direct.contains a c := by
  simp [NextPath]

theorem nextPath_cons {n : StatementNumber} {between : List StatementNumber} :
    b.NextPath a (n :: between) c ↔ b.next.direct.contains a n ∧ b.NextPath n between c := by
  simp [NextPath]

theorem kills_iff {n : StatementNumber} : b.kills var n = true ↔ b.Overwrites var n := by
  unfold kills Overwrites
  rw [Bool.and_eq_true]
  refine and_congr_left fun _ => ?_
  split <;> simp_all

/-- A value moves on from statements that do not overwrite it. -/
theorem step_survivors {n m : StatementNumber} :
    Graph.Step (b.survivors var) n m ↔ ¬ b.Overwrites var n ∧ b.next.direct.contains n m := by
  unfold Graph.Step survivors
  rw [← kills_iff]
  split
  · simp_all
  · simp_all [PairStore.mem_successors]

/-- A value is carried by a step of Next and then from survivor to survivor. -/
theorem carries_iff : b.Carries var a c ↔
    ∃ n, b.next.direct.contains a n ∧ ReflTransGen (Graph.Step (b.survivors var)) n c := by
  constructor
  · rintro ⟨between, h_path, h_live⟩
    induction between generalizing a with
    | nil => exact ⟨c, nextPath_nil.1 h_path, .refl⟩
    | cons n rest ih =>
      obtain ⟨h_step, h_path⟩ := nextPath_cons.1 h_path
      obtain ⟨m, h_next, h_rest⟩ := ih h_path fun k hk => h_live k (List.mem_cons_of_mem _ hk)
      have h_n := h_live n (List.mem_cons_self ..)
      exact ⟨n, h_step, .head (step_survivors.2 ⟨h_n, h_next⟩) h_rest⟩
  · rintro ⟨n, h_step, h_rest⟩
    -- Each node of the walk is the first one after the statement before it.
    induction h_rest using ReflTransGen.head_induction_on generalizing a with
    | refl => exact ⟨[], nextPath_nil.2 h_step, by simp⟩
    | head h_first _ ih =>
      rename_i n m _
      obtain ⟨h_n, h_next⟩ := step_survivors.1 h_first
      obtain ⟨between, h_path, h_live⟩ := ih h_next
      exact ⟨n :: between, nextPath_cons.2 ⟨h_step, h_path⟩, List.forall_mem_cons.2 ⟨h_n, h_live⟩⟩

/-! ## One round -/

/-- A statement has no more survivors than there are pairs of Next with it in front. -/
theorem length_survivors_le {pairs : List (StatementNumber × StatementNumber)}
    (h_pairs : ∀ n m, (n, m) ∈ pairs ↔ b.next.direct.contains n m) (n : StatementNumber) :
    (b.survivors var n).length ≤ (pairs.filter (·.1 = n)).length := by
  have h_all : (b.next.direct.successors n).length ≤ (pairs.filter (·.1 = n)).length := by
    rw [← List.length_map (n, ·)]
    refine List.Subperm.length_le (List.subperm_of_subset ?_ fun e h_e => ?_)
    · exact (nodup_toList _).map fun _ _ h_eq => (Prod.mk.inj h_eq).2
    · obtain ⟨m, hm, rfl⟩ := List.mem_map.1 h_e
      simpa [h_pairs] using PairStore.mem_successors.1 hm
  unfold survivors
  split
  · exact Nat.zero_le _
  · exact h_all

/-- The search finds the statements that a value gets to. -/
theorem mem_reachedBy (h : b.next.direct.Coherent) : c ∈ b.reachedBy var a ↔ b.Carries var a c := by
  obtain ⟨pairs, -, h_length, h_pairs⟩ := h.counted
  have h_rounds : (b.next.direct.successors a).reverse.length +
      (pairs.filter (·.1 ∉ ([] : List StatementNumber))).length ≤
        (b.next.direct.successors a).length + b.next.direct.size := by
    simp [h_length]
  rw [reachedBy, Graph.mem_explore_iff (length_survivors_le h_pairs) h_rounds (.nil _),
    carries_iff]
  simp [PairStore.mem_successors]

theorem readsInAssignment_iff : b.readsInAssignment var c = true ↔
    b.typeOf? c = some .assign ∧ b.uses.contains c var := by
  simp [readsInAssignment]

/-- One round of finalizing finds the pairs that influence each other. -/
theorem mem_affectsPairs (h : b.next.direct.Coherent) :
    (a, c) ∈ b.affectsPairs ↔ b.Influences a c := by
  simp only [affectsPairs, List.mem_flatMap, List.mem_map, List.mem_filter, Prod.exists,
    PairStore.mem_pairs, mem_reachedBy h, readsInAssignment_iff, Prod.mk.injEq]
  constructor
  · rintro ⟨a, var, h_target, c, ⟨h_carries, h_reads⟩, rfl, rfl⟩
    exact ⟨var, h_target, h_carries, h_reads⟩
  · rintro ⟨var, h_target, h_carries, h_reads⟩
    exact ⟨a, var, h_target, c, ⟨h_carries, h_reads⟩, rfl, rfl⟩

/-! ## Many rounds -/

theorem writeAll_append (b : FactBase) (first second : List Write) :
    b.writeAll (first ++ second) = (b.writeAll first).writeAll second :=
  List.foldl_append

theorem affects_add (b : FactBase) (f : Fact) : (b.add f).affects = b.affects := by
  cases f <;> rfl

theorem contains_affects_finalize (h : b.next.direct.Coherent) :
    b.finalize.affects.contains a c ↔ b.Influences a c ∨ b.affects.contains a c := by
  simp only [finalize, PairStore.contains_addAll, mem_affectsPairs h]

/-- Affects has the pairs of all rounds so far, each from the facts of its moment. -/
theorem contains_affects_writeAll (ws : List Write) :
    (({} : FactBase).writeAll ws).affects.contains a c ↔
      ∃ before, before ++ [.finalize] <+: ws ∧
        (({} : FactBase).writeAll before).Influences a c := by
  induction ws using List.reverseRecOn with
  | nil => simp [writeAll]
  | append_singleton ws w ih =>
    simp only [writeAll_append, List.prefix_concat_iff, or_and_right, exists_or, ← ih]
    cases w with
    | add f =>
      have h_same : ((({} : FactBase).writeAll ws).writeAll [.add f]).affects =
          (({} : FactBase).writeAll ws).affects := affects_add _ f
      simp [h_same]
    | finalize =>
      have h_next := (coherent_empty.writeAll ws).next
      refine (contains_affects_finalize h_next).trans ?_
      simp

/-! ## Leaving rounds out -/

/-- Two bases agree on all that Affects is computed from. -/
structure SameFlow (b b' : FactBase) : Prop where
  targets : b.targets = b'.targets
  statements : b.statements = b'.statements
  next : b.next.direct = b'.next.direct
  modifies : b.modifies = b'.modifies
  uses : b.uses = b'.uses

theorem SameFlow.add (h : SameFlow b b') (f : Fact) : SameFlow (b.add f) (b'.add f) := by
  obtain ⟨h_targets, h_statements, h_next, h_modifies, h_uses⟩ := h
  cases f <;> constructor <;>
    simp only [FactBase.add, Transitive.addDirect, h_targets, h_statements, h_next, h_modifies,
        h_uses]

theorem SameFlow.finalize (h : SameFlow b b') : SameFlow b.finalize b' :=
  { h with }

theorem SameFlow.influences_iff (h : SameFlow b b') : b.Influences a c ↔ b'.Influences a c := by
  simp only [Influences, Carries, NextPath, Overwrites, typeOf?, h.targets, h.statements, h.next,
    h.modifies, h.uses]

/-- Finalizing in between leaves what Affects is computed from as it is. -/
theorem SameFlow.withoutFinalize (h : SameFlow b b') (ws : List Write) :
    SameFlow (b.writeAll ws) (b'.writeAll (ws.filter (· ≠ .finalize))) := by
  unfold FactBase.writeAll
  induction ws generalizing b b' with
  | nil => exact h
  | cons w rest ih =>
    cases w with
    | add f => simpa [write] using ih (h.add f)
    | finalize => simpa [write] using ih h.finalize

/-! ## Open and closed paths -/

/-- Other facts leave open the paths that there are. -/
theorem Influences.add {f : Fact} (h_f : f.closesPaths = false) (h : b.Influences a c) :
    (b.add f).Influences a c := by
  have h_type : ∀ n, (b.add f).typeOf? n = b.typeOf? n := by
    cases f <;> first | exact fun _ => rfl | cases h_f
  have h_modifies : (b.add f).modifies = b.modifies := by
    cases f <;> first | rfl | cases h_f
  have h_known : ∀ g, b.Knows g → (b.add f).Knows g := fun g hg => (knows_add b f g).2 (.inr hg)
  obtain ⟨var, h_target, ⟨between, h_path, h_live⟩, h_assign, h_uses⟩ := h
  refine ⟨var, h_known (.assignment a var []) h_target, ⟨between, ?_, ?_⟩, ?_,
    h_known (.uses c var) h_uses⟩
  · exact h_path.imp fun x y h_step => h_known (.next x y) h_step
  · simpa only [Overwrites, h_type, h_modifies] using h_live
  · rwa [h_type]

theorem Influences.writeAll {ws : List Write} (h_ws : ∀ f, .add f ∈ ws → f.closesPaths = false)
    (h : b.Influences a c) : (b.writeAll ws).Influences a c := by
  unfold FactBase.writeAll
  induction ws generalizing b with
  | nil => exact h
  | cons w rest ih =>
    have h_rest : ∀ f, .add f ∈ rest → f.closesPaths = false :=
      fun f hf => h_ws f (List.mem_cons_of_mem _ hf)
    cases w with
    | add f => exact ih h_rest (h.add (h_ws f (List.mem_cons_self ..)))
    | finalize => exact ih h_rest h

/-- A last round adds the pairs of the facts at the end to those of the earlier rounds. -/
theorem contains_affects_last_round (ws : List Write) :
    (({} : FactBase).writeAll (ws ++ [.finalize])).affects.contains a c ↔
      (({} : FactBase).writeAll ws).Influences a c ∨
        ∃ before, before ++ [.finalize] <+: ws ∧
          (({} : FactBase).writeAll before).Influences a c := by
  rw [contains_affects_writeAll]
  simp only [List.prefix_concat_iff, or_and_right, exists_or, List.append_cancel_right_eq,
    exists_eq_left]

/-- Affects after a last round of finalizing.  It has the pairs of all rounds, each found from
    the facts of its moment.  It has just the pairs that influence each other by the facts at
    the end exactly if these include all pairs of the earlier rounds, which is so if no fact
    after the first round closes a path.  Without the earlier rounds it always does. -/
theorem affects_union_of_rounds (ws : List Write) :
    (∀ a c, (({} : FactBase).writeAll (ws ++ [.finalize])).affects.contains a c ↔
      ∃ before, before ++ [.finalize] <+: ws ++ [.finalize] ∧
        (({} : FactBase).writeAll before).Influences a c) ∧
    ((∀ a c, (({} : FactBase).writeAll (ws ++ [.finalize])).affects.contains a c ↔
        (({} : FactBase).writeAll ws).Influences a c) ↔
      ∀ before, before ++ [.finalize] <+: ws → ∀ a c,
        (({} : FactBase).writeAll before).Influences a c →
          (({} : FactBase).writeAll ws).Influences a c) ∧
    ((∀ before after, ws = before ++ .finalize :: after →
        ∀ f, .add f ∈ after → f.closesPaths = false) →
      ∀ a c, (({} : FactBase).writeAll (ws ++ [.finalize])).affects.contains a c ↔
        (({} : FactBase).writeAll ws).Influences a c) ∧
    (∀ a c,
      (({} : FactBase).writeAll (ws.filter (· ≠ .finalize) ++ [.finalize])).affects.contains a c ↔
        (({} : FactBase).writeAll ws).Influences a c) := by
  have h_exact : (∀ a c, (({} : FactBase).writeAll (ws ++ [.finalize])).affects.contains a c ↔
        (({} : FactBase).writeAll ws).Influences a c) ↔
      ∀ before, before ++ [.finalize] <+: ws → ∀ a c,
        (({} : FactBase).writeAll before).Influences a c →
          (({} : FactBase).writeAll ws).Influences a c := by
    simp only [contains_affects_last_round, or_iff_left_iff_imp]
    constructor
    · exact fun h before h_before a c h_old => h a c ⟨before, h_before, h_old⟩
    · rintro h a c ⟨before, h_before, h_old⟩
      exact h before h_before a c h_old
  refine ⟨fun a c => contains_affects_writeAll _, h_exact, fun h_late => h_exact.2 ?_,
    fun a c => ?_⟩
  · rintro before ⟨after, rfl⟩ a c h_old
    rw [List.append_assoc, writeAll_append]
    refine h_old.writeAll fun f hf => ?_
    rcases List.mem_cons.1 hf with h | h
    · cases h
    · exact h_late before after (by simp) f h
  · have h_same : SameFlow (({} : FactBase).writeAll ws) _ :=
      SameFlow.withoutFinalize ⟨rfl, rfl, rfl, rfl, rfl⟩ ws
    rw [contains_affects_last_round, h_same.influences_iff, or_iff_left]
    rintro ⟨before, h_before, -⟩
    have h_mem := h_before.subset (List.mem_append_right before (List.mem_singleton_self _))
    simp at h_mem

/-- Statement 1 assigns a variable that statement 3 uses; after a first round, statement 2 in
    between turns out to modify it. -/
def overwrittenLater : List Write :=
  [.add (.statement 1 .assign), .add (.statement 2 .read), .add (.statement 3 .assign),
    .add (.assignment 1 "x" ["1"]), .add (.assignment 3 "y" ["x"]), .add (.uses 3 "x"),
    .add (.next 1 2), .add (.next 2 3), .finalize, .add (.modifies 2 "x")]

/-- A pair of an early round stays although its path is closed since, and would not be there
    without that round. -/
theorem affects_keeps_closed_pair :
    (({} : FactBase).writeAll (overwrittenLater ++ [.finalize])).affects.contains 1 3 ∧
      ¬ (({} : FactBase).writeAll overwrittenLater).Influences 1 3 ∧
      ¬ (({} : FactBase).writeAll
        (overwrittenLater.filter (· ≠ .finalize) ++ [.finalize])).affects.contains 1 3 := by
  rw [← mem_affectsPairs (coherent_empty.writeAll _).next]
  decide +kernel

end FactBase

/-! ## Programs -/

namespace FactBase

variable {p : NumberedProgram} {a c : StatementNumber} {var : String}

theorem affects_addAll (b : FactBase) (facts : List Fact) :
    (b.addAll facts).affects = b.affects := by
  unfold addAll
  induction facts generalizing b with
  | nil => rfl
  | cons f rest ih => rw [List.foldl_cons, ih, affects_add]

/-- A base of facts that is finalized once has the pairs of that one round. -/
theorem contains_affects_ofFacts {facts : List Fact} :
    (({} : FactBase).addAll facts).finalize.affects.contains a c ↔
      (({} : FactBase).addAll facts).finalize.Influences a c := by
  rw [contains_affects_finalize (coherent_empty.addAll facts).next, affects_addAll]
  exact or_iff_left (by simp)

theorem typeOf?_ofProgram (h : p.WellFormed) {n : StatementNumber} {t : StatementType} :
    (ofProgram p).typeOf? n = some t ↔ ∃ s ∈ p.statements, p.number s.tag = n ∧ s.type = t := by
  rw [typeOf?_eq_some_iff h, mem_ofType_iff h]
  simp only [eq_comm]

/-- An assignment uses the variables that its expression mentions. -/
theorem contains_uses_of_assigns (h : p.WellFormed) {target : String} {e : Expr}
    (h_c : p.Assigns c target e) : (ofProgram p).uses.contains c var ↔ e.Mentions var := by
  obtain ⟨tag, h_mem, rfl⟩ := NumberedProgram.assigns_iff.1 h_c
  refine (contains_statementEffects h .uses).trans ⟨?_, fun h_e => ?_⟩
  · rintro ⟨s, hs, h_number, t, ht, h_t⟩
    obtain rfl := h.eq_of_number hs h_mem h_number
    rw [Stmt.preorder, List.mem_singleton] at ht
    subst ht
    rcases h_t with h_t | ⟨_, _, h_call, -⟩
    · exact h_t
    · cases h_call
  · exact ⟨_, h_mem, rfl, _, Stmt.mem_preorder_self _, .inl h_e⟩

/-- Among the statements of a program, those that overwrite a variable. -/
theorem overwrites_ofProgram (h : p.WellFormed) {n : StatementNumber} :
    (ofProgram p).Overwrites var n ↔ ∃ s ∈ p.statements, p.number s.tag = n ∧
      (s.type = .assign ∨ s.type = .read ∨ s.type = .call) ∧
        (ofProgram p).modifies.contains n var := by
  -- A statement of one of three types, instead of one of three statements.
  simp only [Overwrites, typeOf?_ofProgram h, ← exists_or, ← and_or_left, ← and_assoc,
    exists_and_right]

theorem influences_ofProgram (h : p.WellFormed) : (ofProgram p).Influences a c ↔
    ∃ v e w e', p.Assigns a v e ∧ p.Assigns c w e' ∧ e'.Mentions v ∧
      (ofProgram p).Carries v a c := by
  have h_type : (ofProgram p).typeOf? c = some .assign ↔ ∃ w e', p.Assigns c w e' := by
    rw [typeOf?_eq_some_iff h, mem_ofType_assign_iff h]
    simp only [contains_targets_iff_assigns h]
  simp only [Influences, contains_targets_iff_assigns h, h_type]
  constructor
  · rintro ⟨v, ⟨e, h_a⟩, h_carries, ⟨w, e', h_c⟩, h_uses⟩
    exact ⟨v, e, w, e', h_a, h_c, (contains_uses_of_assigns h h_c).1 h_uses, h_carries⟩
  · rintro ⟨v, e, w, e', h_a, h_c, h_mentions, h_carries⟩
    exact ⟨v, ⟨e, h_a⟩, h_carries, ⟨w, e', h_c⟩, (contains_uses_of_assigns h h_c).2 h_mentions⟩

/-- Affects in terms of the program text: both statements are assignments, the expression of the
    second mentions the variable `v` of the first, and a path of one step of Next or more leads
    from the first to the second on which no assignment, `read` or `call` in between
    modifies `v`. -/
theorem affects_iff_open_path {source : String} {p : Program} (h : Program.read source = .ok p)
    (a c : StatementNumber) :
    (ofProgram p.numbered).affects.contains a c ↔
      ∃ v e w e', p.numbered.Assigns a v e ∧ p.numbered.Assigns c w e' ∧ e'.Mentions v ∧
        ∃ between, List.IsChain (fun x y => (ofProgram p.numbered).next.direct.contains x y)
            (a :: (between ++ [c])) ∧
          ∀ n ∈ between, ¬ ∃ s ∈ p.numbered.statements, p.numbered.number s.tag = n ∧
            (s.type = .assign ∨ s.type = .read ∨ s.type = .call) ∧
              (ofProgram p.numbered).modifies.contains n v := by
  have h_wf := Program.wellFormed_of_read h
  refine contains_affects_ofFacts.trans ((influences_ofProgram h_wf).trans ?_)
  simp only [Carries, NextPath, overwrites_ofProgram h_wf]

/-- Around a loop an assignment reaches itself; behind the call of a procedure that reads the
    variable its value is lost. -/
theorem affects_around_loop_not_past_call :
    ∃ p, Program.read ("procedure main \x7b x = 1; while (y > x) \x7b x = x + 1; print x; \x7d " ++
        "call helper; z = x; \x7d procedure helper \x7b read x; \x7d") = .ok p ∧
      (ofProgram p.numbered).affects.contains 3 3 ∧
      ¬ (ofProgram p.numbered).affects.contains 3 6 := by
  refine exists_ok_of_test (fun p =>
      p.numbered.Assigns 3 "x" (.binary .add (.var "x") (.const "1")) ∧
      (∃ q ∈ p.numbered.procedures, [(3, 4), (4, 2), (2, 3)] ⊆
        (Flow.linkList p.numbered.number [] q.body).edges) ∧
      (∀ s ∈ p.numbered.statements, p.numbered.number s.tag ∈ [4, 2] →
        s.type = .print ∨ s.type = .whileLoop) ∧
      (∀ q ∈ p.numbered.procedures, ∀ e ∈ (Flow.linkList p.numbered.number [] q.body).edges,
        e.2 = 6 → e.1 = 5) ∧
      (∃ s ∈ p.numbered.statements, p.numbered.number s.tag = 5 ∧ s.callee? = some "helper") ∧
      (∃ q ∈ p.numbered.procedures, q.name = "helper" ∧ ∃ s ∈ q.statements, s.Writes "x"))
    (by decide +kernel) fun p h_read h_test => ?_
  obtain ⟨h_three, ⟨q, hq, h_edges⟩, h_open, h_into, ⟨s, hs, h_five, h_call⟩, h_helper⟩ :=
    of_decide_eq_true h_test
  have h_wf := Program.wellFormed_of_read h_read
  have h_affects := affects_iff_open_path h_read
  have h_next : ∀ x y, (x, y) ∈ [(3, 4), (4, 2), (2, 3)] →
      (ofProgram p.numbered).next.direct.contains x y := by
    intro x y h_edge
    exact contains_next.2 ⟨q, hq, h_edges h_edge⟩
  refine ⟨(h_affects 3 3).2 ?_, fun h => ?_⟩
  · refine ⟨_, _, _, _, h_three, h_three, .inl rfl, [4, 2], ?_, ?_⟩
    · simp [h_next]
    · rintro n h_n ⟨s, hs, rfl, h_type, -⟩
      rcases h_open s hs h_n with h | h <;> simp [h] at h_type
  · obtain ⟨v, e, w, e', h_v, -, -, between, h_path, h_live⟩ := (h_affects 3 6).1 h
    obtain ⟨rfl, -⟩ := h_three.unique h_wf h_v
    -- Only the call leads to statement 6, so it is the last one before it.
    have h_last : ∃ n ∈ 3 :: between, (ofProgram p.numbered).next.direct.contains n 6 := by
      rw [← List.cons_append] at h_path
      obtain ⟨-, -, h_step⟩ := List.isChain_append.1 h_path
      exact ⟨_, List.getLast_mem (List.cons_ne_nil _ _),
        h_step _ (List.getLast?_eq_some_getLast (List.cons_ne_nil _ _)) 6 rfl⟩
    obtain ⟨n, h_n, h_six⟩ := h_last
    obtain ⟨r, hr, h_edge⟩ := contains_next.1 h_six
    obtain rfl : n = 5 := h_into r hr _ h_edge rfl
    have h_between : 5 ∈ between := by simpa using h_n
    obtain ⟨tag, rfl⟩ := Stmt.callee?_eq_some.1 h_call
    obtain ⟨r, hr, h_name, h_writes⟩ := h_helper
    have h_effect : p.numbered.Affects .modifies "helper" "x" :=
      ⟨r, hr, by rw [h_name], h_writes⟩
    have h_modifies : (ofProgram p.numbered).modifies.contains 5 "x" :=
      (contains_statementEffects h_wf .modifies).2 ⟨_, hs, h_five, _, Stmt.mem_preorder_self _,
        .inr ⟨tag, "helper", rfl, (contains_procedureEffects h_wf .modifies).2 h_effect⟩⟩
    exact h_live 5 h_between ⟨_, hs, h_five, .inr (.inr rfl), h_modifies⟩

end FactBase

end ProgramQuery
