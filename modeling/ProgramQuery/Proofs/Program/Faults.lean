/-
  ProgramQuery.Proofs.Program.Faults

  The verdict on procedures that could be read.

  The three checks look at the names of the procedures and at the list of all
  calls, in the order of the text.  Laying the procedures out changes neither, so
  each check is described on the procedures as they were read: which name is the
  first to be repeated, which call is the first that leads nowhere, and whether
  some procedure calls itself through others.
-/

import ProgramQuery.Proofs.Program.Read

namespace ProgramQuery

open Relation (TransGen)

/-! ## Calls in a text -/

/-- The names that a procedure calls, call by call. -/
def ProcedureText.callees (p : ProcedureText) : List String :=
  (Stmt.preorderList p.body).filterMap Stmt.callee?

namespace Stmt

variable {α : Type}

/-- Placing a tree keeps its calls and their order. -/
theorem callees_place :
    (∀ (s : Stmt α) base,
      (s.place base).preorder.filterMap callee? = s.preorder.filterMap callee?) ∧
    (∀ (ss : List (Stmt α)) base,
      (preorderList (placeList base ss)).filterMap callee? =
        (preorderList ss).filterMap callee?) := by
  refine induction ?_ ?_ ?_ ?_ ?_
  · intro tag action base
    cases action <;> simp [place, preorder, callee?, List.filterMap_cons]
  · intro tag cond body ih base
    simp [place, preorder, callee?, List.filterMap_cons, ih]
  · intro tag cond thenBranch elseBranch ih_then ih_else base
    simp [place, preorder, callee?, List.filterMap_cons, ih_then, ih_else]
  · intro base
    simp
  · intro s rest ih_s ih_rest base
    simp [ih_s, ih_rest]

end Stmt

namespace Program

/-- The names of some procedures, in the order of the text. -/
def names (ps : List ProcedureText) : List String :=
  ps.map ProcedureText.name

/-- All calls of some procedures, each with its caller, in the order of the text. -/
def calls (ps : List ProcedureText) : List (String × String) :=
  ps.flatMap fun p => p.callees.map fun callee => (p.name, callee)

/-- A procedure of the one name calls the other. -/
def CallsIn (ps : List ProcedureText) (caller callee : String) : Prop :=
  (caller, callee) ∈ calls ps

/-- The name is the first that occurs a second time. -/
def FirstRepeated (names : List String) (name : String) : Prop :=
  ∃ before after, names = before ++ name :: after ∧ before.Nodup ∧ name ∈ before

/-- The call is the first whose callee is not declared. -/
def FirstUndeclared (ps : List ProcedureText) (call : String × String) : Prop :=
  ∃ before after, calls ps = before ++ call :: after ∧
    (∀ c ∈ before, c.2 ∈ names ps) ∧ call.2 ∉ names ps

/-! ## Laid out procedures -/

/-- Placed procedures have the names and the calls of the text. -/
theorem map_callees_placedFrom (base : Nat) (ps : List ProcedureText) :
    (placedFrom base ps).map (fun q => (q.name, q.callees)) =
      ps.map fun p => (p.name, p.callees) := by
  induction ps generalizing base with
  | nil => rfl
  | cons p rest ih =>
    have h_first : ProcedureTree.callees ⟨p.name, Stmt.placeList base p.body⟩ = p.callees :=
      Stmt.callees_place.2 p.body base
    simp only [placedFrom, List.map_cons, ih, h_first]

variable {ps : List ProcedureText}

theorem map_name_ofTexts :
    (ofTexts ps).procedureTrees.map ProcedureTree.name = names ps := by
  have h_names := congrArg (List.map Prod.fst) (map_callees_placedFrom 0 ps)
  rw [List.map_map, List.map_map] at h_names
  rw [procedureTrees_ofTexts]
  exact h_names

theorem callGraph_ofTexts :
    callGraph (ofTexts ps).procedureTrees = .ofAdjacency (ps.map fun p => (p.name, p.callees)) := by
  rw [callGraph, procedureTrees_ofTexts, map_callees_placedFrom]

/-- The edges of the call graph are the calls of the text. -/
theorem edge_callGraph_ofTexts :
    (callGraph (ofTexts ps).procedureTrees).Edge = CallsIn ps := by
  funext caller callee
  rw [callGraph_ofTexts, Graph.OrderedGraph.edge_ofAdjacency, CallsIn, calls]
  simp [and_comm, eq_comm]

/-- The check of the callees goes through all calls of the text. -/
theorem firstUndefined?_ofTexts (declared : List String) :
    firstUndefined? declared (ofTexts ps).procedureTrees = (calls ps).find? (·.2 ∉ declared) := by
  have h_pairs : ∀ qs : List ProcedureTree, firstUndefined? declared qs =
      (qs.map fun q => (q.name, q.callees)).findSome?
        fun l => (l.2.find? (· ∉ declared)).map fun callee => (l.1, callee) := by
    intro qs
    rw [firstUndefined?, List.findSome?_map]
    rfl
  rw [h_pairs, procedureTrees_ofTexts, map_callees_placedFrom, List.findSome?_map, calls,
    List.find?_flatMap]
  congr 1
  funext p
  rw [List.find?_map]
  rfl

/-! ## The checks one by one -/

/-- A name is found if it repeats one before it, or one of those seen earlier. -/
theorem firstRepeated?_eq_some {seen names : List String} {name : String}
    (h : firstRepeated? seen names = some name) :
    ∃ before after, names = before ++ name :: after ∧ before.Nodup ∧ (∀ x ∈ before, x ∉ seen) ∧
      (name ∈ before ∨ name ∈ seen) := by
  induction names generalizing seen with
  | nil => cases h
  | cons first rest ih =>
    rw [firstRepeated?] at h
    split at h
    · rename_i h_seen
      obtain rfl := Option.some.inj h
      exact ⟨[], rest, rfl, List.nodup_nil, by simp, .inr h_seen⟩
    · rename_i h_new
      obtain ⟨before, after, rfl, h_nodup, h_apart, h_name⟩ := ih h
      have h_first : first ∉ before := fun h_in => h_apart first h_in (List.mem_cons_self ..)
      refine ⟨first :: before, after, rfl, List.nodup_cons.2 ⟨h_first, h_nodup⟩, ?_, ?_⟩
      · intro x hx
        rcases List.mem_cons.1 hx with rfl | hx
        · exact h_new
        · exact fun h_seen => h_apart x hx (List.mem_cons_of_mem _ h_seen)
      · rcases h_name with h_name | h_name
        · exact .inl (List.mem_cons_of_mem _ h_name)
        · rcases List.mem_cons.1 h_name with rfl | h_name
          · exact .inl (List.mem_cons_self ..)
          · exact .inr h_name

theorem FirstRepeated.not_nodup {names : List String} {name : String}
    (h : FirstRepeated names name) : ¬ names.Nodup := by
  obtain ⟨before, after, rfl, -, h_name⟩ := h
  intro h_nodup
  exact (List.nodup_append.1 h_nodup).2.2 name h_name name (List.mem_cons_self ..) rfl

/-- Names that are not distinct have a first repeated one, and it is found. -/
theorem firstRepeated?_of_not_nodup {names : List String} (h : ¬ names.Nodup) :
    ∃ name, FirstRepeated names name ∧ firstRepeated? [] names = some name := by
  cases h_found : firstRepeated? [] names with
  | none => exact absurd (nodup_of_firstRepeated? h_found).1 h
  | some name =>
    obtain ⟨before, after, h_names, h_nodup, -, h_name⟩ := firstRepeated?_eq_some h_found
    exact ⟨name, ⟨before, after, h_names, h_nodup, by simpa using h_name⟩, rfl⟩

/-- Distinct names pass the check. -/
theorem firstRepeated?_of_nodup {names : List String} (h : names.Nodup) :
    firstRepeated? [] names = none := by
  cases h_found : firstRepeated? [] names with
  | none => rfl
  | some name =>
    obtain ⟨before, after, h_names, h_nodup, -, h_name⟩ := firstRepeated?_eq_some h_found
    exact absurd h
      (FirstRepeated.not_nodup ⟨before, after, h_names, h_nodup, by simpa using h_name⟩)

/-- A call that leads nowhere has a first of its kind, and it is found. -/
theorem find?_calls_of_undeclared (h : ∃ c ∈ calls ps, c.2 ∉ names ps) :
    ∃ call, FirstUndeclared ps call ∧
      (calls ps).find? (·.2 ∉ names ps) = some call := by
  cases h_found : (calls ps).find? (·.2 ∉ names ps) with
  | none =>
    obtain ⟨c, hc, h_c⟩ := h
    exact absurd h_c (by simpa using List.find?_eq_none.1 h_found c hc)
  | some call =>
    obtain ⟨h_call, before, after, h_calls, h_before⟩ := List.find?_eq_some_iff_append.1 h_found
    refine ⟨call, ⟨before, after, h_calls, fun c hc => ?_, by simpa using h_call⟩, rfl⟩
    simpa using h_before c hc

theorem find?_calls_of_declared (h : ∀ c ∈ calls ps, c.2 ∈ names ps) :
    (calls ps).find? (·.2 ∉ names ps) = none := by
  rw [List.find?_eq_none]
  intro c hc
  simpa using h c hc

/-- A caller is one of the procedures. -/
theorem mem_names_of_call {caller callee : String} (h : CallsIn ps caller callee) :
    caller ∈ names ps := by
  obtain ⟨p, hp, h_call⟩ := List.mem_flatMap.1 h
  obtain ⟨c, -, h_eq⟩ := List.mem_map.1 h_call
  obtain ⟨rfl, -⟩ := Prod.mk.inj h_eq
  exact List.mem_map_of_mem hp

/-! ## The verdict -/

/-- Procedures that could be read make up a program unless a name is repeated, a callee is not
    declared or a procedure calls itself through others, and the fault names the culprit: the
    first repeated name, the first call that leads nowhere, or a procedure on a cycle. -/
theorem read_names_culprit {text : String} (h : readProcedures text = .ok ps) :
    parse text = .ok (ofTexts ps) ∧
    (¬ (names ps).Nodup →
      ∃ name, FirstRepeated (names ps) name ∧
        read text = .error (.duplicateProcedure name)) ∧
    ((names ps).Nodup → (∃ c ∈ calls ps, c.2 ∉ names ps) →
      ∃ caller callee, FirstUndeclared ps (caller, callee) ∧
        read text = .error (.undefinedProcedure caller callee)) ∧
    ((names ps).Nodup → (∀ c ∈ calls ps, c.2 ∈ names ps) →
      (∃ name, TransGen (CallsIn ps) name name) →
      ∃ name ∈ names ps, TransGen (CallsIn ps) name name ∧
        read text = .error (.recursiveCall name)) ∧
    ((names ps).Nodup → (∀ c ∈ calls ps, c.2 ∈ names ps) →
      (∀ name, ¬ TransGen (CallsIn ps) name name) →
      read text = .ok (ofTexts ps)) := by
  have h_ends := endsAreNodes_callGraph (ofTexts ps).procedureTrees
  refine ⟨?_, fun h_repeated => ?_, fun h_names h_undeclared => ?_,
    fun h_names h_declared h_cycle => ?_, fun h_names h_declared h_acyclic => ?_⟩
  · rw [parse_eq, h]
    rfl
  · obtain ⟨name, h_first, h_found⟩ := firstRepeated?_of_not_nodup h_repeated
    refine ⟨name, h_first, ?_⟩
    simp only [read_of_texts h, fault?, map_name_ofTexts, h_found]
  · obtain ⟨⟨caller, callee⟩, h_first, h_found⟩ := find?_calls_of_undeclared h_undeclared
    refine ⟨caller, callee, h_first, ?_⟩
    simp only [read_of_texts h, fault?, map_name_ofTexts, firstRepeated?_of_nodup h_names,
      firstUndefined?_ofTexts, h_found]
  · -- With a cycle there is no order, and the node that is named lies on one.
    rw [← edge_callGraph_ofTexts] at h_cycle ⊢
    obtain ⟨name, h_error⟩ := (Graph.OrderedGraph.exists_error_iff h_ends).2 h_cycle
    have h_own := Graph.OrderedGraph.transGen_of_error h_ends h_error
    obtain ⟨callee, h_call, -⟩ := TransGen.head'_iff.1 h_own
    rw [edge_callGraph_ofTexts] at h_call
    refine ⟨name, mem_names_of_call h_call, h_own, ?_⟩
    simp only [read_of_texts h, fault?, map_name_ofTexts, firstRepeated?_of_nodup h_names,
      firstUndefined?_ofTexts, find?_calls_of_declared h_declared, h_error]
  · rw [← edge_callGraph_ofTexts] at h_acyclic
    obtain ⟨order, h_order⟩ := Graph.OrderedGraph.exists_order_of_acyclic h_ends h_acyclic
    simp only [read_of_texts h, fault?, map_name_ofTexts, firstRepeated?_of_nodup h_names,
      firstUndefined?_ofTexts, find?_calls_of_declared h_declared, h_order]

/-- A procedure that only leads to a cycle is not named. -/
theorem culprit_lies_on_cycle :
    ∃ ps, readProcedures ("procedure a \x7b call b; \x7d procedure b \x7b call c; \x7d " ++
        "procedure c \x7b call b; \x7d") = .ok ps ∧
      ("a", "b") ∈ calls ps ∧ ∃ name, name ≠ "a" ∧
        read ("procedure a \x7b call b; \x7d procedure b \x7b call c; \x7d " ++
          "procedure c \x7b call b; \x7d") = .error (.recursiveCall name) := by
  refine exists_ok_of_test (fun ps => decide (names ps = ["a", "b", "c"] ∧
    calls ps = [("a", "b"), ("b", "c"), ("c", "b")])) (by decide +kernel) fun ps h_ps h_test => ?_
  obtain ⟨h_names, h_calls⟩ := of_decide_eq_true h_test
  obtain ⟨-, -, -, h_recursive, -⟩ := read_names_culprit h_ps
  rw [h_names, h_calls] at h_recursive
  have h_calls_in : ∀ a b, CallsIn ps a b ↔ (a, b) ∈ [("a", "b"), ("b", "c"), ("c", "b")] := by
    intro a b
    rw [CallsIn, h_calls]
  have h_cycle : TransGen (CallsIn ps) "b" "b" :=
    .tail (.single ((h_calls_in "b" "c").2 (by decide))) ((h_calls_in "c" "b").2 (by decide))
  obtain ⟨name, -, h_own, h_read⟩ := h_recursive (by decide) (by decide) ⟨"b", h_cycle⟩
  refine ⟨by simp [h_calls], name, ?_, h_read⟩
  -- Nobody calls the first procedure, so it is not on a cycle.
  rintro rfl
  obtain ⟨caller, -, h_call⟩ := TransGen.tail'_iff.1 h_own
  simp [h_calls_in] at h_call

end Program

end ProgramQuery
