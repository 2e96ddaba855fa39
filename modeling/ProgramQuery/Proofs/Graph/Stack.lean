/-
  ProgramQuery.Proofs.Graph.Stack

  Topological order by a loop with a stack.

  The loop looks at the node on top of its stack.  A node that it meets for the
  first time is discovered and stays where it is, below those of its successors
  that are not discovered yet; a node that it meets again is taken off and
  finished.  So a node may lie on the stack several times.  All its places are
  below the one at which it was discovered, and when the loop comes to them it is
  finished already.  That is why the loop finishes nodes in the order of the
  recursion (`run_visit`), and the order that it gives is the same
  (`sortsTo_topologicalOrder`).
-/

import ProgramQuery.Proofs.Graph.Order

namespace ProgramQuery.Graph

variable {α : Type} [DecidableEq α]

/-! ## The loop -/

/-- A search with the nodes that it still has to look at, the latest first. -/
structure StackSearch (α : Type) extends Search α where
  stack : List α

/-- Looks at the node on top of the stack until there is none, in fewer than `rounds` rounds.  A
    new node that is its own successor stops the loop. -/
def StackSearch.run (successors : α → List α) : Nat → StackSearch α → Option (Except α (Search α))
  | 0, _ => none
  | rounds + 1, s =>
    match s.stack with
    | [] => some (.ok s.toSearch)
    | n :: below =>
      if n ∈ s.discovered then
        run successors rounds { s with
          stack := below
          finished := if n ∈ s.finished then s.finished else n :: s.finished }
      else if n ∈ successors n then
        some (.error n)
      else
        run successors rounds { s with
          stack := ((successors n).filter (· ∉ n :: s.discovered)).reverse ++ n :: below
          discovered := n :: s.discovered }

/-- Runs the loop from each of some nodes that is not discovered when its turn comes. -/
def StackSearch.runAll (successors : α → List α) (rounds : Nat) :
    List α → Search α → Option (Except α (Search α))
  | [], search => some (.ok search)
  | n :: rest, search =>
    if n ∈ search.discovered then
      runAll successors rounds rest search
    else
      match run successors rounds ⟨search, [n]⟩ with
      | some (.ok found) => runAll successors rounds rest found
      | stopped => stopped

/-- Goes back from a node through its predecessors that have not been seen.  Only the `first` node
    may be new; the next one is the fault. -/
def traceBack (predecessors : α → List α) :
    Nat → Bool → List α → List α → Option (Except α (List α))
  | 0, _, _, _ => none
  | _ + 1, _, [], seen => some (.ok seen)
  | rounds + 1, first, n :: below, seen =>
    if n ∈ seen then
      traceBack predecessors rounds first below seen
    else if first then
      traceBack predecessors rounds false
        (((predecessors n).filter (· ∉ n :: seen)).reverse ++ below) (n :: seen)
    else
      some (.error n)

/-- Goes back from the nodes of an order, one after the other. -/
def traceAll (predecessors : α → List α) (rounds : Nat) :
    List α → List α → Option (Except α (List α))
  | [], seen => some (.ok seen)
  | n :: rest, seen =>
    match traceBack predecessors rounds true [n] seen with
    | some (.ok seen) => traceAll predecessors rounds rest seen
    | stopped => stopped

/-- The order in which the loop leaves the nodes of a graph, the last one first, if nothing speaks
    against it; otherwise a node on a cycle. -/
def OrderedGraph.sortByStack (g : OrderedGraph α) (rounds : Nat) : Option (Except α (List α)) := do
  match ← StackSearch.runAll g.successors rounds g.nodes {} with
  | .error n => some (.error n)
  | .ok search =>
    match ← traceAll g.predecessors rounds search.finished [] with
    | .error n => some (.error n)
    | .ok _ => some (.ok search.finished)

/-! ## Visits -/

namespace Search

variable {successors : α → List α}

/-- A visit discovers further nodes and forgets none. -/
theorem exists_discovered_visit (successors : α → List α) (fuel : Nat) (search : Search α)
    (n : α) : ∃ new, (visit successors fuel search n).discovered = new ++ search.discovered := by
  induction fuel generalizing search n with
  | zero => exact ⟨[], rfl⟩
  | succ fuel ih =>
    have h_fold : ∀ (ns : List α) (s : Search α),
        ∃ new, (ns.foldl (visit successors fuel) s).discovered = new ++ s.discovered := by
      intro ns
      induction ns with
      | nil => exact fun s => ⟨[], rfl⟩
      | cons m rest ih_rest =>
        intro s
        obtain ⟨first, h_first⟩ := ih s m
        obtain ⟨second, h_second⟩ := ih_rest (visit successors fuel s m)
        exact ⟨second ++ first, by rw [List.foldl_cons, h_second, h_first, List.append_assoc]⟩
    rw [visit]
    split
    · exact ⟨[], rfl⟩
    · obtain ⟨new, h_new⟩ :=
        h_fold (successors n) { search with discovered := n :: search.discovered }
      exact ⟨new ++ [n], by simpa using h_new⟩

theorem mem_discovered_visit {fuel : Nat} {search : Search α} {m : α} (h : m ∈ search.discovered)
    (n : α) : m ∈ (visit successors fuel search n).discovered := by
  obtain ⟨new, h_new⟩ := exists_discovered_visit successors fuel search n
  rw [h_new]
  exact List.mem_append_right _ h

theorem visit_of_discovered {search : Search α} {n : α} (h : n ∈ search.discovered) (fuel : Nat) :
    visit successors fuel search n = search := by
  cases fuel with
  | zero => rfl
  | succ fuel => rw [visit, if_pos h]

/-- Nodes that are known from the beginning can be left out. -/
theorem foldl_visit_filter (fuel : Nat) (known ns : List α) (search : Search α)
    (h_known : ∀ n ∈ known, n ∈ search.discovered) :
    (ns.filter (· ∉ known)).foldl (visit successors fuel) search =
      ns.foldl (visit successors fuel) search := by
  induction ns generalizing search with
  | nil => rfl
  | cons n rest ih =>
    by_cases h_n : n ∈ known
    · rw [List.filter_cons_of_neg (by simpa using h_n), List.foldl_cons,
        visit_of_discovered (h_known n h_n), ih search h_known]
    · rw [List.filter_cons_of_pos (by simpa using h_n), List.foldl_cons, List.foldl_cons]
      exact ih _ fun m hm => mem_discovered_visit (h_known m hm) n

end Search

/-! ## Loops of one edge -/

/-- The first node among those discovered that is its own successor. -/
def Search.selfLoop? (successors : α → List α) (search : Search α) : Option α :=
  search.discovered.reverse.find? (fun n => n ∈ successors n)

section

variable {successors : α → List α} {before after : Search α} {n : α}

/-- Later discoveries do not change which one comes first. -/
theorem selfLoop?_of_discovered {new : List α}
    (h_new : after.discovered = new ++ before.discovered)
    (h : before.selfLoop? successors = some n) : after.selfLoop? successors = some n := by
  rw [Search.selfLoop?] at h ⊢
  rw [h_new, List.reverse_append, List.find?_append, h, Option.some_or]

theorem selfLoop?_foldl_visit {next : α → List α} {fuel : Nat}
    (h : before.selfLoop? successors = some n) (ns : List α) :
    (ns.foldl (Search.visit next fuel) before).selfLoop? successors = some n := by
  induction ns generalizing before with
  | nil => exact h
  | cons m rest ih =>
    obtain ⟨new, h_new⟩ := Search.exists_discovered_visit next fuel before m
    exact ih (selfLoop?_of_discovered h_new h)

theorem selfLoop?_cons (h : before.selfLoop? successors = none) :
    { before with discovered := n :: before.discovered }.selfLoop? successors =
      if n ∈ successors n then some n else none := by
  rw [Search.selfLoop?] at h ⊢
  rw [List.reverse_cons, List.find?_append, h, Option.none_or, List.find?_singleton]
  simp only [decide_eq_true_eq]

end

/-! ## The loop follows the recursion -/

namespace StackSearch

variable {successors : α → List α} {nodes : List α}

/-- Goes on with the stack `below` after a visit, unless the visit has found a loop. -/
def resume (successors : α → List α) (rounds : Nat) (after : Search α) (below : List α) :
    Option (Except α (Search α)) :=
  match after.selfLoop? successors with
  | some n => some (.error n)
  | none => run successors rounds ⟨after, below⟩

theorem resume_of_selfLoop {after : Search α} {n : α} (h : after.selfLoop? successors = some n)
    (rounds : Nat) (below : List α) : resume successors rounds after below = some (.error n) := by
  rw [resume, h]

theorem resume_of_loopless {after : Search α} (h : after.selfLoop? successors = none)
    (rounds : Nat) (below : List α) :
    resume successors rounds after below = run successors rounds ⟨after, below⟩ := by
  rw [resume, h]

/-- A node that is finished is taken off the stack and nothing else happens. -/
theorem run_finished {search : Search α} {n : α} (h_known : n ∈ search.discovered)
    (h_done : n ∈ search.finished) (rounds : Nat) (below : List α) :
    run successors (rounds + 1) ⟨search, n :: below⟩ = run successors rounds ⟨search, below⟩ := by
  simp [run, h_known, h_done]

/-- A node that is met again is taken off the stack and finished. -/
theorem run_discovered {search : Search α} {n : α} (h_known : n ∈ search.discovered)
    (h_open : n ∉ search.finished) (rounds : Nat) (below : List α) :
    run successors (rounds + 1) ⟨search, n :: below⟩ =
      run successors rounds ⟨{ search with finished := n :: search.finished }, below⟩ := by
  simp [run, h_known, h_open]

theorem run_selfLoop {search : Search α} {n : α} (h_new : n ∉ search.discovered)
    (h_loop : n ∈ successors n) (rounds : Nat) (below : List α) :
    run successors (rounds + 1) ⟨search, n :: below⟩ = some (.error n) := by
  simp [run, h_new, h_loop]

/-- A new node stays on the stack below its successors. -/
theorem run_new {search : Search α} {n : α} (h_new : n ∉ search.discovered)
    (h_loop : n ∉ successors n) (rounds : Nat) (below : List α) :
    run successors (rounds + 1) ⟨search, n :: below⟩ =
      run successors rounds ⟨{ search with discovered := n :: search.discovered },
        (successors n).reverse.filter (· ∉ n :: search.discovered) ++ n :: below⟩ := by
  simp [run, h_new, h_loop]

/-- What the loop relies on when it comes to some nodes of its stack: a node is discovered before
    it is finished, the nodes on the stack are finished if they are known, and no loop of one
    edge has been found. -/
structure Ready (successors : α → List α) (search : Search α) (ns : List α) : Prop where
  discovered : ∀ m ∈ search.finished, m ∈ search.discovered
  finished : ∀ m ∈ ns, m ∈ search.discovered → m ∈ search.finished
  loopless : search.selfLoop? successors = none

theorem Ready.mono {search : Search α} {ms ns : List α} (h : Ready successors search ns)
    (h_sub : ms ⊆ ns) : Ready successors search ms :=
  ⟨h.discovered, fun m hm => h.finished m (h_sub hm), h.loopless⟩

/-- A visit leaves the loop ready for the other nodes, unless it finds a loop of one edge. -/
theorem Ready.visited {next : α → List α} {before after : Search α} {n : α} {ns added : List α}
    (h : Ready successors before (n :: ns)) (h_visit : Visited next [n] before after added)
    (h_loop : after.selfLoop? successors = none) : Ready successors after ns where
  discovered m hm := by
    rw [h_visit.finished, List.mem_append] at hm
    exact (h_visit.discovered m).2 (hm.imp_right (h.discovered m))
  finished m hm h_known := by
    rw [h_visit.finished, List.mem_append]
    exact ((h_visit.discovered m).1 h_known).imp_right (h.finished m (List.mem_cons_of_mem _ hm))
  loopless := h_loop

/-- The loop comes to a node with all that is on the stack above it worked off. -/
def Follows (successors : α → List α) (nodes : List α) (fuel : Nat) : Prop :=
  ∀ (search : Search α) (n : α), n ∈ nodes → (undiscovered nodes search).length ≤ fuel →
    Ready successors search [n] → ∃ used, ∀ rounds below,
      run successors (rounds + used) ⟨search, n :: below⟩ = resume successors rounds
        (Search.visit (fun n => (successors n).reverse) fuel search n) below

/-- If the loop follows single visits, then it follows visits one after the other. -/
theorem Follows.foldl {fuel : Nat} (h : Follows successors nodes fuel)
    (h_closed : Closed (fun n => (successors n).reverse) nodes) (ns : List α)
    (h_ns : ∀ n ∈ ns, n ∈ nodes) (search : Search α)
    (h_fuel : (undiscovered nodes search).length ≤ fuel) (h_ready : Ready successors search ns) :
    ∃ used, ∀ rounds below, run successors (rounds + used) ⟨search, ns ++ below⟩ =
      resume successors rounds
        (ns.foldl (Search.visit (fun n => (successors n).reverse) fuel) search) below := by
  induction ns generalizing search with
  | nil => exact ⟨0, fun rounds below => (resume_of_loopless h_ready.loopless rounds below).symm⟩
  | cons n rest ih =>
    have h_n := h_ns n (List.mem_cons_self ..)
    have h_first : Ready successors search [n] :=
      h_ready.mono (List.cons_subset_cons n (List.nil_subset rest))
    obtain ⟨used, h_used⟩ := h search n h_n h_fuel h_first
    obtain ⟨added, h_visit⟩ := visit_visited h_closed fuel search n h_n h_fuel
    rw [List.foldl_cons]
    cases h_loop : (Search.visit (fun n => (successors n).reverse) fuel search n).selfLoop?
        successors with
    | some m =>
      -- The loop stops during the first visit, and the later ones do not change the reason.
      refine ⟨used, fun rounds below => ?_⟩
      rw [List.cons_append, h_used, resume_of_selfLoop h_loop,
        resume_of_selfLoop (selfLoop?_foldl_visit h_loop rest)]
    | none =>
      have h_less := Nat.le_trans (undiscovered_length_le fun _ => h_visit.mono) h_fuel
      obtain ⟨more, h_more⟩ := ih (fun m hm => h_ns m (List.mem_cons_of_mem _ hm)) _ h_less
        (h_ready.visited h_visit h_loop)
      refine ⟨more + used, fun rounds below => ?_⟩
      rw [← Nat.add_assoc, List.cons_append, h_used, resume_of_loopless h_loop, h_more]

/-- The loop takes a node off its stack with all that follows it, as the recursion visits it. -/
theorem run_visit (h_closed : Closed (fun n => (successors n).reverse) nodes) (fuel : Nat) :
    Follows successors nodes fuel := by
  induction fuel with
  | zero =>
    intro search n h_n h_fuel h_ready
    -- Nothing is left to discover, so the node is known and finished.
    have h_known : n ∈ search.discovered := by
      by_contra h_new
      have h_left : n ∈ undiscovered nodes search := by simp [undiscovered, h_n, h_new]
      have h_pos := List.length_pos_of_mem h_left
      omega
    have h_done := h_ready.finished n (List.mem_singleton_self n) h_known
    refine ⟨1, fun rounds below => ?_⟩
    rw [run_finished h_known h_done, Search.visit, resume_of_loopless h_ready.loopless]
  | succ fuel ih =>
    intro search n h_n h_fuel h_ready
    by_cases h_known : n ∈ search.discovered
    · have h_done := h_ready.finished n (List.mem_singleton_self n) h_known
      refine ⟨1, fun rounds below => ?_⟩
      rw [run_finished h_known h_done, Search.visit_of_discovered h_known,
        resume_of_loopless h_ready.loopless]
    have h_cons := selfLoop?_cons (n := n) h_ready.loopless
    by_cases h_loop : n ∈ successors n
    · -- The loop stops here; the recursion goes on, but this node remains the first of its kind.
      rw [if_pos h_loop] at h_cons
      have h_visit : (Search.visit (fun n => (successors n).reverse) (fuel + 1) search n).selfLoop?
          successors = some n := by
        rw [Search.visit, if_neg h_known]
        exact selfLoop?_foldl_visit h_cons _
      refine ⟨1, fun rounds below => ?_⟩
      rw [run_selfLoop h_known h_loop, resume_of_selfLoop h_visit]
    · rw [if_neg h_loop] at h_cons
      let entered : Search α := { search with discovered := n :: search.discovered }
      have h_less : (undiscovered nodes entered).length < (undiscovered nodes search).length :=
        undiscovered_length_lt h_n h_known
      have h_fuel' : (undiscovered nodes entered).length ≤ fuel := by omega
      -- Only nodes that are not discovered are put on the stack.
      have h_entered : Ready successors entered
          ((successors n).reverse.filter (· ∉ n :: search.discovered)) := by
        refine ⟨fun m hm => List.mem_cons_of_mem _ (h_ready.discovered m hm), ?_, h_cons⟩
        intro m hm h_m
        exact absurd h_m (of_decide_eq_true (List.mem_filter.1 hm).2)
      obtain ⟨used, h_used⟩ := ih.foldl h_closed _
        (fun m hm => h_closed n h_n m (List.mem_filter.1 hm).1) entered h_fuel' h_entered
      obtain ⟨added, h_visit⟩ := foldl_visit (visit_visited h_closed fuel) (successors n).reverse
        (h_closed n h_n) entered h_fuel'
      rw [Search.foldl_visit_filter fuel (n :: search.discovered) _ entered fun _ => id] at h_used
      -- All that was found in between is finished, but the node itself is not.
      have h_inner : n ∈ ((successors n).reverse.foldl
          (Search.visit (fun n => (successors n).reverse) fuel) entered).discovered :=
        h_visit.mono (List.mem_cons_self ..)
      have h_open : n ∉ ((successors n).reverse.foldl
          (Search.visit (fun n => (successors n).reverse) fuel) entered).finished := by
        rw [h_visit.finished, List.mem_append, not_or]
        exact ⟨fun h_added => h_visit.fresh n h_added (List.mem_cons_self ..),
          fun h_finished => h_known (h_ready.discovered n h_finished)⟩
      refine ⟨1 + used + 1, fun rounds below => ?_⟩
      rw [← Nat.add_assoc, ← Nat.add_assoc, run_new h_known h_loop, h_used, Search.visit,
        if_neg h_known, resume, resume, run_discovered h_inner h_open]
      rfl

/-- With enough rounds for each node, the loops find what the recursion finds, or the first loop
    of one edge on the way. -/
theorem runAll_eq (h_closed : Closed (fun n => (successors n).reverse) nodes) (ns : List α)
    (h_ns : ∀ n ∈ ns, n ∈ nodes) {search : Search α} (h_ready : Ready successors search ns) :
    ∃ enough, ∀ rounds, enough ≤ rounds → runAll successors rounds ns search =
      resume successors 1
        (ns.foldl (Search.visit (fun n => (successors n).reverse) nodes.length) search) [] := by
  induction ns generalizing search with
  | nil => exact ⟨0, fun rounds _ => (resume_of_loopless h_ready.loopless 1 []).symm⟩
  | cons n rest ih =>
    have h_n := h_ns n (List.mem_cons_self ..)
    have h_rest : ∀ m ∈ rest, m ∈ nodes := fun m hm => h_ns m (List.mem_cons_of_mem _ hm)
    have h_fuel : (undiscovered nodes search).length ≤ nodes.length := List.length_filter_le _ _
    obtain ⟨added, h_visit⟩ := visit_visited h_closed nodes.length search n h_n h_fuel
    by_cases h_known : n ∈ search.discovered
    · have h_later : Ready successors search rest := h_ready.mono (List.subset_cons_self n rest)
      obtain ⟨enough, h_enough⟩ := ih h_rest h_later
      refine ⟨enough, fun rounds h_rounds => ?_⟩
      rw [runAll, if_pos h_known, h_enough rounds h_rounds, List.foldl_cons,
        Search.visit_of_discovered h_known]
    have h_first : Ready successors search [n] :=
      h_ready.mono (List.cons_subset_cons n (List.nil_subset rest))
    obtain ⟨used, h_used⟩ := run_visit h_closed nodes.length search n h_n h_fuel h_first
    cases h_loop : (Search.visit (fun n => (successors n).reverse) nodes.length search n).selfLoop?
        successors with
    | some m =>
      refine ⟨used, fun rounds h_rounds => ?_⟩
      obtain ⟨left, rfl⟩ := Nat.exists_eq_add_of_le' h_rounds
      simp only [runAll, if_neg h_known, h_used, resume_of_selfLoop h_loop, List.foldl_cons,
        resume_of_selfLoop (selfLoop?_foldl_visit h_loop rest)]
    | none =>
      obtain ⟨enough, h_enough⟩ := ih h_rest (h_ready.visited h_visit h_loop)
      refine ⟨enough + (1 + used), fun rounds h_rounds => ?_⟩
      have h_left : enough ≤ rounds := by omega
      obtain ⟨left, rfl⟩ : ∃ left, rounds = left + 1 + used :=
        ⟨rounds - (1 + used), by omega⟩
      simp only [runAll, if_neg h_known, h_used, resume_of_loopless h_loop, run, List.foldl_cons,
        h_enough _ h_left]

end StackSearch

/-! ## The check goes back -/

namespace OrderedGraph

/-- Going back from a node that has not been seen ends at once, or at its last predecessor that
    has not been seen either. -/
theorem traceBack_first (g : OrderedGraph α) {n : α} {seen : List α} (h_new : n ∉ seen)
    {rounds : Nat} (h_rounds : 2 ≤ rounds) :
    (∀ p, ((g.predecessors n).filter (· ∉ seen)).getLast? = some p →
      traceBack g.predecessors rounds true [n] seen = some (.error p)) ∧
    (((g.predecessors n).filter (· ∉ seen)).getLast? = none →
      traceBack g.predecessors rounds true [n] seen = some (.ok (n :: seen))) := by
  obtain ⟨more, rfl⟩ := Nat.exists_eq_add_of_le' h_rounds
  -- A node is not among its own predecessors, so it makes no difference that it has been seen now.
  have h_filter : (g.predecessors n).filter (· ∉ n :: seen) =
      (g.predecessors n).filter (· ∉ seen) := by
    refine List.filter_congr fun m hm => ?_
    simp [(mem_predecessors.1 hm).2]
  have h_first : traceBack g.predecessors (more + 2) true [n] seen = traceBack g.predecessors
      (more + 1) false ((g.predecessors n).filter (· ∉ seen)).reverse (n :: seen) := by
    rw [traceBack, if_neg h_new, if_pos rfl, h_filter, List.append_nil]
  rw [h_first]
  constructor
  · intro p h_last
    have h_p := List.mem_filter.1 (List.mem_of_getLast? h_last)
    have h_p_new : p ∉ n :: seen := by
      rw [List.mem_cons, not_or]
      exact ⟨(mem_predecessors.1 h_p.1).2, of_decide_eq_true h_p.2⟩
    rw [← List.head?_reverse, List.head?_eq_some_iff] at h_last
    obtain ⟨below, h_below⟩ := h_last
    rw [h_below, traceBack, if_neg h_p_new]
    rfl
  · intro h_none
    rw [List.getLast?_eq_none_iff.1 h_none, List.reverse_nil, traceBack]

/-- The check finds the node that the order misplaces. -/
theorem traceAll_eq (g : OrderedGraph α) {rounds : Nat} (h_rounds : 2 ≤ rounds)
    (order seen : List α) (h_nodup : order.Nodup) (h_new : ∀ n ∈ order, n ∉ seen) :
    (∀ p, g.misplaced? seen order = some p →
      traceAll g.predecessors rounds order seen = some (.error p)) ∧
    (g.misplaced? seen order = none →
      ∃ all, traceAll g.predecessors rounds order seen = some (.ok all)) := by
  induction order generalizing seen with
  | nil => exact ⟨fun p h => absurd h (by simp [misplaced?]), fun _ => ⟨seen, rfl⟩⟩
  | cons n rest ih =>
    obtain ⟨h_n, h_rest⟩ := List.nodup_cons.1 h_nodup
    have h_trace := g.traceBack_first (h_new n (List.mem_cons_self ..)) h_rounds
    cases h_last : ((g.predecessors n).filter (· ∉ seen)).getLast? with
    | some q =>
      simp only [misplaced?, h_last, traceAll, h_trace.1 q h_last, Option.some.injEq]
      exact ⟨fun p h_p => by rw [h_p], fun h_none => absurd h_none (by simp)⟩
    | none =>
      simp only [misplaced?, h_last, traceAll, h_trace.2 h_last]
      refine ih (n :: seen) h_rest fun m hm => ?_
      rw [List.mem_cons, not_or]
      exact ⟨fun h_eq => h_n (h_eq ▸ hm), h_new m (List.mem_cons_of_mem _ hm)⟩

/-! ## One order -/

/-- The loop with a stack ends with this result. -/
def SortsTo (g : OrderedGraph α) (result : Except α (List α)) : Prop :=
  ∃ enough, ∀ rounds, enough ≤ rounds → g.sortByStack rounds = some result

/-- The loop with a stack ends, and it gives the topological order or names the same node. -/
theorem sortsTo_topologicalOrder {g : OrderedGraph α} (h_ends : g.EndsAreNodes) :
    g.SortsTo g.topologicalOrder := by
  have h_closed : Closed (fun n => (g.successors n).reverse) g.nodes := by
    intro n _ m hm
    exact (h_ends n m (step_reverse_successors.1 hm)).2
  have h_start : StackSearch.Ready g.successors {} g.nodes := by
    refine ⟨fun m hm => absurd hm List.not_mem_nil, fun m _ hm => absurd hm List.not_mem_nil, rfl⟩
  obtain ⟨enough, h_enough⟩ := StackSearch.runAll_eq h_closed g.nodes (fun _ => id) h_start
  refine ⟨enough + 2, fun rounds h_rounds => ?_⟩
  have h_run : StackSearch.runAll g.successors rounds g.nodes {} =
      StackSearch.resume g.successors 1 g.search [] := h_enough rounds (by omega)
  have h_two : 2 ≤ rounds := by omega
  have h_check := g.traceAll_eq h_two g.search.finished [] (search_visited h_ends).nodup
    fun _ _ => List.not_mem_nil
  cases h_loop : g.search.selfLoop? g.successors with
  | some n =>
    rw [StackSearch.resume_of_selfLoop h_loop] at h_run
    rw [Search.selfLoop?] at h_loop
    simp only [sortByStack, h_run, topologicalOrder, h_loop]
    rfl
  | none =>
    rw [StackSearch.resume_of_loopless h_loop] at h_run
    rw [Search.selfLoop?] at h_loop
    cases h_placed : g.misplaced? [] g.search.finished with
    | some n =>
      simp only [sortByStack, h_run, topologicalOrder, h_loop, h_placed, StackSearch.run,
        Option.bind_eq_bind, Option.bind_some, h_check.1 n h_placed]
    | none =>
      obtain ⟨all, h_all⟩ := h_check.2 h_placed
      simp only [sortByStack, h_run, topologicalOrder, h_loop, h_placed, StackSearch.run,
        Option.bind_eq_bind, Option.bind_some, h_all]

end OrderedGraph

end ProgramQuery.Graph
