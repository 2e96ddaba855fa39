/-
  ProgramQuery.Proofs.Graph.Search

  Depth-first search finds exactly what can be reached.

  A visit is described by what it adds to a search (`Visited`): the new nodes are
  finished as they are left, every one of them is reached from the node that was
  visited, all successors of a new node are known afterwards, and a new node that
  was finished before one of its predecessors reaches it, so that they lie on a
  cycle.  A node that reaches one which was finished after it lies on a cycle with
  some node that was finished even later (`Rooted`).  These facts are kept by single
  visits and by visits one after the other, as long as the fuel covers the nodes
  that are not discovered yet.

  A loop over a stack finds the same nodes (`mem_explore_iff`): what follows a visited node
  is visited too or waits on the stack (`Pending`).
-/

import Mathlib.Data.List.Basic
import Mathlib.Logic.Relation
import ProgramQuery.Graph.Search

namespace ProgramQuery.Graph

open Relation (ReflTransGen TransGen)

variable {α : Type}

/-- One step of a graph that is given by its successor lists. -/
def Step (successors : α → List α) (a b : α) : Prop :=
  b ∈ successors a

/-- A set of nodes that no step leaves. -/
def Closed (successors : α → List α) (nodes : List α) : Prop :=
  ∀ n ∈ nodes, ∀ m ∈ successors n, m ∈ nodes

/-- A closed set that contains a node contains all that it reaches. -/
theorem Closed.reaches {successors : α → List α} {nodes : List α}
    (h : Closed successors nodes) {a b : α}
    (h_reach : ReflTransGen (Step successors) a b) (h_a : a ∈ nodes) : b ∈ nodes := by
  induction h_reach with
  | refl => exact h_a
  | tail _ h_step ih => exact h _ ih _ h_step

/-- A rank that grows with every step grows along every path, so no path returns. -/
theorem not_transGen_self_of_rank {r : α → α → Prop} (rank : α → Nat)
    (h : ∀ a b, r a b → rank a < rank b) (a : α) : ¬ TransGen r a a := by
  have h_path : ∀ b, TransGen r a b → rank a < rank b := by
    intro b h_path
    induction h_path with
    | single h_step => exact h _ _ h_step
    | tail _ h_step ih => exact Nat.lt_trans ih (h _ _ h_step)
  exact fun h_cycle => Nat.lt_irrefl _ (h_path a h_cycle)

/-! ## Finishing late -/

/-- Each of the two nodes reaches the other. -/
def Mutual (r : α → α → Prop) (a b : α) : Prop :=
  ReflTransGen r a b ∧ ReflTransGen r b a

namespace Mutual

variable {r : α → α → Prop} {a b c : α}

theorem refl (r : α → α → Prop) (a : α) : Mutual r a a :=
  ⟨.refl, .refl⟩

theorem symm (h : Mutual r a b) : Mutual r b a :=
  ⟨h.2, h.1⟩

theorem trans (h_ab : Mutual r a b) (h_bc : Mutual r b c) : Mutual r a c :=
  ⟨h_ab.1.trans h_bc.1, h_bc.2.trans h_ab.2⟩

end Mutual

/-- A path out of a set of nodes, of which each step leads into the set or to known nodes, goes
    through a known node. -/
theorem exists_known_between {successors : α → List α} {nodes known : List α}
    (h : ∀ n ∈ nodes, ∀ m ∈ successors n, m ∈ nodes ∨ m ∈ known) {a b : α}
    (h_path : ReflTransGen (Step successors) a b) (h_a : a ∈ nodes) (h_b : b ∉ nodes) :
    ∃ k ∈ known, ReflTransGen (Step successors) a k ∧ ReflTransGen (Step successors) k b := by
  induction h_path using ReflTransGen.head_induction_on with
  | refl => exact absurd h_a h_b
  | head h_step h_rest ih =>
    rcases h _ h_a _ h_step with h_in | h_known
    · obtain ⟨k, hk, h_to, h_from⟩ := ih h_in
      exact ⟨k, hk, .head h_step h_to, h_from⟩
    · exact ⟨_, h_known, .single h_step, h_rest⟩

/-- Nodes by the time they were finished, the latest first.  If one of them reaches a node that
    was finished after it, then it lies on a cycle with that node or with one that was
    finished even later, unless the path goes through a node that was known before. -/
def Rooted (successors : α → List α) (known added : List α) : Prop :=
  ∀ later n earlier, added = later ++ n :: earlier → ∀ m ∈ earlier,
    ReflTransGen (Step successors) m n →
      (∃ k ∈ later ++ [n], Mutual (Step successors) m k) ∨
        ∃ k ∈ known, ReflTransGen (Step successors) m k ∧ ReflTransGen (Step successors) k n

namespace Rooted

variable {successors : α → List α} {known first second : List α}

theorem nil : Rooted successors known [] := by
  intro later n earlier h_split
  simp at h_split

/-- Nodes that were finished in two runs of visits. -/
theorem append (h_first : Rooted successors known first)
    (h_second : Rooted successors (first ++ known) second)
    (h_closed : ∀ n ∈ first, ∀ m ∈ successors n, m ∈ first ∨ m ∈ known)
    (h_fresh : ∀ n ∈ second, n ∉ first) : Rooted successors known (second ++ first) := by
  intro later n earlier h_split m hm h_path
  rcases List.append_eq_append_iff.1 h_split with
    ⟨later', rfl, h_first_split⟩ | ⟨rest, h_split', h_rest⟩
  · -- Both nodes were finished in the first run.
    refine (h_first later' n earlier h_first_split m hm h_path).imp_left ?_
    rintro ⟨k, hk, h_mutual⟩
    exact ⟨k, List.append_assoc second later' [n] ▸ List.mem_append_right _ hk, h_mutual⟩
  · cases rest with
    | nil =>
      refine (h_first [] n earlier (by simpa using h_rest.symm) m hm h_path).imp_left ?_
      rintro ⟨k, hk, h_mutual⟩
      exact ⟨k, List.mem_append_right _ hk, h_mutual⟩
    | cons n' rest =>
      obtain ⟨rfl, rfl⟩ := List.cons.inj h_rest
      have h_n : n ∉ first := h_fresh n (by simp [h_split'])
      -- From the first run, a path to the second one goes through what was known before both.
      have h_through : ∀ x ∈ first, ReflTransGen (Step successors) x n →
          ∃ k ∈ known, ReflTransGen (Step successors) x k ∧ ReflTransGen (Step successors) k n :=
        fun x hx h_x => exists_known_between h_closed h_x hx h_n
      rcases List.mem_append.1 hm with hm | hm
      · rcases h_second later n rest h_split' m hm h_path with h_late | ⟨k, hk, h_to, h_from⟩
        · exact .inl h_late
        · rcases List.mem_append.1 hk with hk | hk
          · obtain ⟨w, hw, h_kw, h_wn⟩ := h_through k hk h_from
            exact .inr ⟨w, hw, h_to.trans h_kw, h_wn⟩
          · exact .inr ⟨k, hk, h_to, h_from⟩
      · exact .inr (h_through m hm h_path)

/-- A node that is finished after all that was found from it. -/
theorem cons {n : α} {added : List α} (h : Rooted successors (n :: known) added)
    (h_reached : ∀ m ∈ added, ReflTransGen (Step successors) n m) :
    Rooted successors known (n :: added) := by
  intro later x earlier h_split m hm h_path
  cases later with
  | nil =>
    obtain ⟨rfl, rfl⟩ := List.cons.inj h_split
    exact .inl ⟨n, by simp, h_path, h_reached m hm⟩
  | cons n' later =>
    obtain ⟨rfl, h_tail⟩ := List.cons.inj h_split
    rcases h later x earlier h_tail m hm h_path with ⟨k, hk, h_mutual⟩ | ⟨k, hk, h_to, h_from⟩
    · exact .inl ⟨k, List.mem_cons_of_mem _ hk, h_mutual⟩
    · rcases List.mem_cons.1 hk with rfl | hk
      · -- A path back to the node closes a cycle with it.
        have h_m : m ∈ added := by simp [h_tail, hm]
        exact .inl ⟨k, by simp, h_to, h_reached m h_m⟩
      · exact .inr ⟨k, hk, h_to, h_from⟩

theorem mono {known' added : List α} (h : Rooted successors known added)
    (h_sub : ∀ k ∈ known, k ∈ known') : Rooted successors known' added :=
  fun later n earlier h_split m hm h_path =>
    (h later n earlier h_split m hm h_path).imp_right fun ⟨k, hk, h_k⟩ => ⟨k, h_sub k hk, h_k⟩

end Rooted

/-! ## What a visit adds -/

/-- `after` is `before` with the nodes `added` discovered and finished. -/
structure Visited (successors : α → List α) (starts : List α) (before after : Search α)
    (added : List α) : Prop where
  finished : after.finished = added ++ before.finished
  discovered : ∀ n, n ∈ after.discovered ↔ n ∈ added ∨ n ∈ before.discovered
  nodup : added.Nodup
  fresh : ∀ n ∈ added, n ∉ before.discovered
  reached : ∀ n ∈ added, ∃ s ∈ starts, ReflTransGen (Step successors) s n
  closed : ∀ n ∈ added, ∀ m ∈ successors n, m ∈ after.discovered
  visited : ∀ s ∈ starts, s ∈ after.discovered
  ordered : added.Pairwise fun a b => Step successors b a → ReflTransGen (Step successors) a b
  rooted : Rooted successors before.discovered added

namespace Visited

variable {successors : α → List α} {before middle after : Search α}

/-- Visiting nothing adds nothing. -/
theorem nil (before : Search α) : Visited successors [] before before [] where
  finished := rfl
  discovered := by simp
  nodup := List.nodup_nil
  fresh := by simp
  reached := by simp
  closed := by simp
  visited := by simp
  ordered := .nil
  rooted := .nil

/-- A node that is known is not visited again. -/
theorem known {n : α} (h : n ∈ before.discovered) : Visited successors [n] before before [] where
  finished := rfl
  discovered := by simp
  nodup := List.nodup_nil
  fresh := by simp
  reached := by simp
  closed := by simp
  visited := by simpa using h
  ordered := .nil
  rooted := .nil

theorem mono {starts added : List α} (h : Visited successors starts before after added) {n : α}
    (h_n : n ∈ before.discovered) : n ∈ after.discovered :=
  (h.discovered n).2 (.inr h_n)

/-- Two runs of visits, one after the other. -/
theorem append {starts more first second : List α}
    (h₁ : Visited successors starts before middle first)
    (h₂ : Visited successors more middle after second) :
    Visited successors (starts ++ more) before after (second ++ first) where
  finished := by rw [h₂.finished, h₁.finished, List.append_assoc]
  discovered n := by
    rw [h₂.discovered, h₁.discovered, List.mem_append, or_assoc]
  nodup := by
    refine List.nodup_append.2 ⟨h₂.nodup, h₁.nodup, ?_⟩
    intro a ha b hb hab
    subst hab
    exact h₂.fresh a ha ((h₁.discovered a).2 (.inl hb))
  fresh := by
    intro n hn h_before
    rcases List.mem_append.1 hn with hn | hn
    · exact h₂.fresh n hn (h₁.mono h_before)
    · exact h₁.fresh n hn h_before
  reached := by
    intro n hn
    rcases List.mem_append.1 hn with hn | hn
    · obtain ⟨s, hs, h_reach⟩ := h₂.reached n hn
      exact ⟨s, List.mem_append_right _ hs, h_reach⟩
    · obtain ⟨s, hs, h_reach⟩ := h₁.reached n hn
      exact ⟨s, List.mem_append_left _ hs, h_reach⟩
  closed := by
    intro n hn m hm
    rcases List.mem_append.1 hn with hn | hn
    · exact h₂.closed n hn m hm
    · exact h₂.mono (h₁.closed n hn m hm)
  visited := by
    intro s hs
    rcases List.mem_append.1 hs with hs | hs
    · exact h₂.mono (h₁.visited s hs)
    · exact h₂.visited s hs
  ordered := by
    refine List.pairwise_append.2 ⟨h₂.ordered, h₁.ordered, ?_⟩
    -- A step from an earlier node to a later one would have discovered the later one in time.
    intro a ha b hb h_step
    exact absurd (h₁.closed b hb a h_step) (h₂.fresh a ha)
  rooted := by
    refine h₁.rooted.append (h₂.rooted.mono fun k hk => ?_) (fun n hn m hm => ?_) fun n hn h_n => ?_
    · exact List.mem_append.2 ((h₁.discovered k).1 hk)
    · exact (h₁.discovered m).1 (h₁.closed n hn m hm)
    · exact h₂.fresh n hn ((h₁.discovered n).2 (.inl h_n))

/-- Discovering a node, visiting its successors and finishing it. -/
theorem enter {n : α} {added : List α} (h_new : n ∉ before.discovered)
    (h : Visited successors (successors n)
      { before with discovered := n :: before.discovered } after added) :
    Visited successors [n] before { after with finished := n :: after.finished } (n :: added) where
  finished := by rw [h.finished]; rfl
  discovered m := by
    rw [h.discovered]
    simp only [List.mem_cons]
    tauto
  nodup := List.nodup_cons.2 ⟨fun h_n => h.fresh n h_n (List.mem_cons_self ..), h.nodup⟩
  fresh := by
    intro m hm h_before
    rcases List.mem_cons.1 hm with rfl | hm
    · exact h_new h_before
    · exact h.fresh m hm (List.mem_cons_of_mem _ h_before)
  reached := by
    intro m hm
    refine ⟨n, List.mem_singleton_self n, ?_⟩
    rcases List.mem_cons.1 hm with rfl | hm
    · exact .refl
    · obtain ⟨s, hs, h_reach⟩ := h.reached m hm
      exact .head hs h_reach
  closed := by
    intro m hm k hk
    rcases List.mem_cons.1 hm with rfl | hm
    · exact h.visited k hk
    · exact h.closed m hm k hk
  visited := by
    intro s hs
    rw [List.mem_singleton.1 hs]
    exact (h.discovered n).2 (.inr (List.mem_cons_self ..))
  ordered := by
    refine List.pairwise_cons.2 ⟨?_, h.ordered⟩
    intro m hm _
    obtain ⟨s, hs, h_reach⟩ := h.reached m hm
    exact .head hs h_reach
  rooted := by
    refine h.rooted.cons fun m hm => ?_
    obtain ⟨s, hs, h_reach⟩ := h.reached m hm
    exact .head hs h_reach

end Visited

/-! ## Fuel -/

section

variable [DecidableEq α] {successors : α → List α} {nodes : List α}

/-- The nodes that are not discovered yet. -/
def undiscovered (nodes : List α) (search : Search α) : List α :=
  nodes.filter (· ∉ search.discovered)

/-- Discovering more leaves fewer nodes. -/
theorem undiscovered_length_le {before after : Search α}
    (h : ∀ n ∈ before.discovered, n ∈ after.discovered) :
    (undiscovered nodes after).length ≤ (undiscovered nodes before).length := by
  have h_sub : (undiscovered nodes after).Sublist (undiscovered nodes before) := by
    apply List.monotone_filter_right
    intro n hn
    simp only [decide_eq_true_eq] at hn ⊢
    exact fun h_before => hn (h n h_before)
  exact h_sub.length_le

/-- Discovering a new node leaves one node less. -/
theorem undiscovered_length_lt {search : Search α} {n : α} (h_n : n ∈ nodes)
    (h_new : n ∉ search.discovered) :
    (undiscovered nodes { search with discovered := n :: search.discovered }).length <
      (undiscovered nodes search).length := by
  -- What is left afterwards is what was left before, without the new node.
  have h_eq : undiscovered nodes { search with discovered := n :: search.discovered } =
      (undiscovered nodes search).filter (· ≠ n) := by
    unfold undiscovered
    rw [List.filter_filter]
    apply List.filter_congr
    intro m _
    simp only [List.mem_cons, not_or, ne_eq, Bool.decide_and]
  have h_mem : n ∈ undiscovered nodes search := by
    simp [undiscovered, h_n, h_new]
  rw [h_eq]
  exact List.length_filter_lt_length_iff_exists.2 ⟨n, h_mem, by simp⟩

/-- Visits one after the other, given what each of them does. -/
theorem foldl_visit {fuel : Nat}
    (ih : ∀ (search : Search α) (n : α), n ∈ nodes → (undiscovered nodes search).length ≤ fuel →
      ∃ added, Visited successors [n] search (Search.visit successors fuel search n) added)
    (ns : List α) (h_ns : ∀ n ∈ ns, n ∈ nodes) (search : Search α)
    (h_fuel : (undiscovered nodes search).length ≤ fuel) :
    ∃ added,
      Visited successors ns search (ns.foldl (Search.visit successors fuel) search) added := by
  induction ns generalizing search with
  | nil => exact ⟨[], .nil search⟩
  | cons n rest ih_rest =>
    obtain ⟨first, h_first⟩ := ih search n (h_ns n (List.mem_cons_self ..)) h_fuel
    -- A visit only discovers more, so the fuel still covers what the others can find.
    have h_less : (undiscovered nodes (Search.visit successors fuel search n)).length ≤
        (undiscovered nodes search).length := undiscovered_length_le fun _ => h_first.mono
    obtain ⟨second, h_second⟩ := ih_rest (fun m hm => h_ns m (List.mem_cons_of_mem _ hm)) _
      (Nat.le_trans h_less h_fuel)
    exact ⟨second ++ first, h_first.append h_second⟩

/-- A visit with enough fuel: every level of the recursion discovers a node. -/
theorem visit_visited (h_closed : Closed successors nodes) (fuel : Nat) (search : Search α) (n : α)
    (h_n : n ∈ nodes) (h_fuel : (undiscovered nodes search).length ≤ fuel) :
    ∃ added, Visited successors [n] search (Search.visit successors fuel search n) added := by
  induction fuel generalizing search n with
  | zero =>
    -- Without fuel nothing is left to discover, so this node is known.
    have h_known : n ∈ search.discovered := by
      by_contra h_new
      have h_mem : n ∈ undiscovered nodes search := by simp [undiscovered, h_n, h_new]
      have h_pos := List.length_pos_of_mem h_mem
      omega
    exact ⟨[], .known h_known⟩
  | succ fuel ih =>
    by_cases h_known : n ∈ search.discovered
    · refine ⟨[], ?_⟩
      rw [Search.visit, if_pos h_known]
      exact .known h_known
    · -- Entering the node pays for one level of the recursion.
      have h_less := undiscovered_length_lt h_n h_known
      obtain ⟨added, h_added⟩ := foldl_visit ih (successors n) (h_closed n h_n)
        { search with discovered := n :: search.discovered } (by omega)
      refine ⟨n :: added, ?_⟩
      rw [Search.visit, if_neg h_known]
      exact .enter h_known h_added

/-- Visits from the start, with a fuel of the number of nodes. -/
theorem visitAll_visited (h_closed : Closed successors nodes) {fuel : Nat}
    (h_fuel : nodes.length ≤ fuel) (starts : List α) (h_starts : ∀ s ∈ starts, s ∈ nodes) :
    ∃ added, Visited successors starts {} (Search.visitAll successors fuel starts) added :=
  foldl_visit (fun search n h_n => visit_visited h_closed fuel search n h_n) starts h_starts {}
    (Nat.le_trans (List.length_filter_le _ _) h_fuel)

/-! ## Reachability -/

/-- The search finds what can be reached from its starting nodes, and nothing else. -/
theorem mem_reachable_iff (h_closed : Closed successors nodes) {fuel : Nat}
    (h_fuel : nodes.length ≤ fuel) {starts : List α} (h_starts : ∀ s ∈ starts, s ∈ nodes) (b : α) :
    b ∈ reachable successors fuel starts ↔
      ∃ a ∈ starts, ReflTransGen (Step successors) a b := by
  obtain ⟨added, h⟩ := visitAll_visited h_closed h_fuel starts h_starts
  have h_mem : ∀ n, n ∈ reachable successors fuel starts ↔ n ∈ added := by
    intro n
    rw [reachable, h.discovered]
    simp
  constructor
  · intro h_b
    exact h.reached b ((h_mem b).1 h_b)
  · rintro ⟨a, h_a, h_reach⟩
    -- What was found is closed, so a path that starts in it never leaves it.
    have h_found : Closed successors (reachable successors fuel starts) := by
      intro n hn m hm
      exact h.closed n ((h_mem n).1 hn) m hm
    exact h_found.reaches h_reach (h.visited a h_a)

end

/-! ## Exploring with a stack -/

section

variable {successors : α → List α}

theorem reflTransGen_step_iff {a b : α} :
    ReflTransGen (Step successors) a b ↔
      b = a ∨ ∃ m ∈ successors a, ReflTransGen (Step successors) m b := by
  rw [ReflTransGen.cases_head_iff, eq_comm]
  rfl

/-- The successors of visited nodes are visited or wait on the stack. -/
def Pending (successors : α → List α) (visited stack : List α) : Prop :=
  ∀ n ∈ visited, ∀ m ∈ successors n, m ∈ visited ∨ m ∈ stack

namespace Pending

variable {visited stack : List α} {n : α}

theorem nil (stack : List α) : Pending successors [] stack := by
  simp [Pending]

/-- A visited node can be taken off the stack. -/
theorem skip (h : Pending successors visited (n :: stack)) (h_n : n ∈ visited) :
    Pending successors visited stack := by
  intro k hk m hm
  rcases h k hk m hm with h_m | h_m
  · exact .inl h_m
  · rcases List.mem_cons.1 h_m with rfl | h_m
    · exact .inl h_n
    · exact .inr h_m

/-- A node that is visited leaves its successors on the stack. -/
theorem push (h : Pending successors visited (n :: stack)) :
    Pending successors (n :: visited) ((successors n).reverse ++ stack) := by
  intro k hk m hm
  rw [List.mem_cons, List.mem_append, List.mem_reverse]
  rcases List.mem_cons.1 hk with rfl | hk
  · exact .inr (.inl hm)
  · rcases h k hk m hm with h_m | h_m
    · exact .inl (.inr h_m)
    · exact (List.mem_cons.1 h_m).imp .inl .inr

/-- A path out of the visited nodes goes through the stack. -/
theorem mem_or_exists (h : Pending successors visited stack) (h_n : n ∈ visited) {b : α}
    (h_path : ReflTransGen (Step successors) n b) :
    b ∈ visited ∨ ∃ a ∈ stack, ReflTransGen (Step successors) a b := by
  by_cases h_b : b ∈ visited
  · exact .inl h_b
  · obtain ⟨k, hk, -, h_from⟩ := exists_known_between h h_path h_n h_b
    exact .inr ⟨k, hk, h_from⟩

end Pending

variable [DecidableEq α]

/-- The edges out of unvisited nodes are those out of a new one and those out of the others. -/
theorem length_filter_not_mem (edges : List (α × α)) {visited : List α} {n : α}
    (h_new : n ∉ visited) :
    (edges.filter (·.1 ∉ visited)).length =
      (edges.filter (·.1 = n)).length + (edges.filter (·.1 ∉ n :: visited)).length := by
  have h_own : (edges.filter (·.1 ∉ visited)).filter (·.1 = n) = edges.filter (·.1 = n) := by
    rw [List.filter_filter]
    refine List.filter_congr fun e _ => ?_
    grind
  have h_others : (edges.filter (·.1 ∉ visited)).filter (fun e => !decide (e.1 = n)) =
      edges.filter (·.1 ∉ n :: visited) := by
    rw [List.filter_filter]
    refine List.filter_congr fun e _ => ?_
    grind
  rw [← h_own, ← h_others]
  exact List.length_eq_length_filter_add _

/-- The loop adds to the visited nodes what can be reached from its stack, if there are rounds for
    the stack and for the edges out of nodes that are not visited. -/
theorem mem_explore_iff {edges : List (α × α)}
    (h_edges : ∀ n, (successors n).length ≤ (edges.filter (·.1 = n)).length) {rounds : Nat}
    {visited stack : List α}
    (h_rounds : stack.length + (edges.filter (·.1 ∉ visited)).length ≤ rounds)
    (h_pending : Pending successors visited stack) (b : α) :
    b ∈ explore successors rounds visited stack ↔
      b ∈ visited ∨ ∃ a ∈ stack, ReflTransGen (Step successors) a b := by
  induction rounds generalizing visited stack with
  | zero =>
    obtain rfl : stack = [] := List.length_eq_zero_iff.1 (by omega)
    simp [explore]
  | succ rounds ih =>
    cases stack with
    | nil => simp [explore]
    | cons n stack =>
      rw [List.length_cons] at h_rounds
      rw [explore]
      split
      · rename_i h_n
        have h_rest := h_pending.skip h_n
        rw [ih (by omega) h_rest, List.exists_mem_cons_iff]
        refine ⟨.imp_right .inr, ?_⟩
        rintro (h_b | h_path | h_below)
        · exact .inl h_b
        · exact h_rest.mem_or_exists h_n h_path
        · exact .inr h_below
      · -- The successors that are pushed are paid for by the edges out of the new node.
        rename_i h_new
        have h_fewer := length_filter_not_mem edges h_new
        have h_own := h_edges n
        rw [ih (by simp only [List.length_append, List.length_reverse]; omega) h_pending.push]
        simp only [List.mem_cons, List.mem_append, List.mem_reverse, or_and_right, exists_or,
          exists_eq_left, reflTransGen_step_iff (a := n), or_assoc]
        exact or_left_comm

end

end ProgramQuery.Graph
