/-
  ProgramQuery.Proofs.Facts.PairStore

  A store as a set of pairs.

  `contains` is the view through which stores are read here.  Adding makes one
  more pair a member, and the indices and the counter follow: in a store that was
  built by adding (`Coherent`) every way of looking up tells the same set of pairs,
  and these are the pairs that were added (`Shows`).
-/

import Mathlib.Data.List.Perm.Basic
import Mathlib.Data.List.Dedup
import ProgramQuery.Facts.PairStore

namespace ProgramQuery.Facts

theorem nodup_eraseDups {α : Type} [BEq α] [LawfulBEq α] (l : List α) : l.eraseDups.Nodup := by
  induction h_length : l.length using Nat.strongRecOn generalizing l with
  | ind n ih =>
    cases l with
    | nil => simp
    | cons a rest =>
      rw [List.eraseDups_cons, List.nodup_cons, List.mem_eraseDups]
      have h_shorter := List.length_filter_le (fun c => !c == a) rest
      refine ⟨by simp, ih _ ?_ _ rfl⟩
      rw [List.length_cons] at h_length
      omega

open Std (ExtTreeMap ExtTreeSet)

/-- A set lists each of its members once. -/
theorem nodup_toList {α : Type} [Ord α] [Std.TransOrd α] (s : ExtTreeSet α) : s.toList.Nodup := by
  refine s.distinct_toList.imp fun h_ne h_eq => h_ne ?_
  rw [h_eq]
  exact Std.ReflOrd.compare_self

namespace PairStore

variable {α β : Type} [Ord α] [Std.TransOrd α] [Ord β] [Std.TransOrd β]

/-! ## Members -/

theorem mem_image {s : PairStore α β} {k : α} {v : β} : v ∈ s.image k ↔ s.contains k v := by
  rw [contains, ExtTreeSet.mem_iff_contains]

@[simp] theorem contains_empty (k : α) (v : β) : (∅ : PairStore α β).contains k v = false := by
  show (empty.image k).contains v = false
  simp [image, empty]

/-- The two ways in which a pair is added. -/
theorem add_eq (s : PairStore α β) (k : α) (v : β) :
    s.add k v = if s.contains k v then s else
      { forward := s.forward.insert k ((s.image k).insert v)
        reverse := s.reverse.insert v ((s.preimage v).insert k)
        size := s.size + 1 } := by
  unfold add tryAdd
  split <;> rfl

variable [Std.LawfulEqOrd α] [Std.LawfulEqOrd β]

/-- The pairs in a map of sets. -/
theorem mem_flatMap_toList {sets : ExtTreeMap α (ExtTreeSet β)} {k : α} {v : β} :
    (k, v) ∈ sets.toList.flatMap (fun (k, vs) => vs.toList.map (k, ·)) ↔ v ∈ sets.getD k ∅ := by
  rw [ExtTreeMap.getD_eq_getD_getElem?]
  simp only [List.mem_flatMap, List.mem_map, Prod.exists, ExtTreeSet.mem_toList,
    ExtTreeMap.mem_toList_iff_getElem?_eq_some, Prod.mk.injEq]
  constructor
  · rintro ⟨k', vs, h_get, v', h_v, rfl, rfl⟩
    rw [h_get]
    exact h_v
  · intro h_v
    cases h_get : sets[k]? with
    | none => simp [h_get] at h_v
    | some vs =>
      rw [h_get] at h_v
      exact ⟨k, vs, h_get, v, h_v, rfl, rfl⟩

theorem mem_image_add {s : PairStore α β} {k a : α} {v b : β} :
    b ∈ (s.add k v).image a ↔ (a = k ∧ b = v) ∨ b ∈ s.image a := by
  rw [add_eq]
  split
  · rename_i h_known
    constructor
    · exact .inr
    · rintro (⟨rfl, rfl⟩ | h)
      · exact mem_image.2 h_known
      · exact h
  · simp only [image, ExtTreeMap.getD_insert]
    split
    · rename_i h_key
      obtain rfl := Std.LawfulEqOrd.eq_of_compare h_key
      simp [@eq_comm _ v b]
    · rename_i h_key
      have h_ne : a ≠ k := fun h => h_key (h ▸ Std.ReflOrd.compare_self)
      simp [h_ne]

@[simp] theorem contains_add {s : PairStore α β} {k a : α} {v b : β} :
    (s.add k v).contains a b ↔ (a = k ∧ b = v) ∨ s.contains a b := by
  rw [← mem_image, ← mem_image, mem_image_add]

@[simp] theorem contains_addAll {s : PairStore α β} {pairs : List (α × β)} {a : α} {b : β} :
    (s.addAll pairs).contains a b ↔ (a, b) ∈ pairs ∨ s.contains a b := by
  unfold addAll
  induction pairs generalizing s with
  | nil => simp
  | cons p rest ih =>
    rw [List.foldl_cons, ih, contains_add, List.mem_cons, ← Prod.mk.injEq]
    tauto

theorem contains_ofList {pairs : List (α × β)} {a : α} {b : β} :
    (ofList pairs).contains a b ↔ (a, b) ∈ pairs := by
  have h_empty : (empty : PairStore α β).contains a b = false := contains_empty a b
  simp [ofList, h_empty]

/-! ## Coherent stores -/

/-- The two indices and the counter speak of the same pairs. -/
structure Coherent (s : PairStore α β) : Prop where
  mem_preimage : ∀ k v, k ∈ s.preimage v ↔ s.contains k v
  mem_forward : ∀ k, k ∈ s.forward ↔ ∃ v, s.contains k v
  mem_reverse : ∀ v, v ∈ s.reverse ↔ ∃ k, s.contains k v
  counted : ∃ pairs : List (α × β), pairs.Nodup ∧ pairs.length = s.size ∧
    ∀ k v, (k, v) ∈ pairs ↔ s.contains k v

namespace Coherent

variable {s : PairStore α β}

omit [Std.LawfulEqOrd α] [Std.LawfulEqOrd β] in
theorem empty : (∅ : PairStore α β).Coherent where
  mem_preimage k v := by
    show k ∈ (PairStore.empty : PairStore α β).preimage v ↔ _
    simp [preimage, PairStore.empty]
  mem_forward k := by
    show k ∈ (PairStore.empty : PairStore α β).forward ↔ _
    simp [PairStore.empty]
  mem_reverse v := by
    show v ∈ (PairStore.empty : PairStore α β).reverse ↔ _
    simp [PairStore.empty]
  counted := ⟨[], List.nodup_nil, rfl, by simp⟩

theorem add (h : s.Coherent) (k : α) (v : β) : (s.add k v).Coherent := by
  by_cases h_known : s.contains k v
  · rw [add_eq, if_pos h_known]
    exact h
  · have h_eq := add_eq s k v
    rw [if_neg h_known] at h_eq
    -- A new pair: the reverse index, the keys, the values and the counter, one by one.
    refine ⟨?_, ?_, ?_, ?_⟩
    · intro a b
      rw [contains_add, ← h.mem_preimage a b, h_eq]
      simp only [preimage, ExtTreeMap.getD_insert]
      split
      · rename_i h_value
        obtain rfl := Std.LawfulEqOrd.eq_of_compare h_value
        simp [@eq_comm _ k a]
      · rename_i h_value
        have h_ne : b ≠ v := fun h => h_value (h ▸ Std.ReflOrd.compare_self)
        simp [h_ne]
    · intro a
      simp only [contains_add, exists_or, exists_and_left, exists_eq, and_true]
      rw [← h.mem_forward a, h_eq]
      simp [@eq_comm _ k a]
    · intro b
      simp only [contains_add, exists_or, exists_and_right, exists_eq, true_and]
      rw [← h.mem_reverse b, h_eq]
      simp [@eq_comm _ v b]
    · obtain ⟨pairs, h_nodup, h_length, h_mem⟩ := h.counted
      refine ⟨(k, v) :: pairs, ?_, ?_, ?_⟩
      · exact List.nodup_cons.2 ⟨fun h_pair => h_known ((h_mem k v).1 h_pair), h_nodup⟩
      · rw [List.length_cons, h_length, h_eq]
      · intro a b
        rw [List.mem_cons, Prod.mk.injEq, h_mem, contains_add]

theorem addAll (h : s.Coherent) (pairs : List (α × β)) : (s.addAll pairs).Coherent := by
  unfold PairStore.addAll
  induction pairs generalizing s with
  | nil => exact h
  | cons p rest ih => exact ih (h.add p.1 p.2)

theorem ofList (pairs : List (α × β)) : (PairStore.ofList pairs).Coherent :=
  Coherent.empty.addAll pairs

/-! ## Looking up -/

omit [Std.LawfulEqOrd α] [Std.LawfulEqOrd β] in
theorem containsKey_iff (h : s.Coherent) (k : α) : s.containsKey k ↔ ∃ v, s.contains k v := by
  rw [containsKey, ← ExtTreeMap.mem_iff_contains, h.mem_forward]

omit [Std.LawfulEqOrd α] [Std.LawfulEqOrd β] in
theorem containsValue_iff (h : s.Coherent) (v : β) : s.containsValue v ↔ ∃ k, s.contains k v := by
  rw [containsValue, ← ExtTreeMap.mem_iff_contains, h.mem_reverse]

omit [Std.LawfulEqOrd β] in
theorem mem_keys (h : s.Coherent) (k : α) : k ∈ s.keys ↔ ∃ v, s.contains k v := by
  rw [keys, ExtTreeMap.mem_keys, h.mem_forward]

omit [Std.LawfulEqOrd α] in
theorem mem_values (h : s.Coherent) (v : β) : v ∈ s.values ↔ ∃ k, s.contains k v := by
  rw [values, ExtTreeMap.mem_keys, h.mem_reverse]

omit [Std.LawfulEqOrd α] [Std.LawfulEqOrd β] in
theorem isEmpty_iff (h : s.Coherent) : s.isEmpty = false ↔ ∃ k v, s.contains k v := by
  obtain ⟨pairs, -, h_length, h_mem⟩ := h.counted
  rw [isEmpty, beq_eq_false_iff_ne, ← h_length, ne_eq, List.length_eq_zero_iff]
  constructor
  · intro h_some
    obtain ⟨⟨k, v⟩, h_pair⟩ := List.exists_mem_of_ne_nil _ h_some
    exact ⟨k, v, (h_mem k v).1 h_pair⟩
  · rintro ⟨k, v, h_pair⟩ h_nil
    have h_in := (h_mem k v).2 h_pair
    rw [h_nil] at h_in
    exact List.not_mem_nil h_in

end Coherent

theorem mem_pairs {s : PairStore α β} {k : α} {v : β} : (k, v) ∈ s.pairs ↔ s.contains k v := by
  rw [← mem_image, pairs, image, mem_flatMap_toList]

/-! ## What was added -/

omit [Std.LawfulEqOrd α] [Std.LawfulEqOrd β] in
/-- Each pair is listed once. -/
theorem nodup_pairs (s : PairStore α β) : s.pairs.Nodup := by
  rw [pairs, List.nodup_flatMap]
  constructor
  · intro entry _
    exact (nodup_toList entry.2).map fun v w h_eq => (Prod.mk.inj h_eq).2
  · -- Pairs from different entries differ in their keys.
    refine s.forward.distinct_keys_toList.imp fun {a b} h_ne p h_a h_b => h_ne ?_
    obtain ⟨v, -, rfl⟩ := List.mem_map.1 h_a
    obtain ⟨w, -, h_eq⟩ := List.mem_map.1 h_b
    rw [(Prod.mk.inj h_eq).1]
    exact Std.ReflOrd.compare_self

/-- Every way of reading a store tells the pairs that were added to it, each of them once. -/
structure Shows [DecidableEq α] [DecidableEq β] (s : PairStore α β) (added : List (α × β)) :
    Prop where
  image : ∀ k v, v ∈ s.image k ↔ (k, v) ∈ added
  preimage : ∀ k v, k ∈ s.preimage v ↔ (k, v) ∈ added
  contains : ∀ k v, s.contains k v ↔ (k, v) ∈ added
  containsKey : ∀ k, s.containsKey k ↔ ∃ v, (k, v) ∈ added
  containsValue : ∀ v, s.containsValue v ↔ ∃ k, (k, v) ∈ added
  keys : s.keys.Nodup ∧ ∀ k, k ∈ s.keys ↔ ∃ v, (k, v) ∈ added
  values : s.values.Nodup ∧ ∀ v, v ∈ s.values ↔ ∃ k, (k, v) ∈ added
  pairs : s.pairs.Nodup ∧ ∀ k v, (k, v) ∈ s.pairs ↔ (k, v) ∈ added
  size : s.size = added.dedup.length
  isEmpty : s.isEmpty ↔ added = []

variable [DecidableEq α] [DecidableEq β]

/-- A coherent store shows the pairs that it contains. -/
theorem Coherent.shows {s : PairStore α β} (h : s.Coherent) {added : List (α × β)}
    (h_added : ∀ k v, s.contains k v ↔ (k, v) ∈ added) : s.Shows added where
  image k v := mem_image.trans (h_added k v)
  preimage k v := (h.mem_preimage k v).trans (h_added k v)
  contains := h_added
  containsKey k := (h.containsKey_iff k).trans (exists_congr fun v => h_added k v)
  containsValue v := (h.containsValue_iff v).trans (exists_congr fun k => h_added k v)
  keys := ⟨ExtTreeMap.nodup_keys, fun k => (h.mem_keys k).trans (exists_congr fun v => h_added k v)⟩
  values :=
    ⟨ExtTreeMap.nodup_keys, fun v => (h.mem_values v).trans (exists_congr fun k => h_added k v)⟩
  pairs := ⟨s.nodup_pairs, fun k v => mem_pairs.trans (h_added k v)⟩
  size := by
    obtain ⟨counted, h_nodup, h_length, h_mem⟩ := h.counted
    have h_perm : counted.Perm added.dedup := by
      rw [List.perm_ext_iff_of_nodup h_nodup added.nodup_dedup]
      rintro ⟨k, v⟩
      rw [h_mem, h_added, List.mem_dedup]
    rw [← h_length, h_perm.length_eq]
  isEmpty := by
    rw [List.eq_nil_iff_forall_not_mem, ← Bool.not_eq_false, h.isEmpty_iff]
    simp only [h_added, not_exists, Prod.forall]

/-- After any additions the two indices and the counter agree, whichever way they are read, and
    one more addition tells whether its pair is new; if it is not, the store stays as it is. -/
theorem indices_in_lock_step (added : List (α × β)) :
    (ofList added).Shows added ∧ ∀ k v,
      (((ofList added).tryAdd k v).1 = true ↔ (k, v) ∉ added) ∧
      ((k, v) ∈ added → ((ofList added).tryAdd k v).2 = ofList added) ∧
      ((ofList added).tryAdd k v).2.Shows (added ++ [(k, v)]) := by
  refine ⟨(Coherent.ofList added).shows fun _ _ => contains_ofList, fun k v => ⟨?_, ?_, ?_⟩⟩
  · rw [← contains_ofList, tryAdd]
    split <;> simp_all
  · intro h_known
    rw [tryAdd, if_pos (contains_ofList.2 h_known)]
  · refine ((Coherent.ofList added).add k v).shows fun a b => ?_
    rw [contains_add, contains_ofList, List.mem_append, List.mem_singleton, Prod.mk.injEq, or_comm]

/-- Two statements that share a variable, one of them added twice. -/
theorem shared_variable_in_lock_step :
    let added : List (Nat × String) := [(1, "x"), (2, "x"), (1, "x"), (2, "y")]
    (ofList added).size = 3 ∧ (∀ n, n ∈ (ofList added).preimage "x" ↔ n = 1 ∨ n = 2) ∧
      ((ofList added).tryAdd 2 "x").1 = false ∧ ((ofList added).tryAdd 1 "y").1 = true := by
  intro added
  obtain ⟨h_shows, h_add⟩ := indices_in_lock_step added
  refine ⟨h_shows.size, fun n => ?_, ?_, (h_add 1 "y").1.2 (by decide)⟩
  · rw [h_shows.preimage]
    simp [added]
    tauto
  · rw [← Bool.not_eq_true, (h_add 2 "x").1]
    decide

end PairStore

end ProgramQuery.Facts
