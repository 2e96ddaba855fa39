/-
  ProgramQuery.Facts.PairStore

  Finite binary relations, indexed in both directions.

  A store keeps for every key the values related to it, for every value the
  keys, and how many pairs there are.  Adding is the only way to change one, and
  it changes all three together or, if the pair is there, none.  Keys, values
  and pairs are listed in ascending order.
-/

import Std.Data.ExtTreeMap
import Std.Data.ExtTreeSet

namespace ProgramQuery.Facts

open Std (ExtTreeMap ExtTreeSet)

/-- A finite set of pairs, indexed by its first and by its second members. -/
structure PairStore (α β : Type) [Ord α] [Std.TransOrd α] [Ord β] [Std.TransOrd β] where
  forward : ExtTreeMap α (ExtTreeSet β)
  reverse : ExtTreeMap β (ExtTreeSet α)
  size : Nat

namespace PairStore

variable {α β : Type} [Ord α] [Std.TransOrd α] [Ord β] [Std.TransOrd β]

/-- The store without pairs. -/
def empty : PairStore α β := ⟨∅, ∅, 0⟩

instance : EmptyCollection (PairStore α β) := ⟨empty⟩

instance : Inhabited (PairStore α β) := ⟨empty⟩

/-! ## Looking up -/

/-- The values related to a key. -/
def image (s : PairStore α β) (k : α) : ExtTreeSet β :=
  s.forward.getD k ∅

/-- The keys related to a value. -/
def preimage (s : PairStore α β) (v : β) : ExtTreeSet α :=
  s.reverse.getD v ∅

/-- Whether a pair is in the store. -/
def contains (s : PairStore α β) (k : α) (v : β) : Bool :=
  (s.image k).contains v

/-- Whether a key is related to anything. -/
def containsKey (s : PairStore α β) (k : α) : Bool :=
  s.forward.contains k

/-- Whether anything is related to a value. -/
def containsValue (s : PairStore α β) (v : β) : Bool :=
  s.reverse.contains v

/-- Whether there is no pair. -/
def isEmpty (s : PairStore α β) : Bool :=
  s.size == 0

/-- All keys, in ascending order. -/
def keys (s : PairStore α β) : List α :=
  s.forward.keys

/-- All values, in ascending order. -/
def values (s : PairStore α β) : List β :=
  s.reverse.keys

/-- All pairs, by key and then by value. -/
def pairs (s : PairStore α β) : List (α × β) :=
  s.forward.toList.flatMap fun (k, vs) => vs.toList.map (k, ·)

/-! ## Adding -/

/-- Adds a pair, and says whether it is new. -/
def tryAdd (s : PairStore α β) (k : α) (v : β) : Bool × PairStore α β :=
  if s.contains k v then
    (false, s)
  else
    (true, {
      forward := s.forward.insert k ((s.image k).insert v)
      reverse := s.reverse.insert v ((s.preimage v).insert k)
      size := s.size + 1 })

/-- Adds a pair. -/
def add (s : PairStore α β) (k : α) (v : β) : PairStore α β :=
  (s.tryAdd k v).2

/-- Adds some pairs. -/
def addAll (s : PairStore α β) (pairs : List (α × β)) : PairStore α β :=
  pairs.foldl (fun s (k, v) => s.add k v) s

/-- The store of some pairs. -/
def ofList (pairs : List (α × β)) : PairStore α β :=
  empty.addAll pairs

end PairStore

end ProgramQuery.Facts
