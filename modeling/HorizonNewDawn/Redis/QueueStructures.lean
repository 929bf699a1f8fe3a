import Mathlib.Data.List.Nodup

/-! # The structures of a queue

A Redis queue of Laravel is a list of ready payloads and two sorted sets, the reserved payloads with the
times their reservations end and the delayed ones with the times they become available. -/

namespace HorizonNewDawn

namespace PendingJobStateIndex

variable {F : Type}

/-- A sorted set: its members in their order, each with its score. -/
structure SortedSet (F : Type) where
  entries : List (List UInt8 × F)
  /-- A member is there once. -/
  nodup : (entries.map Prod.fst).Nodup

/-- A sorted set without members. -/
def SortedSet.empty : SortedSet F := ⟨[], List.nodup_nil⟩

/-- The structures of a queue. -/
structure Queue (F : Type) where
  ready : List (List UInt8)
  reserved : SortedSet F
  delayed : SortedSet F

end PendingJobStateIndex

end HorizonNewDawn
