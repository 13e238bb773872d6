/-
  PresenceTable.Store.Elimination
  ───────────────────────────────
  **ELIMINATING MODULE VARIABLES IN THE STORE.**

  Elimination follows the ids of a stored condition and stores its result
  from the leaves up.  Every disjunction is stored before its constant
  operands are left out, so that the ids given later do not depend on what
  the operands turned out to be.

  The store grows on the way, and an id that was unknown at the start can
  belong to a node by the time it is met.  Each conjunction and disjunction
  that was there at the start gives rise to one new node at most, and the
  result of an elimination to none; so a way down that is longer than twice
  the number of nodes does not end.
-/
import PresenceTable.Store.Basic

namespace PresenceTable

namespace Store

/-- A disjunction with the constant `bot` as an operand becomes its other
operand; everything else stays as it is. -/
def collapse (s : Store) (id : NodeId) : Except Fault NodeId :=
  match s.node? id with
  | none => .error .unknownId
  | some (.disj left right) =>
    .ok (if left = botId then right else if right = botId then left else id)
  | some _ => .ok id

/-- Elimination below an id, when no way down from it is longer than the
given bound.  The store that is returned holds all nodes that were made,
also when a fault ended the elimination. -/
def eliminateWithin (erased : Name → Bool) :
    Nat → Store → NodeId → Except Fault NodeId × Store
  | 0, s, _ => (.error .endless, s)
  | bound + 1, s, id =>
    match s.node? id with
    | none => (.error .unknownId, s)
    | some .bot => (.ok id, s)
    | some (.var n) => (.ok (if erased n then botId else id), s)
    | some (.neg operand) => eliminateWithin erased bound s operand
    | some (.conj left right) =>
      match eliminateWithin erased bound s left with
      | (.error fault, s) => (.error fault, s)
      | (.ok left, s) =>
        match eliminateWithin erased bound s right with
        | (.error fault, s) => (.error fault, s)
        | (.ok right, s) =>
          let (id, s) := s.intern (.conj left right)
          (.ok id, s)
    | some (.disj left right) =>
      match eliminateWithin erased bound s left with
      | (.error fault, s) => (.error fault, s)
      | (.ok left, s) =>
        match eliminateWithin erased bound s right with
        | (.error fault, s) => (.error fault, s)
        | (.ok right, s) =>
          let (id, s) := s.intern (.disj left right)
          (s.collapse id, s)

/-- The id of a stored condition after elimination. -/
def eliminate (s : Store) (erased : Name → Bool) (id : NodeId) :
    Except Fault NodeId × Store :=
  eliminateWithin erased (2 * s.size + 1) s id

end Store

end PresenceTable
