/-
  PresenceTable.Store.Unfold
  ──────────────────────────
  **FROM IDS TO TREES.**

  Following the ids of a stored condition down to its leaves gives its
  tree, from which it is written out.  A way down that meets more ids than
  there are nodes has met one of them twice and will not end.
-/
import PresenceTable.Store.Basic

namespace PresenceTable

namespace Store

/-- The tree of a stored condition, when no way down from it is longer than
the given bound. -/
def formulaWithin (s : Store) : Nat → NodeId → Except Fault Formula
  | 0, _ => .error .endless
  | bound + 1, id =>
    match s.node? id with
    | none => .error .unknownId
    | some .bot => .ok .bot
    | some (.var n) => .ok (.var n)
    | some (.neg operand) => do
      let f ← s.formulaWithin bound operand
      return .neg f
    | some (.conj left right) => do
      let f ← s.formulaWithin bound left
      let g ← s.formulaWithin bound right
      return .conj f g
    | some (.disj left right) => do
      let f ← s.formulaWithin bound left
      let g ← s.formulaWithin bound right
      return .disj f g

/-- The tree of a stored condition. -/
def formula (s : Store) (id : NodeId) : Except Fault Formula :=
  s.formulaWithin (s.size + 1) id

/-- The written form of a stored condition. -/
def print (s : Store) (id : NodeId) : Except Fault Bytes :=
  (s.formula id).map Formula.print

end Store

end PresenceTable
