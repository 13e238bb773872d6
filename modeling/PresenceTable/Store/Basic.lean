/-
  PresenceTable.Store.Basic
  ─────────────────────────
  **THE STORE OF CONDITIONS.**

  All conditions of a run share one store.  A node names its operands by
  their ids; ids are given in the order in which the nodes first occur, and
  a node that is stored already keeps its id.  The first node of every
  store is the constant `bot`.

  Ids are 32-bit numbers that anyone may pass to the store, so an operand
  need not exist when a node is made, and everything that follows ids says
  by a `Fault` when it meets one that does not.

  Main results:
    * `Node.key_injective` — different nodes are told apart by their order;
    * `node?_intern_self` — a new node is found under the id it was given.
-/
import Std.Data.ExtTreeMap
import PresenceTable.Formula.Basic

namespace PresenceTable

/-- The name of a stored condition. -/
abbrev NodeId := UInt32

/-- One level of a stored condition. -/
inductive Node where
  | bot
  | var (name : Name)
  | neg (operand : NodeId)
  | conj (left right : NodeId)
  | disj (left right : NodeId)
  deriving DecidableEq, Repr

namespace Node

/-- Whether a node is a variable. -/
def isVar : Node → Bool
  | .var _ => true
  | _ => false

/-- What the nodes are ordered by.  The order serves to find a node and
says nothing about conditions. -/
def key : Node → List Nat
  | .bot => [0]
  | .var n => 1 :: n.val.map UInt8.toNat
  | .neg operand => [2, operand.toNat]
  | .conj left right => [3, left.toNat, right.toNat]
  | .disj left right => [4, left.toNat, right.toNat]

theorem key_injective {m n : Node} (h : m.key = n.key) : m = n := by
  cases m <;> cases n <;> simp [key, UInt32.toNat_inj] at h ⊢
  case var.var m n =>
    exact Subtype.ext ((List.map_inj_right fun _ _ => UInt8.toNat_inj.1).1 h)
  all_goals exact h

instance : Ord Node := ⟨compareOn key⟩

instance : Std.TransOrd Node := inferInstanceAs (Std.TransCmp (compareOn key))

instance : Std.LawfulEqOrd Node where
  eq_of_compare h := key_injective (Std.compare_eq_iff_eq.1 h)

end Node

/-- What can be wrong with a request to the store. -/
inductive Fault where
  /-- No node has the id. -/
  | unknownId
  /-- The condition has itself as a part. -/
  | endless
  /-- A variable is to be made without a name. -/
  | emptyName
  deriving DecidableEq, Repr

/-- The wording of a fault. -/
def Fault.message : Fault → Bytes
  | .unknownId => "FormulaFactory::node: invalid FormulaId"
  | .endless => "formula contains itself"
  | .emptyName => "FormulaFactory::make_variable: empty name"

/-- Nodes by their ids, ids by their nodes, and the number of variables. -/
structure Store where
  nodes : Array Node
  index : Std.ExtTreeMap Node NodeId
  variableCount : Nat

namespace Store

/-- The id of the constant `bot`. -/
def botId : NodeId := 0

/-- The store that holds the constant `bot` only. -/
def empty : Store :=
  { nodes := #[.bot]
    index := (∅ : Std.ExtTreeMap Node NodeId).insert .bot botId
    variableCount := 0 }

instance : Inhabited Store := ⟨empty⟩

/-- The number of nodes. -/
def size (s : Store) : Nat := s.nodes.size

/-- The node with an id. -/
def node? (s : Store) (id : NodeId) : Option Node := s.nodes[id.toNat]?

/-- The id of a node, which is stored if it was not before. -/
def intern (s : Store) (n : Node) : NodeId × Store :=
  match s.index[n]? with
  | some id => (id, s)
  | none =>
    let id := UInt32.ofNat s.nodes.size
    (id,
      { nodes := s.nodes.push n
        index := s.index.insert n id
        variableCount := s.variableCount + if n.isVar then 1 else 0 })

/-- The id of a variable. -/
def var (s : Store) (name : Bytes) : Except Fault (NodeId × Store) :=
  if h : name ≠ [] then .ok (s.intern (.var ⟨name, h⟩)) else .error .emptyName

/-- The id of a condition, whose parts are stored from the leaves up and
from left to right. -/
def add (s : Store) : Formula → NodeId × Store
  | .bot => s.intern .bot
  | .var n => s.intern (.var n)
  | .neg f =>
    let (operand, s) := s.add f
    s.intern (.neg operand)
  | .conj f g =>
    let (left, s) := s.add f
    let (right, s) := s.add g
    s.intern (.conj left right)
  | .disj f g =>
    let (left, s) := s.add f
    let (right, s) := s.add g
    s.intern (.disj left right)

/-- The store with all of these conditions. -/
def addAll (s : Store) (fs : List Formula) : Store := fs.foldl (fun s f => (s.add f).2) s

theorem addAll_append (s : Store) (fs gs : List Formula) :
    s.addAll (fs ++ gs) = (s.addAll fs).addAll gs :=
  List.foldl_append

theorem node?_intern_self (s : Store) (n : Node) (hnew : s.index[n]? = none)
    (hsize : s.size < UInt32.size) : (s.intern n).2.node? (s.intern n).1 = some n := by
  have hid : (UInt32.ofNat s.nodes.size).toNat = s.nodes.size :=
    UInt32.toNat_ofNat_of_lt' hsize
  simp [intern, hnew, node?, hid]

end Store

end PresenceTable
