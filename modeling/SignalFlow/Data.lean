import SignalFlow.Numeric.Binary

/-!
# Data and identifiers

Nodes, subgraphs and queues are numbered from zero in the order in which they came to be, and
the ports of a node in the order in which it declares them.

Nodes hand data of a few types to each other. A list type has another type for its items, so
that a node can take whole batches of what another node takes one by one.
-/

namespace SignalFlow

open SignalFlow.Numeric

/-- The place of a node among the nodes of its graph. -/
structure NodeId where
  index : Nat
deriving DecidableEq, Repr, Inhabited

/-- The place of a subgraph among the subgraphs of its graph. -/
structure SubgraphId where
  index : Nat
deriving DecidableEq, Repr, Inhabited

/-- The place of a queue among the queues of its graph. -/
structure QueueId where
  index : Nat
deriving DecidableEq, Repr, Inhabited

/-- A port of a node. -/
structure PortRef where
  node : NodeId
  port : Nat
deriving DecidableEq, Repr, Inhabited

def NodeId.text (id : NodeId) : String :=
  "NodeId(" ++ toString id.index ++ ")"

def SubgraphId.text (id : SubgraphId) : String :=
  "SubgraphId(" ++ toString id.index ++ ")"

/-- The type of the data that a port or a queue carries. -/
inductive DataType where
  | word
  | double
  | single
  | text
  | list (item : DataType)
deriving DecidableEq, Repr, Inhabited

def DataType.name : DataType → String
  | .word => "u64"
  | .double => "f64"
  | .single => "f32"
  | .text => "alloc::string::String"
  | .list item => "alloc::vec::Vec<" ++ item.name ++ ">"

def DataType.block : DataType := .list .single

/-- A piece of data. -/
inductive Datum where
  | word (n : UInt64)
  | double (x : Double)
  | single (x : Single)
  | text (s : String)
  | list (items : List Datum)
deriving Inhabited

end SignalFlow
