import Nanograph.Util.Codec

/-!
# Types of the consensus layer

The types of `nanograph-raft/src/types.rs` and the ones of openraft they instantiate. Indices
and terms are 64-bit numbers. The membership of a cluster is handed on without being looked
at, so its type is a parameter.
-/

namespace Nanograph.Raft

open Foundation

/-- Identifier of a node. -/
structure NodeId where
  raw : Nat
deriving DecidableEq, Encodable

/-- The position of an entry in the log, with the term of its leader. -/
structure LogId where
  term : Nat
  index : Nat
deriving DecidableEq, Encodable

/-- A granted vote. -/
structure Vote where
  term : Nat
  votedFor : Option NodeId
  committed : Bool
deriving DecidableEq, Encodable

/-- The vote for a node in a term, not committed. -/
def Vote.new (term : Nat) (node : NodeId) : Vote := ⟨term, some node, false⟩

/-- An operation on the data of a shard. -/
inductive Operation where
  | put (key value : Bytes)
  | delete (key : Bytes)
  | batch (operations : List Operation)

/-- What an operation that was applied answers. -/
structure OperationResponse where
  success : Bool
  value : Option Bytes
  error : Option String

/-- What an entry of the log carries. -/
inductive EntryPayload (M : Type) where
  | blank
  | normal (operation : Operation)
  | membership (membership : M)

/-- An entry of the log. -/
structure Entry (P : Type) where
  logId : LogId
  payload : P
deriving DecidableEq, Encodable

/-- The membership and the entry that brought it. -/
structure StoredMembership (M : Type) where
  logId : Option LogId
  membership : M
deriving DecidableEq, Encodable

/-- What a snapshot says about itself. -/
structure SnapshotMeta (M : Type) where
  lastLogId : Option LogId
  lastMembership : StoredMembership M
  snapshotId : List Char
deriving DecidableEq, Encodable

/-- An error of input or output. -/
inductive IoError where
  | unexpectedEof
  | invalidData (message : String)
  | other
deriving DecidableEq

end Nanograph.Raft
