import Nanograph.Foundation.Bytes
import Nanograph.Foundation.Range

/-!
# The key-value interface

Identifiers, ranges and errors of `nanograph-kvt` that the storage engines share.
Only the errors that a modelled function returns are listed.
-/

namespace Nanograph.Kvt

open Foundation

/-- Identifier of a physical shard. -/
structure ShardId where
  raw : Nat
deriving DecidableEq

/-- Identifier of a transaction. -/
structure TransactionId where
  raw : Nat
deriving DecidableEq

/-- A range of keys to scan. -/
structure KeyRange where
  start : Bound Bytes
  last : Bound Bytes
  limit : Option Nat
  reverse : Bool

namespace KeyRange

/-- A range with the given bounds, without limit. -/
def new (start last : Bound Bytes) : KeyRange := ⟨start, last, none, false⟩

/-- Whether a key is within the bounds. -/
def contains (range : KeyRange) (key : Bytes) : Bool :=
  range.start.fromStart key && range.last.upToEnd key

end KeyRange

/-- The errors of a key-value store. -/
inductive KeyValueError where
  | shardNotFound (shard : ShardId)
  | writeConflict
  | snapshotExpired
  | storageCorruption (message : String)
deriving DecidableEq

end Nanograph.Kvt
