import Nanograph.Core.Object
import Nanograph.Foundation.BigEndian

/-!
# How the keys of a table are spread over its shards

The partitioners of `nanograph-core/src/object/shard.rs` and the sharding of a table. A
division by zero panics.
-/

namespace Nanograph.Core

open Foundation

/-- Hash function of a partitioner. -/
inductive HashFunction where
  | murmur3
  | xxHash
  | cityHash

/-- All of them are FNV-1a for the time being. -/
def HashFunction.hash (_ : HashFunction) (key : Bytes) : UInt64 :=
  key.foldl (fun hash byte => (hash ^^^ byte.toUInt64) * 0x100000001b3) 0xcbf29ce484222325

/-- How keys are assigned to shards. -/
inductive Partitioner where
  | hash (hashFn : HashFunction)
  | range (ranges : List (Bytes × Bytes))
  | list (keys : List (List Bytes))
  | time (intervalSeconds : UInt64)

/-- The position of a shard in a list of them, or the first one. -/
def shardAt (found : Option Nat) : ShardNumber := ⟨UInt32.ofNat (found.getD 0)⟩

/-- The shard of a point in time; the first eight bytes of a key are a signed number. -/
def timeShard (intervalSeconds : UInt64) (key : Bytes) (shardCount : UInt32) : Option ShardNumber :=
  if 8 ≤ key.length then
    let timestamp := Int.bmod (ofBeBytes (key.take 8)) (2 ^ 64)
    let interval := Int.bmod intervalSeconds.toNat (2 ^ 64)
    if interval = 0 ∨ shardCount = 0 ∨ (timestamp = -2 ^ 63 ∧ interval = -1) then none
    else some ⟨UInt32.ofNat ((timestamp.tdiv interval).tmod shardCount.toNat).natAbs⟩
  else some ⟨0⟩

/-- The number of the shard that a key belongs to. -/
def Partitioner.getShardNumber (partitioner : Partitioner) (key : Bytes)
    (shardCount : UInt32) : Option ShardNumber :=
  match partitioner with
  | .hash hashFn =>
    if shardCount = 0 then none
    else some ⟨UInt32.ofNat ((hashFn.hash key).toNat % shardCount.toNat)⟩
  | .range ranges =>
    some (shardAt (ranges.findIdx? fun range => range.1 ≤ key ∧ key < range.2))
  | .list keys => some (shardAt (keys.findIdx? fun keyList => key ∈ keyList))
  | .time intervalSeconds => timeShard intervalSeconds key shardCount

inductive TableSharding where
  | single
  | multiple (shardCount : UInt32) (partitioner : Partitioner) (replicationFactor : Nat)

namespace TableSharding

/-- How many shards are created for a table. -/
def createdShards : TableSharding → Nat
  | single => 1
  | multiple shardCount _ _ => shardCount.toNat

/-- The number of the shard that a key belongs to. -/
def shardNumber : TableSharding → Bytes → Option ShardNumber
  | single, _ => some ⟨0⟩
  | multiple shardCount partitioner _, key => partitioner.getShardNumber key shardCount

end TableSharding

end Nanograph.Core
