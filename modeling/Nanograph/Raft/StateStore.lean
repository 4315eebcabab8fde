import Nanograph.Kvt.Shard
import Nanograph.Kvt.Types
import Nanograph.Raft.Snapshot

/-!
# The state of a consensus group

`nanograph-raft/src/storage/statestore.rs`: entries of the log are applied to a shard, and the
shard is written to and restored from snapshot files. The store keeps two entries of its own
in the shard, its state and the metadata of its last snapshot.

A snapshot file is written to the place of an older one with the same name, and is read as it
was written.
-/

namespace Nanograph.Raft

open Foundation Util Kvt

mutual

def applyOperation (shard : Shard) : Operation → Shard
  | .put key value => shard.put key value
  | .delete key => shard.delete key
  | .batch operations => applyOperations shard operations

/-- Apply operations one after the other. -/
def applyOperations (shard : Shard) : List Operation → Shard
  | [] => shard
  | operation :: rest => applyOperations (applyOperation shard operation) rest

end

/-- The bytes of a text of ASCII characters. -/
def asBytes (text : List Char) : Bytes := text.map fun char => UInt8.ofNat char.toNat

/-- A shard identifier as text. -/
def displayShard (shardId : ShardId) : List Char :=
  "Shard(".toList ++ (Nat.toDigits 16 shardId.raw).map Char.toUpper ++ ")".toList

/-- What is kept about a group besides its data. -/
structure RaftState (M : Type) where
  vote : Option Vote
  lastApplied : Option LogId
  lastMembership : StoredMembership M
  lastSnapshot : Option LogId

/-- How the store writes what it keeps. -/
structure StateCodecs (M : Type) where
  snapshotMeta : Codec (SnapshotMeta M)
  raftState : RaftState M → Bytes
  currentSnapshot : List Char × SnapshotMeta M → Bytes

/-- The state of a group: its shard, its snapshot files and its state. -/
structure ConsensusStateStore (M : Type) where
  shardId : ShardId
  shardStorage : Shard
  snapshotConfig : SnapshotConfig
  snapshotFiles : List Char → Option Bytes
  raftState : RaftState M
  snapshotMeta : Option (List Char × SnapshotMeta M)

namespace ConsensusStateStore

variable {M : Type}

/-- A store over a shard, with nothing applied. -/
def new [Inhabited M] (shardId : ShardId) (shardStorage : Shard)
    (snapshotConfig : SnapshotConfig) : ConsensusStateStore M where
  shardId
  shardStorage
  snapshotConfig
  snapshotFiles _ := none
  raftState := ⟨none, none, ⟨none, default⟩, none⟩
  snapshotMeta := none

/-- The key under which the state is kept. -/
def raftStateKey (store : ConsensusStateStore M) : Bytes :=
  asBytes ("raft_state_".toList ++ displayShard store.shardId)

/-- The key under which the metadata of the last snapshot is kept. -/
def snapshotMetaKey (store : ConsensusStateStore M) : Bytes :=
  asBytes ("snapshot_meta_".toList ++ displayShard store.shardId)

/-- The last applied position and membership. -/
def appliedState (store : ConsensusStateStore M) : Option LogId × StoredMembership M :=
  (store.raftState.lastApplied, store.raftState.lastMembership)

/-- What an entry does before it is marked as applied. -/
def applyPayload (store : ConsensusStateStore M) (entry : Entry (EntryPayload M)) :
    ConsensusStateStore M :=
  match entry.payload with
  | .normal operation =>
    { store with shardStorage := applyOperation store.shardStorage operation }
  | .membership membership =>
    { store with
      raftState := { store.raftState with lastMembership := ⟨some entry.logId, membership⟩ } }
  | .blank => store

/-- Mark an entry as applied. -/
def setLastApplied (store : ConsensusStateStore M) (entry : Entry (EntryPayload M)) :
    ConsensusStateStore M :=
  { store with raftState := { store.raftState with lastApplied := some entry.logId } }

variable (codecs : StateCodecs M)

/-- Write the state to the shard. -/
def saveState (store : ConsensusStateStore M) : ConsensusStateStore M :=
  { store with
    shardStorage := store.shardStorage.put store.raftStateKey (codecs.raftState store.raftState) }

/-- Keep the metadata of a snapshot, in the shard and in memory. -/
def saveSnapshotMeta (store : ConsensusStateStore M) (metadata : SnapshotMeta M) :
    ConsensusStateStore M :=
  { store with
    shardStorage := store.shardStorage.put store.snapshotMetaKey
      (codecs.currentSnapshot (metadata.snapshotId, metadata))
    snapshotMeta := some (metadata.snapshotId, metadata) }

def apply (store : ConsensusStateStore M) (entries : List (Entry (EntryPayload M))) :
    ConsensusStateStore M :=
  (entries.foldl (fun store entry => (store.applyPayload entry).setLastApplied entry)
    store).saveState codecs

/-- Take over the shard and the position of a snapshot. -/
def completeInstall (store : ConsensusStateStore M) (metadata : SnapshotMeta M) (shard : Shard) :
    ConsensusStateStore M :=
  let store := { store with
    shardStorage := shard
    raftState := { store.raftState with
      lastApplied := metadata.lastLogId
      lastMembership := metadata.lastMembership } }
  (store.saveState codecs).saveSnapshotMeta codecs metadata

variable (digests : Digests) (compressors : Compressors)

/-- Write the records of one block after the other into a shard. The end of the file ends the
loop, wherever it is found. -/
def installBlocks : Nat → SnapshotReader → Shard → Except Fault Unit × Shard
  | 0, _, shard => (.error .panic, shard)
  | fuel + 1, reader, shard =>
    match reader.nextBlock digests compressors with
    | .ok (records, next) => installBlocks fuel next (shard.putAll records)
    | .error (.io .unexpectedEof) => (.ok (), shard)
    | .error fault => (.error fault, shard)

/-- Restore a shard from a snapshot file. Every block is at least as long as its header, so
there are fewer blocks than bytes. -/
def installSnapshot (store : ConsensusStateStore M) (metadata : SnapshotMeta M)
    (snapshot : Bytes) : Except Fault Unit × ConsensusStateStore M :=
  let store := { store with
    snapshotFiles := Function.update store.snapshotFiles metadata.snapshotId (some snapshot) }
  match SnapshotReader.openFile codecs.snapshotMeta digests snapshot with
  | .error _ => (.error (.io .other), store)
  | .ok (reader, _) =>
    match installBlocks digests compressors (reader.rest.length + 1) reader Shard.empty with
    | (.error fault, shard) => (.error fault, { store with shardStorage := shard })
    | (.ok (), shard) => (.ok (), store.completeInstall codecs metadata shard)

/-- The metadata of a snapshot of a store. Its name is made of the last applied position and
the time. -/
def snapshotMetadata (nameOf : Option LogId → List Char) (store : ConsensusStateStore M) :
    SnapshotMeta M where
  lastLogId := store.raftState.lastApplied
  lastMembership := store.raftState.lastMembership
  snapshotId := nameOf store.raftState.lastApplied

/-- Write the records of a shard to a snapshot file. -/
def writeSnapshot (config : SnapshotConfig) (metadata : SnapshotMeta M) (records : List Record) :
    Except IoError Bytes := do
  let writer ← (SnapshotWriter.new codecs.snapshotMeta digests config metadata).writeAll
    digests compressors records
  writer.finish digests compressors

/-- Write a snapshot of the shard. What a failed writer leaves of the file is not followed. -/
def buildSnapshot (nameOf : Option LogId → List Char) (store : ConsensusStateStore M) :
    Except IoError (SnapshotMeta M × Bytes) × ConsensusStateStore M :=
  let metadata := store.snapshotMetadata nameOf
  match writeSnapshot codecs digests compressors store.snapshotConfig metadata
      store.shardStorage.entries with
  | .error _ => (.error .other, store)
  | .ok file =>
    let store := { store with
      snapshotFiles := Function.update store.snapshotFiles metadata.snapshotId (some file) }
    match SnapshotReader.openFile codecs.snapshotMeta digests file with
    | .error _ => (.error .other, store)
    | .ok _ =>
      let store := match metadata.lastLogId with
        | some logId =>
          { store with raftState := { store.raftState with lastSnapshot := some logId } }
        | none => store
      (.ok (metadata, file), store.saveSnapshotMeta codecs metadata)

end ConsensusStateStore

end Nanograph.Raft
