import Nanograph.BTree.Calls
import Nanograph.BTree.WalRecord
import Nanograph.Kvt.Types

/-!
# The B+Tree key-value store

The store of `nanograph-btree/src/kvstore.rs` with its shards, logs and
transactions, and the transactions of `nanograph-btree/src/transaction.rs`. A
shard is a tree and a log. A transaction buffers its writes and refers to the tree
of the shard it was begun on, which later calls keep changing.

A log is the list of records appended to it. It is kept in memory for a shard of
`create_shard`, and in a directory of the file system for a shard of
`create_shard_with_config`, where a later store finds it again. Metrics and the
log position a shard was flushed to are left out: nothing here reads them.
-/

namespace Nanograph.BTree

open BPlusTree Foundation Kvt

/-- Write operation in a transaction. -/
inductive WriteOp where
  | put (key value : Bytes)
  | delete (key : Bytes)

/-- B+Tree transaction with buffered writes. `tree` numbers the tree it refers to. -/
structure BTreeTransaction where
  tree : Nat
  writeBuffer : AList fun _ : Bytes => WriteOp
  active : Bool

/-- A record of a log. -/
structure WalEntry where
  kind : Nat
  payload : Bytes

/-- Where the log of a shard is kept. -/
inductive ShardWal where
  | memory (entries : List WalEntry)
  | directory (path : String)

/-- Shard data: the tree, the number of the tree, and the log. -/
structure ShardData where
  tree : BPlusTree Bytes Bytes
  number : Nat
  wal : Option ShardWal

/-- Storage configuration of a shard. -/
structure BTreeStorageConfig where
  dataDir : String
  walDir : String
  order : Nat

/-- The key-value store, and the logs in the directories of its file system. -/
structure BTreeKeyValueStore where
  shards : AList fun _ : ShardId => ShardData
  transactions : AList fun _ : TransactionId => BTreeTransaction
  nextTxId : Nat
  config : BPlusTreeConfig
  walEnabled : Bool
  nextTree : Nat
  files : AList fun _ : String => List WalEntry

/-- Every way a call on the store can end without a result. -/
inductive StoreFault where
  | error (error : KeyValueError)
  | panicked
  | diverged
deriving DecidableEq

def BTreeError.text : BTreeError → String
  | .nodeNotFound => "Node not found"
  | .invalidOperation message => s!"Invalid operation: {message}"
  | .internal message => s!"Internal error: {message}"

def StoreFault.ofTree : Fault → StoreFault
  | .error failure => .error (.storageCorruption failure.text)
  | .panicked => .panicked
  | .diverged => .diverged

abbrev StoreM := EStateM StoreFault BTreeKeyValueStore

namespace BTreeKeyValueStore

/-- A store without shards over a file system. -/
def start (config : BPlusTreeConfig) (walEnabled : Bool)
    (files : AList fun _ : String => List WalEntry) : BTreeKeyValueStore where
  shards := ∅
  transactions := ∅
  nextTxId := 1
  config := config
  walEnabled := walEnabled
  nextTree := 0
  files := files

def fail {α : Type} (error : KeyValueError) : StoreM α := throw (.error error)

def getShard (shard : ShardId) : StoreM ShardData := do
  match (← MonadState.get).shards.lookup shard with
  | some data => pure data
  | none => fail (.shardNotFound shard)

def putShard (store : BTreeKeyValueStore) (shard : ShardId) (data : ShardData) :
    BTreeKeyValueStore :=
  { store with shards := store.shards.insert shard data }

def onTree {α : Type} (shard : ShardId) (operation : TreeM Bytes Bytes α) : StoreM α := do
  let data ← getShard shard
  match operation data.tree with
  | .ok value tree =>
    modify (·.putShard shard { data with tree })
    pure value
  | .error fault tree =>
    modify (·.putShard shard { data with tree })
    throw (.ofTree fault)

/-- The records of a log. -/
def entriesOf (store : BTreeKeyValueStore) : ShardWal → List WalEntry
  | .memory entries => entries
  | .directory path => (store.files.lookup path).getD []

/-- Append a record to the log of a shard, when it has one. -/
def appendWal (shard : ShardId) (kind : WalRecordKind) (payload : Bytes) : StoreM Unit := do
  let data ← getShard shard
  let entry : WalEntry := { kind := kind.toU16, payload }
  match data.wal with
  | none => pure ()
  | some (.memory entries) =>
    modify (·.putShard shard { data with wal := some (.memory (entries ++ [entry])) })
  | some (.directory path) =>
    modify fun store =>
      { store with files := store.files.insert path (store.entriesOf (.directory path) ++ [entry]) }

/-- Write a log record for a put operation. -/
def walWritePut (shard : ShardId) (key value : Bytes) : StoreM Unit := do
  if (← MonadState.get).walEnabled then
    appendWal shard .put (encodePut key value)

/-- Write a log record for a delete operation. -/
def walWriteDelete (shard : ShardId) (key : Bytes) : StoreM Unit := do
  if (← MonadState.get).walEnabled then
    appendWal shard .delete (encodeDelete key)

/-- Replay one log record into a tree. A failed delete is ignored. -/
def replayEntry (entry : WalEntry) (tree : BPlusTree Bytes Bytes) :
    Except StoreFault (BPlusTree Bytes Bytes) :=
  match WalRecordKind.fromU16 entry.kind with
  | some .put =>
    match decodePut entry.payload with
    | .error error =>
      .error (.error (.storageCorruption s!"Failed to decode put: {error.text}"))
    | .ok (key, value) =>
      match BPlusTree.insert key value tree with
      | .ok _ changed => .ok changed
      | .error fault _ => .error (.ofTree fault)
  | some .delete =>
    match decodeDelete entry.payload with
    | .error error =>
      .error (.error (.storageCorruption s!"Failed to decode delete: {error.text}"))
    | .ok key =>
      match BPlusTree.delete key tree with
      | .ok _ changed => .ok changed
      | .error (.error _) changed => .ok changed
      | .error fault _ => .error (.ofTree fault)
  | some .clear =>
    match BPlusTree.clear tree with
    | .ok _ changed => .ok changed
    | .error fault _ => .error (.ofTree fault)
  | some .checkpoint => .ok tree
  | none => .ok tree

/-- Replay a log into a tree. -/
def replay : List WalEntry → BPlusTree Bytes Bytes → Except StoreFault (BPlusTree Bytes Bytes)
  | [], tree => .ok tree
  | entry :: rest, tree =>
    match replayEntry entry tree with
    | .ok changed => replay rest changed
    | .error fault => .error fault

/-- Recover a shard from its log: the tree after replaying all records. The log is
that of the shard the store knows under the identifier. -/
def recoverFromWal (shard : ShardId) (tree : BPlusTree Bytes Bytes) :
    StoreM (BPlusTree Bytes Bytes) := do
  if (← MonadState.get).walEnabled then
    let data ← getShard shard
    match data.wal with
    | none => pure tree
    | some wal =>
      match replay ((← MonadState.get).entriesOf wal) tree with
      | .ok recovered => pure recovered
      | .error fault => throw fault
  else
    pure tree

/-- Use up a number for a new tree. -/
def allocateTree : StoreM Nat :=
  modifyGet fun store => (store.nextTree, { store with nextTree := store.nextTree + 1 })

/-- Open the log of a directory, if logs are enabled: a directory without one gets an
empty log. -/
def openWal (path : String) : StoreM (Option ShardWal) :=
  modifyGet fun store =>
    if store.walEnabled then
      (some (.directory path),
        { store with files := store.files.insert path (store.entriesOf (.directory path)) })
    else
      (none, store)

/-- Create a shard over a file system. The log is replayed before the shard is stored. -/
def createShardWithConfig (shard : ShardId) (config : BTreeStorageConfig) : StoreM Unit := do
  let tree := BPlusTree.new { maxKeys := config.order * 2, minKeys := config.order }
  let number ← allocateTree
  let wal ← openWal config.walDir
  let tree ← recoverFromWal shard tree
  modify (·.putShard shard { tree, number, wal })

/-- Create a shard whose log is in a file system in memory. The shard is stored before
its log, still empty, is replayed. -/
def createShard (shard : ShardId) : StoreM Unit := do
  let store ← MonadState.get
  let tree := BPlusTree.new store.config
  let number ← allocateTree
  let wal := if store.walEnabled then some (.memory []) else none
  modify (·.putShard shard { tree, number, wal })
  let tree ← recoverFromWal shard tree
  modify (·.putShard shard { tree, number, wal })

def dropShard (shard : ShardId) : StoreM Unit :=
  modify fun store => { store with shards := store.shards.erase shard }

def get (shard : ShardId) (key : Bytes) : StoreM (Option Bytes) :=
  onTree shard (BPlusTree.get key)

/-- Write a key: to the log first, then to the tree. -/
def put (shard : ShardId) (key value : Bytes) : StoreM Unit := do
  walWritePut shard key value
  let _exists ← onTree shard (BPlusTree.get key)
  onTree shard (BPlusTree.insert key value)

/-- Delete a key: from the log first, then from the tree. -/
def delete (shard : ShardId) (key : Bytes) : StoreM Bool := do
  walWriteDelete shard key
  onTree shard (BPlusTree.delete key)

/-- Clear a shard: the tree first, then a record in the log. -/
def clear (shard : ShardId) : StoreM Unit := do
  onTree shard BPlusTree.clear
  appendWal shard .clear encodeClear

/-- Write a checkpoint marker to the log. -/
def checkpointShard (shard : ShardId) : StoreM Unit := do
  let _data ← getShard shard
  if (← MonadState.get).walEnabled then
    appendWal shard .checkpoint encodeCheckpoint

/-- The first shard of the store. The order of the shards is that of a hash map, so
which one is first is an input. -/
def firstShard (store : BTreeKeyValueStore) (first : ShardId) : Option ShardData :=
  (store.shards.lookup first).or (store.shards.entries.head?.map (·.2))

def beginTransaction (first : ShardId) : StoreM TransactionId := do
  let store ← MonadState.get
  match store.firstShard first with
  | none => fail (.storageCorruption "No shards available for transaction")
  | some data =>
    let txId : TransactionId := ⟨store.nextTxId⟩
    let tx : BTreeTransaction := { tree := data.number, writeBuffer := ∅, active := true }
    set { store with
      nextTxId := store.nextTxId + 1
      transactions := store.transactions.insert txId tx }
    pure txId

/-- The shard whose tree has a number. -/
def shardOfTree (store : BTreeKeyValueStore) (number : Nat) : Option ShardId :=
  (store.shards.entries.find? fun entry => entry.2.number = number).map (·.1)

/-- The shard whose tree a transaction refers to, if the tree still exists. -/
def getTree (tx : BTreeTransaction) : StoreM ShardId := do
  match (← MonadState.get).shardOfTree tx.tree with
  | some shard => pure shard
  | none => fail (.storageCorruption "Tree no longer exists")

/-- A transaction by its identifier. An identifier that was never handed out is none. -/
def transaction (txId : TransactionId) : StoreM BTreeTransaction := do
  match (← MonadState.get).transactions.lookup txId with
  | some tx => pure tx
  | none => fail (.storageCorruption "no such transaction")

def putTransaction (txId : TransactionId) (tx : BTreeTransaction) : StoreM Unit :=
  modify fun store => { store with transactions := store.transactions.insert txId tx }

/-- Read a key in a transaction: its own buffered write, or the tree. -/
def txGet (txId : TransactionId) (key : Bytes) : StoreM (Option Bytes) := do
  let tx ← transaction txId
  match tx.writeBuffer.lookup key with
  | some (.put _ value) => pure (some value)
  | some (.delete _) => pure none
  | none =>
    let shard ← getTree tx
    onTree shard (BPlusTree.get key)

/-- Buffer a write, which an ended transaction ignores. -/
def bufferWrite (txId : TransactionId) (key : Bytes) (operation : WriteOp) : StoreM Unit := do
  let tx ← transaction txId
  if tx.active then
    putTransaction txId { tx with writeBuffer := tx.writeBuffer.insert key operation }

def txPut (txId : TransactionId) (key value : Bytes) : StoreM Unit :=
  bufferWrite txId key (.put key value)

def txDelete (txId : TransactionId) (key : Bytes) : StoreM Bool := do
  bufferWrite txId key (.delete key)
  pure true

/-- Apply buffered writes to the tree of a shard. -/
def applyWrites (shard : ShardId) : List WriteOp → StoreM Unit
  | [] => pure ()
  | .put key value :: rest => do
    onTree shard (BPlusTree.insert key value)
    applyWrites shard rest
  | .delete key :: rest => do
    let _deleted ← onTree shard (BPlusTree.delete key)
    applyWrites shard rest

/-- Commit a transaction: apply its writes to the tree. No record is written to the log. -/
def commit (txId : TransactionId) : StoreM Unit := do
  let tx ← transaction txId
  if tx.active then
    let shard ← getTree tx
    applyWrites shard (tx.writeBuffer.entries.map (·.2))
    putTransaction txId { tx with active := false }
  else
    fail .writeConflict

/-- Roll a transaction back: drop its writes. -/
def rollback (txId : TransactionId) : StoreM Unit := do
  let tx ← transaction txId
  if tx.active then
    putTransaction txId { tx with writeBuffer := ∅, active := false }
  else
    fail .writeConflict

end BTreeKeyValueStore

end Nanograph.BTree
