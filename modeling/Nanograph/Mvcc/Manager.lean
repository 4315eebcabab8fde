import Nanograph.Foundation.Machine
import Nanograph.Mvcc.Tree

/-!
# Versioned transactions and their manager

The transactions and the manager of `nanograph-btree/src/mvcc_transaction.rs`. A caller
holds on to a transaction after it has ended, so the manager here has all transactions
that were begun, beside the identifiers of those that are still registered. The machine
takes one operation at a time and keeps a log of the writes that were committed.
-/

namespace Nanograph.Mvcc

open Foundation BTree

/-- Transaction identifier. -/
structure TxId where
  raw : Nat
deriving DecidableEq

/-- Write operation in a transaction. -/
inductive WriteOp where
  | put (key value : Bytes)
  | delete (key : Bytes)

namespace WriteOp

def key : WriteOp → Bytes
  | .put key _ | .delete key => key

/-- The value that an operation leaves. -/
def value : WriteOp → Option Bytes
  | .put _ value => some value
  | .delete _ => none

end WriteOp

/-- The writes of a transaction by their keys. Every operation is under its own key. -/
structure WriteBuffer where
  operations : AList fun _ : Bytes => WriteOp
  keyed : ∀ key, ∀ operation ∈ operations.lookup key, operation.key = key

namespace WriteBuffer

def empty : WriteBuffer := ⟨∅, by simp⟩

/-- Buffer an operation in the place of an earlier one on its key. -/
def insert (buffer : WriteBuffer) (operation : WriteOp) : WriteBuffer where
  operations := buffer.operations.insert operation.key operation
  keyed := by
    intro key other found
    by_cases same : key = operation.key
    · subst same
      rw [AList.lookup_insert] at found
      cases found
      rfl
    · rw [AList.lookup_insert_ne same] at found
      exact buffer.keyed key other found

/-- The writes in the form in which the tree takes them. -/
def writes (buffer : WriteBuffer) : List (Bytes × Option Bytes) :=
  buffer.operations.entries.map fun entry => (entry.2.key, entry.2.value)

end WriteBuffer

/-- A transaction that reads at a snapshot and buffers its writes. -/
structure MvccTransaction where
  id : TxId
  snapshotTs : Nat
  writeBuffer : WriteBuffer
  active : Bool

namespace MvccTransaction

def new (id : TxId) (snapshotTs : Nat) : MvccTransaction := ⟨id, snapshotTs, .empty, true⟩

/-- The error of every operation on a transaction that has ended. -/
def notActive : BTreeError := .internal "Transaction is not active"

/-- Get a value: from the buffer, then from the tree at the snapshot. -/
def get (tx : MvccTransaction) (tree : MvccBPlusTree) (key : Bytes) :
    Except BTreeError (Option Bytes) :=
  if !tx.active then .error notActive
  else
    match tx.writeBuffer.operations.lookup key with
    | some operation => .ok operation.value
    | none => .ok (tree.get key tx.snapshotTs)

def buffer (tx : MvccTransaction) (operation : WriteOp) : Except BTreeError MvccTransaction :=
  if !tx.active then .error notActive
  else .ok { tx with writeBuffer := tx.writeBuffer.insert operation }

def put (tx : MvccTransaction) (key value : Bytes) : Except BTreeError MvccTransaction :=
  tx.buffer (.put key value)

def delete (tx : MvccTransaction) (key : Bytes) : Except BTreeError MvccTransaction :=
  tx.buffer (.delete key)

/-- Commit the transaction. It has ended then, whether the tree took its writes or not. -/
def commit (tx : MvccTransaction) (tree : MvccBPlusTree) (commitTs : Nat) :
    Except BTreeError Unit × MvccTransaction × MvccBPlusTree :=
  if !tx.active then (.error notActive, tx, tree)
  else
    let (result, tree) :=
      tree.atomicCommit tx.writeBuffer.writes tx.snapshotTs tx.id.raw commitTs
    (result, { tx with active := false }, tree)

/-- Roll the transaction back. -/
def rollback (tx : MvccTransaction) (tree : MvccBPlusTree) :
    Except BTreeError Unit × MvccTransaction × MvccBPlusTree :=
  if !tx.active then (.error notActive, tx, tree)
  else
    (.ok (), { tx with writeBuffer := .empty, active := false }, tree.rollbackVersions tx.id.raw)

end MvccTransaction

/-- The manager with the transactions that it has given out. -/
structure MvccTransactionManager where
  nextTxId : Nat
  nextCommitTs : Nat
  transactions : AList fun _ : TxId => MvccTransaction
  activeTransactions : List TxId
  tree : MvccBPlusTree
  gcCounter : Nat
  gcInterval : Nat

namespace MvccTransactionManager

def new (maxVersionsPerKey : Nat) : MvccTransactionManager where
  nextTxId := 1
  nextCommitTs := 1
  transactions := ∅
  activeTransactions := []
  tree := .new maxVersionsPerKey
  gcCounter := 0
  gcInterval := 100

/-- Set the least snapshot that a garbage collection goes by. -/
def updateMinSnapshotTs (manager : MvccTransactionManager) : MvccTransactionManager :=
  let snapshots := manager.activeTransactions.filterMap fun id =>
    (manager.transactions.lookup id).map (·.snapshotTs)
  { manager with
    tree := { manager.tree with minSnapshotTs := snapshots.min?.getD manager.nextCommitTs } }

/-- Begin a transaction at the commit timestamp before the next one. -/
def begin (manager : MvccTransactionManager) : TxId × MvccTransactionManager :=
  let id : TxId := ⟨manager.nextTxId⟩
  (id, updateMinSnapshotTs
    { manager with
      nextTxId := manager.nextTxId + 1
      transactions := manager.transactions.insert id (.new id (manager.nextCommitTs - 1))
      activeTransactions := id :: manager.activeTransactions })

/-- A transaction is no longer registered, and the least snapshot is set anew. -/
def unregister (manager : MvccTransactionManager) (tx : MvccTransaction) : MvccTransactionManager :=
  updateMinSnapshotTs
    { manager with
      transactions := manager.transactions.insert tx.id tx
      activeTransactions := manager.activeTransactions.filter (· ≠ tx.id) }

/-- Run a garbage collection. -/
def gc (manager : MvccTransactionManager) : MvccTransactionManager :=
  { manager with tree := manager.tree.gcVersions }

/-- The manager after the steps of a commit that come before its garbage collection. -/
def commitTransaction (manager : MvccTransactionManager) (tx : MvccTransaction) :
    Except BTreeError Unit × MvccTransactionManager :=
  let (result, tx, tree) := tx.commit manager.tree manager.nextCommitTs
  (result, unregister { manager with nextCommitTs := manager.nextCommitTs + 1, tree } tx)

/-- Count a commit, and run a garbage collection when there were enough of them. -/
def countCommit (manager : MvccTransactionManager) : MvccTransactionManager :=
  if manager.gcCounter + 1 ≥ manager.gcInterval then gc { manager with gcCounter := 0 }
  else { manager with gcCounter := manager.gcCounter + 1 }

def commit (manager : MvccTransactionManager) (tx : MvccTransaction) :
    Except BTreeError Unit × MvccTransactionManager :=
  let (result, manager) := manager.commitTransaction tx
  (result, manager.countCommit)

/-- Roll a transaction back. -/
def rollback (manager : MvccTransactionManager) (tx : MvccTransaction) :
    Except BTreeError Unit × MvccTransactionManager :=
  let (result, tx, tree) := tx.rollback manager.tree
  (result, unregister { manager with tree } tx)

end MvccTransactionManager

structure CommittedWrite where
  commitTs : Nat
  key : Bytes
  value : Option Bytes

/-- A manager and the writes that were committed, the last ones first. -/
structure History where
  manager : MvccTransactionManager
  log : List CommittedWrite

/-- The operations on a manager and its transactions. -/
inductive MvccCall where
  | begin
  | get (id : TxId) (key : Bytes)
  | put (id : TxId) (key value : Bytes)
  | delete (id : TxId) (key : Bytes)
  | commit (id : TxId)
  | rollback (id : TxId)
  | gc

/-- What the operations return. -/
inductive MvccAnswer where
  | begun (id : TxId)
  | found (value : Option Bytes)
  | done
  | failed (error : BTreeError)
  | unknown
deriving DecidableEq

/-- The answer of an operation without a result. -/
def MvccAnswer.ofResult : Except BTreeError Unit → MvccAnswer
  | .ok _ => .done
  | .error error => .failed error

namespace History

def new (maxVersionsPerKey : Nat) : History := ⟨.new maxVersionsPerKey, []⟩

def buffer (history : History) (id : TxId) (operation : WriteOp) : MvccAnswer × History :=
  match history.manager.transactions.lookup id with
  | none => (.unknown, history)
  | some tx =>
    match tx.buffer operation with
    | .error error => (.failed error, history)
    | .ok tx =>
      (.done, { history with
        manager := { history.manager with
          transactions := history.manager.transactions.insert id tx } })

/-- The writes of a transaction as they are logged. -/
def logged (commitTs : Nat) (tx : MvccTransaction) : List CommittedWrite :=
  tx.writeBuffer.writes.map fun write => ⟨commitTs, write.1, write.2⟩

/-- One operation. An identifier that was not given out is `unknown`. -/
def step : Machine History MvccCall MvccAnswer
  | history, .begin =>
    let (id, manager) := history.manager.begin
    (.begun id, { history with manager })
  | history, .get id key =>
    match history.manager.transactions.lookup id with
    | none => (.unknown, history)
    | some tx =>
      match tx.get history.manager.tree key with
      | .error error => (.failed error, history)
      | .ok value => (.found value, history)
  | history, .put id key value => history.buffer id (.put key value)
  | history, .delete id key => history.buffer id (.delete key)
  | history, .commit id =>
    match history.manager.transactions.lookup id with
    | none => (.unknown, history)
    | some tx =>
      match history.manager.commit tx with
      | (.ok _, manager) =>
        (.done, ⟨manager, logged history.manager.nextCommitTs tx ++ history.log⟩)
      | (.error error, manager) => (.failed error, { history with manager })
  | history, .rollback id =>
    match history.manager.transactions.lookup id with
    | none => (.unknown, history)
    | some tx =>
      let (result, manager) := history.manager.rollback tx
      (.ofResult result, { history with manager })
  | history, .gc => (.done, { history with manager := history.manager.gc })

/-- The value of a key that was committed last at or before a timestamp. -/
def valueAt (log : List CommittedWrite) (key : Bytes) (timestamp : Nat) : Option Bytes :=
  (log.find? fun write => write.key = key ∧ write.commitTs ≤ timestamp).bind (·.value)

def lastValue (log : List CommittedWrite) (key : Bytes) : Option Bytes :=
  (log.find? fun write => write.key = key).bind (·.value)

end History

end Nanograph.Mvcc
