import Nanograph.Lsm.Map

/-!
# Transactions

The transactions of `nanograph-lsm/src/transaction.rs` over the engine of one shard.
A transaction reads its own writes first and then the engine at its snapshot. The
memtable has one version of a key only, and the tables have no timestamps, so a
write or a flush can change what a transaction reads.
-/

namespace Nanograph.Lsm

open Foundation Kvt

/-- Write operation in a transaction. -/
inductive WriteOp where
  | put (key value : Bytes)
  | delete (key : Bytes)
deriving DecidableEq

namespace WriteOp

def key : WriteOp → Bytes
  | .put key _ | .delete key => key

/-- The value that an operation leaves. -/
def value : WriteOp → Option Bytes
  | .put _ value => some value
  | .delete _ => none

/-- The call that applies an operation when its transaction commits. -/
def toCall (commitTs : Int) : WriteOp → EngineCall
  | .put key value => .putCommitted key value commitTs
  | .delete key => .deleteCommitted key commitTs

end WriteOp

/-- A transaction. The snapshot is a time in milliseconds, the deadline an instant. -/
structure LSMTransaction where
  id : TransactionId
  snapshotTs : Int
  writeBuffer : AList fun _ : ShardId => List WriteOp
  committed : Bool
  rolledBack : Bool
  deadline : Option Nat

namespace LSMTransaction

def new (id : TransactionId) (snapshotTs : Int) (deadline : Option Nat) : LSMTransaction :=
  ⟨id, snapshotTs, ∅, false, false, deadline⟩

/-- Check that the transaction has not ended and is not expired. -/
def checkActive (tx : LSMTransaction) (now : Nat) : Except KeyValueError Unit :=
  if tx.committed then .error .writeConflict
  else if tx.rolledBack then .error .writeConflict
  else
    match tx.deadline with
    | some deadline => if now > deadline then .error .snapshotExpired else .ok ()
    | none => .ok ()

/-- The last operation on a key in the buffer. -/
def getFromBuffer (tx : LSMTransaction) (table : ShardId) (key : Bytes) : Option WriteOp :=
  (tx.writeBuffer.lookup table).bind fun ops => ops.reverse.find? (·.key = key)

/-- Get a value: from the buffer, then from the store at the snapshot. -/
def get (tx : LSMTransaction) (now : Nat) (table : ShardId) (key : Bytes) :
    EngineM (Option Bytes) :=
  match tx.checkActive now with
  | .error cause => LSMTreeEngine.fail cause
  | .ok _ =>
    match tx.getFromBuffer table key with
    | some op => pure op.value
    | none => LSMTreeEngine.getAtSnapshot key tx.snapshotTs

def commitCalls (tx : LSMTransaction) (table : ShardId) (commitTs : Int) : List EngineCall :=
  ((tx.writeBuffer.lookup table).getD []).map (WriteOp.toCall commitTs)

end LSMTransaction

namespace LSMTreeEngine

variable {engine next : LSMTreeEngine} {key : Bytes} {snapshotTs : Int}

/-- The value of a key that is seen at a snapshot between two calls. -/
def seenAt (engine : LSMTreeEngine) (key : Bytes) (snapshotTs : Int) : Option Bytes :=
  (engine.memtable.getAtSnapshot key snapshotTs).elim
    (readTables engine.levels engine.files key) (·.value)

/-- The timestamp that a record gets in the memtable. -/
def stamp (engine : LSMTreeEngine) : WalRecord → Int
  | .putCommitted _ _ commitTs | .deleteCommitted _ commitTs => commitTs
  | _ => engine.clock

/-- Whether a call flushes the memtable. -/
def flushesOn (engine : LSMTreeEngine) (input : EngineCall) : Bool :=
  match input.record? with
  | some record =>
    decide ((engine.logged record).memtable.size ≥ (engine.logged record).options.memtableSize)
  | none => input = .flush

/-- A call leaves what is seen of a key at a snapshot as it is. If it flushes the memtable,
the newest value must be the one that is seen. If it only writes the key, the new value must
be the one that is seen in case the snapshot covers the write, and that of the tables must be
in case it does not. -/
def KeepsSeen (key : Bytes) (snapshotTs : Int) (engine : LSMTreeEngine)
    (input : EngineCall) : Prop :=
  if engine.flushesOn input then
    input.effect key (engine.valueOf key) = engine.seenAt key snapshotTs
  else
    ∀ record ∈ input.record?, ∀ write ∈ record.write?, write.1 = key →
      (if engine.stamp record ≤ snapshotTs then write.2
        else readTables engine.levels engine.files key) = engine.seenAt key snapshotTs

instance (key : Bytes) (snapshotTs : Int) (engine : LSMTreeEngine) (input : EngineCall) :
    Decidable (KeepsSeen key snapshotTs engine input) :=
  inferInstanceAs (Decidable (ite (engine.flushesOn input = true) (_ = _)
    (∀ record ∈ input.record?, ∀ write ∈ record.write?, write.1 = key → _ = _)))

/-- A read at a snapshot finds what is seen at it. -/
theorem getAtSnapshot_spec (sound : Sound engine) :
    getAtSnapshot key snapshotTs engine = .ok (engine.seenAt key snapshotTs) engine := by
  rw [getAtSnapshot, get_bind, seenAt, sound.settled, Option.bind_none]
  cases engine.memtable.getAtSnapshot key snapshotTs with
  | some entry => rfl
  | none =>
    simp only
    rw [bind_ok (run_lockLevels sound.ready),
      findInLevels_eq key sound.stored.written sound.ordered]
    rfl

theorem CompactionResult.memtable_eq {start : LSMTreeEngine}
    {result : EStateM.Result EngineFault LSMTreeEngine Unit}
    (isResult : CompactionResult start result) : (stateOf result).memtable = start.memtable := by
  cases isResult <;> rfl

/-- A flush leaves an empty memtable. -/
theorem memtable_flush (healthy : Healthy engine) :
    (stateOf (maybeFlushMemtable noFailure engine)).memtable = MemTable.new := by
  by_cases empty : engine.memtable.data = []
  · rw [(maybeFlushMemtable_empty healthy empty).2]
    rfl
  · obtain ⟨table, -, -, ends⟩ := maybeFlushMemtable_spec healthy empty
    rcases ends with ⟨next, isResult, ran⟩ | ⟨next, isResult, ran⟩
    · rw [ran]
      exact isResult.memtable_eq
    · rw [ran]
      exact isResult.memtable_eq

/-- What is seen behind a flush is the newest value. -/
theorem seenAt_of_flushed (sound : Sound next) (empty : next.memtable = MemTable.new) :
    next.seenAt key snapshotTs = next.valueOf key := by
  rw [valueOf_of_settled sound.settled, seenAt, empty]
  rfl

/-- What is seen behind a write. -/
theorem seenAt_logged {record : WalRecord} {written : Bytes} {value : Option Bytes}
    (writes : record.write? = some (written, value)) :
    (engine.logged record).seenAt key snapshotTs = if written = key then
        if engine.stamp record ≤ snapshotTs then value
        else readTables engine.levels engine.files key
      else engine.seenAt key snapshotTs := by
  have stored (key' : Bytes) (value' : Option Bytes) (commitTs : Int) :
      ((engine.memtable.store ⟨key', value', engine.memtable.sequence,
          some commitTs⟩).getAtSnapshot key snapshotTs).elim
            (readTables engine.levels engine.files key) (·.value) =
        if key' = key then
          if commitTs ≤ snapshotTs then value' else readTables engine.levels engine.files key
        else engine.seenAt key snapshotTs := by
    rw [MemTable.getAtSnapshot, MemTable.get_store]
    by_cases hit : key' = key
    · rw [if_pos hit, if_pos hit]
      by_cases covered : commitTs ≤ snapshotTs <;> simp [Option.filter, Entry.isVisible, covered]
    · rw [if_neg hit, if_neg hit]
      rfl
  cases record with
  | put | delete | putCommitted | deleteCommitted =>
    cases writes
    exact stored _ _ _
  | commit | checkpoint | flushComplete => cases writes

/-- The engine behind a write. -/
theorem call_write (engine : LSMTreeEngine) {input : EngineCall} {record : WalRecord}
    (recorded : input.record? = some record) :
    (engine.call input).2 =
      if engine.flushesOn input then stateOf (maybeFlushMemtable noFailure (engine.logged record))
      else engine.logged record := by
  rw [call_of_record recorded, answer_snd, writeRecord, modify_bind, flushIfFull, get_bind,
    flushesOn, recorded]
  by_cases full : (engine.logged record).memtable.size ≥
      (engine.logged record).options.memtableSize
  · rw [if_pos full, if_pos (by simpa using full)]
  · rw [if_neg full, if_neg (by simpa using full)]
    rfl

/-- A write or a flush leaves what is seen as it is exactly if it meets the condition. -/
theorem Sound.keepsSeen_iff (sound : Sound engine) {input : EngineCall}
    (isWrite : input.record?.isSome ∨ input = .flush)
    (faithful : engine.CompactionMeets Faithful input) :
    KeepsSeen key snapshotTs engine input ↔
      (engine.call input).2.seenAt key snapshotTs = engine.seenAt key snapshotTs := by
  have performed := (sound.call faithful).2
  have flushed (empty : (engine.call input).2.memtable = MemTable.new) :
      (engine.call input).2.seenAt key snapshotTs = input.effect key (engine.valueOf key) := by
    rw [seenAt_of_flushed performed.sound empty, performed.values]
  cases recorded : input.record? with
  | none =>
    obtain rfl : input = .flush := isWrite.resolve_left (by simp [recorded])
    rw [KeepsSeen, if_pos (by rfl), flushed]
    rw [LSMTreeEngine.call, answer_snd]
    exact memtable_flush sound.toHealthy
  | some record =>
    obtain ⟨written, value, writes, -, -⟩ := EngineCall.write?_of_record recorded
    have next := call_write engine recorded
    rw [KeepsSeen]
    split
    next flushes =>
      rw [flushed]
      rw [next, if_pos flushes]
      exact memtable_flush (sound.logged writes).1.toHealthy
    next stays =>
      rw [next, if_neg stays, seenAt_logged writes, recorded]
      simp [writes]

end LSMTreeEngine

namespace LSMTransaction

open LSMTreeEngine

variable {tx : LSMTransaction} {now : Nat} {table : ShardId} {key : Bytes}

/-- What a transaction reads of a key that it has not written. -/
theorem get_spec (active : tx.checkActive now = .ok ())
    (unwritten : tx.getFromBuffer table key = none) {engine : LSMTreeEngine}
    (sound : Sound engine) :
    tx.get now table key engine = .ok (engine.seenAt key tx.snapshotTs) engine := by
  simp only [get, active, unwritten]
  exact getAtSnapshot_spec sound

end LSMTransaction

end Nanograph.Lsm
