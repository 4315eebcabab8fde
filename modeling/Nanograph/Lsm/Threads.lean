import Nanograph.Lsm.Reachable

/-!
# An engine under several threads

Any number of writers, one flush and one compaction at a time work on an engine in
`nanograph-lsm/src/engine.rs`. Every step is one access to shared data: an append to
the log, a step of the clock, an insertion into the memtable, the swap of the
memtables, one change of the levels, one read or write of the next file number.
The file operations of one thread between two such steps are one step, since no
other thread looks at a file before it is in the levels. A step that a thread is
not ready for changes nothing.
-/

namespace Nanograph.Lsm

open Foundation Kvt

/-- A writer between its append to the log and its insertion into the memtable. -/
inductive WriterPhase where
  | logged (record : WalRecord)
  | stamped (record : WalRecord) (commitTs : Int)

/-- The flush between two of its steps. -/
inductive FlushPhase where
  | idle
  | claimed
  | swapped
  | numbered (number : Nat)
  | written (table : SSTableMetadata)
  | registered (number : Nat)
  | recorded
  | cleared

/-- The compaction between two of its steps. -/
inductive CompactionPhase where
  | idle
  | claimed
  | checked
  | selected (task : CompactionTask)
  | loaded (task : CompactionTask) (nextFileNumber : Nat)
  | executed (task : CompactionTask) (newSstables : List SSTableMetadata) (nextFileNumber : Nat)
  | stored (task : CompactionTask) (newSstables : List SSTableMetadata)
  | installed (task : CompactionTask)

/-- An engine and the threads that work on it. -/
structure Threads where
  engine : LSMTreeEngine
  writers : AList fun _ : Nat => WriterPhase
  flush : FlushPhase
  compaction : CompactionPhase

inductive WriterStep where
  | append (writer : Nat) (record : WalRecord)
  | stamp (writer : Nat)
  | insert (writer : Nat)
deriving DecidableEq

inductive FlushStep where
  | claim
  | swap
  | takeNumber
  | writeTable
  | register
  | record
  | clear
  | release
deriving DecidableEq

inductive CompactionStep where
  | claim
  | check
  | select
  | load
  | execute
  | store
  | install
  | finish
deriving DecidableEq

inductive ThreadStep where
  | writer (step : WriterStep)
  | flush (step : FlushStep)
  | compaction (step : CompactionStep)
deriving DecidableEq

/-- What a step does to the log and the memtable. -/
inductive ThreadEvent where
  | logged (record : WalRecord)
  | inserted (record : WalRecord)
  | quiet

/-- Whether a record gets its timestamp from the clock of the engine. -/
def WalRecord.needsStamp : WalRecord → Bool
  | .put _ _ | .delete _ => true
  | _ => false

namespace WriterPhase

def record : WriterPhase → WalRecord
  | .logged record | .stamped record _ => record

/-- The insertion that a writer is ready for. -/
def insertion? : WriterPhase → Option (MemTable → MemTable)
  | .stamped (.put key value) commitTs => some (·.putCommitted key value commitTs)
  | .stamped (.delete key) commitTs => some (·.deleteCommitted key commitTs)
  | .logged (.putCommitted key value commitTs) => some (·.putCommitted key value commitTs)
  | .logged (.deleteCommitted key commitTs) => some (·.deleteCommitted key commitTs)
  | .logged _ | .stamped _ _ => none

end WriterPhase

namespace Threads

/-- An engine that no thread works on. -/
def idle (engine : LSMTreeEngine) : Threads := ⟨engine, ∅, .idle, .idle⟩

/-- A step of a writer: its append, its timestamp, or its insertion. -/
def writerStep (threads : Threads) : WriterStep → ThreadEvent × Threads
  | .append writer record =>
    if writer ∈ threads.writers ∨ record.write? = none then (.quiet, threads)
    else
      (.logged record,
        { threads with
          engine := { threads.engine with wal := threads.engine.wal ++ [record] }
          writers := threads.writers.insert writer (.logged record) })
  | .stamp writer =>
    match threads.writers.lookup writer with
    | some (.logged record) =>
      if record.needsStamp then
        (.quiet,
        { threads with
            engine := { threads.engine with clock := threads.engine.clock + 1 }
            writers := threads.writers.insert writer (.stamped record threads.engine.clock) })
      else (.quiet, threads)
    | _ => (.quiet, threads)
  | .insert writer =>
    match threads.writers.lookup writer with
    | none => (.quiet, threads)
    | some phase =>
      match phase.insertion? with
      | none => (.quiet, threads)
      | some insertion =>
        (.inserted phase.record,
        { threads with
            engine := { threads.engine with memtable := insertion threads.engine.memtable }
            writers := threads.writers.erase writer })

/-- A step of the flush. A panic on locked levels leaves it claimed for good. -/
def flushStep (threads : Threads) : FlushStep → Threads
  | .claim =>
    match threads.flush, threads.engine.flushInProgress with
    | .idle, false =>
      { threads with
        engine := { threads.engine with flushInProgress := true }
        flush := .claimed }
    | _, _ => threads
  | .swap =>
    match threads.flush with
    | .claimed =>
      if threads.engine.immutableMemtable.isSome then
        { threads with
          engine := { threads.engine with flushInProgress := false }
          flush := .idle }
      else { threads with engine := threads.engine.swapMemtable, flush := .swapped }
    | _ => threads
  | .takeNumber =>
    match threads.flush, threads.engine.immutableMemtable with
    | .swapped, some memtable =>
      if memtable.isEmpty then { threads with flush := .recorded }
      else
        { threads with
          engine :=
            { threads.engine with nextFileNumber := threads.engine.nextFileNumber + 1 }
          flush := .numbered threads.engine.nextFileNumber }
    | _, _ => threads
  | .writeTable =>
    match threads.flush, threads.engine.immutableMemtable with
    | .numbered number, some memtable =>
      match SSTable.create threads.engine.options.fileSize memtable.entries number 0 with
      | .error _ => threads
      | .ok table =>
        { threads with
          engine :=
            { threads.engine with
              files := threads.engine.files.insert number (memtable.entries.map Entry.persisted)
              wal := threads.engine.wal ++ [.checkpoint memtable.sequence number] }
          flush := .written table }
    | _, _ => threads
  | .register =>
    match threads.flush with
    | .written table =>
      if threads.engine.poisoned then { threads with flush := .idle }
      else
        { threads with
          engine :=
            { threads.engine with
              levels := threads.engine.levels.modify 0 (·.addSstable table) }
          flush := .registered table.fileNumber }
    | _ => threads
  | .record =>
    match threads.flush with
    | .registered number =>
      if threads.engine.poisoned then { threads with flush := .idle }
      else
        { threads with
          engine :=
            { threads.engine with
              wal := threads.engine.wal ++ [.flushComplete number 0]
              manifest := .written (LSMTreeEngine.manifestEntries threads.engine.levels) }
          flush := .recorded }
    | _ => threads
  | .clear =>
    match threads.flush with
    | .recorded =>
      { threads with
        engine := { threads.engine with immutableMemtable := none }
        flush := .cleared }
    | _ => threads
  | .release =>
    match threads.flush with
    | .cleared =>
      { threads with
        engine := { threads.engine with flushInProgress := false }
        flush := .idle }
    | _ => threads

/-- The compaction gives up its claim. -/
def releaseCompaction (threads : Threads) : Threads :=
  { threads with
    engine := { threads.engine with compactionInProgress := false }
    compaction := .idle }

/-- A step of the compaction. A panic on the levels leaves it claimed for good. -/
def compactionStep (threads : Threads) : CompactionStep → Threads
  | .claim =>
    match threads.compaction, threads.engine.compactionInProgress with
    | .idle, false =>
      { threads with
        engine := { threads.engine with compactionInProgress := true }
        compaction := .claimed }
    | _, _ => threads
  | .check =>
    match threads.compaction with
    | .claimed =>
      if threads.engine.poisoned then { threads with compaction := .idle }
      else if threads.engine.needsCompaction then { threads with compaction := .checked }
      else threads.releaseCompaction
    | _ => threads
  | .select =>
    match threads.compaction with
    | .checked =>
      if threads.engine.poisoned then { threads with compaction := .idle }
      else
        match CompactionStrategy.default.selectCompaction
            (threads.engine.levels.map (·.sstables)) threads.engine.options.memtableSize with
        | some task => { threads with compaction := .selected task }
        | none => threads.releaseCompaction
    | _ => threads
  | .load =>
    match threads.compaction with
    | .selected task =>
      { threads with compaction := .loaded task threads.engine.nextFileNumber }
    | _ => threads
  | .execute =>
    match threads.compaction with
    | .loaded task nextFileNumber =>
      match CompactionExecutor.execute threads.engine.options.fileSize
          threads.engine.options.blockSize threads.engine.files task nextFileNumber with
      | .error _ => threads.releaseCompaction
      | .ok (newSstables, files, nextFileNumber) =>
        { threads with
          engine := { threads.engine with files }
          compaction := .executed task newSstables nextFileNumber }
    | _ => threads
  | .store =>
    match threads.compaction with
    | .executed task newSstables nextFileNumber =>
      { threads with
        engine := { threads.engine with nextFileNumber }
        compaction := .stored task newSstables }
    | _ => threads
  | .install =>
    match threads.compaction with
    | .stored task newSstables =>
      if threads.engine.poisoned then { threads with compaction := .idle }
      else
        match LSMTreeEngine.installSstables task newSstables threads.engine.levels with
        | none =>
          { threads with
            engine := { threads.engine with poisoned := true }
            compaction := .idle }
        | some levels =>
          { threads with
            engine := { threads.engine with levels }
            compaction := .installed task }
    | _ => threads
  | .finish =>
    match threads.compaction with
    | .installed task =>
      if threads.engine.poisoned then { threads with compaction := .idle }
      else
        releaseCompaction { threads with
          engine :=
            { threads.engine with
              manifest := .written (LSMTreeEngine.manifestEntries threads.engine.levels)
              files := LSMTreeEngine.removeFiles task.inputs threads.engine.files } }
    | _ => threads

def step : Machine Threads ThreadStep ThreadEvent
  | threads, .writer step => threads.writerStep step
  | threads, .flush step => (.quiet, threads.flushStep step)
  | threads, .compaction step => (.quiet, threads.compactionStep step)

/-- A writer leaves the flush, the compaction, the tables and the levels. -/
theorem writerStep_frame (threads : Threads) (step : WriterStep) :
    ∃ wal clock memtable writers, (threads.writerStep step).2 =
      ⟨{ threads.engine with wal, clock, memtable }, writers, threads.flush,
        threads.compaction⟩ := by
  cases step with
  | append writer record =>
    rw [writerStep]
    split <;> exact ⟨_, _, _, _, rfl⟩
  | stamp writer =>
    rw [writerStep]
    split
    next => split <;> exact ⟨_, _, _, _, rfl⟩
    next => exact ⟨_, _, _, _, rfl⟩
  | insert writer =>
    rw [writerStep]
    split
    next => exact ⟨_, _, _, _, rfl⟩
    next => split <;> exact ⟨_, _, _, _, rfl⟩

/-- The writes to the log in a run. -/
def loggedWrites (events : List ThreadEvent) : List (Bytes × Option Bytes) :=
  events.filterMap fun
    | .logged record => record.write?
    | _ => none

/-- The writes to the memtable in a run. -/
def insertedWrites (events : List ThreadEvent) : List (Bytes × Option Bytes) :=
  events.filterMap fun
    | .inserted record => record.write?
    | _ => none

end Threads

end Nanograph.Lsm
