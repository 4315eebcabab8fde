import Nanograph.Foundation.Effect
import Nanograph.Lsm.Compaction

/-!
# The LSM tree engine

The engine of `nanograph-lsm/src/engine.rs` with one call running at a time. Its
files are the table files, the manifest and the write-ahead log, which is the list
of records appended to it. The log has a single segment and truncation drops whole
segments before the current one, so nothing is ever dropped from it.

A call may return an error or panic. A panic while the levels are locked poisons
the lock, and every later use of the levels panics too.
-/

namespace Nanograph.Lsm

open Foundation Kvt

/-- Configuration options that the modelled functions read, and the size of the file that
a table with given entries has under the others. -/
structure LSMTreeOptions where
  memtableSize : Nat
  blockSize : Nat
  fileSize : List Entry → Nat

/-- Records of the write-ahead log. -/
inductive WalRecord where
  | put (key value : Bytes)
  | delete (key : Bytes)
  | putCommitted (key value : Bytes) (commitTs : Int)
  | deleteCommitted (key : Bytes) (commitTs : Int)
  | commit (commitTs : Int)
  | checkpoint (sequence fileNumber : Nat)
  | flushComplete (fileNumber level : Nat)
deriving DecidableEq

/-- Manifest entry for a table. -/
structure ManifestEntry where
  fileNumber : Nat
  level : Nat
  metadata : SSTableMetadata
deriving DecidableEq

inductive ManifestFile where
  | missing
  | blank
  | written (entries : List ManifestEntry)
deriving DecidableEq

/-- LSM tree engine: memtables, levels and files. -/
structure LSMTreeEngine where
  options : LSMTreeOptions
  wal : List WalRecord
  memtable : MemTable
  immutableMemtable : Option MemTable
  levels : List Level
  nextFileNumber : Nat
  flushInProgress : Bool
  compactionInProgress : Bool
  clock : Int
  files : TableFiles
  manifest : ManifestFile
  poisoned : Bool

/-- The ways a call can end without a result. -/
inductive EngineFault where
  | error (error : KeyValueError)
  | panicked
deriving DecidableEq

abbrev EngineM := EStateM EngineFault LSMTreeEngine

/-- The file and log operations of a flush that can fail. -/
inductive FlushPoint where
  | checkExists
  | removeStale
  | createFile
  | writeTable
  | syncFile
  | writeCheckpoint
  | writeFlushComplete
  | manifestExists
  | manifestRemove
  | manifestCreate
  | manifestWrite
  | manifestSync
  | tailLsn
  | truncateWal
deriving DecidableEq

/-- Which operations of a flush fail, and with which text. -/
abbrev Failures := FlushPoint → Option String

/-- All operations succeed. -/
def noFailure : Failures := fun _ => none

namespace LSMTreeEngine

/-- An engine without data over the files of an earlier one. -/
def blank (options : LSMTreeOptions) (files : TableFiles) (manifest : ManifestFile)
    (wal : List WalRecord) : LSMTreeEngine where
  options := options
  wal := wal
  memtable := MemTable.new
  immutableMemtable := none
  levels := (List.range 7).map Level.new
  nextFileNumber := 1
  flushInProgress := false
  compactionInProgress := false
  clock := 1
  files := files
  manifest := manifest
  poisoned := false

/-- Restore one table that the manifest lists. -/
def loadEntry (engine : LSMTreeEngine) (entry : ManifestEntry) : LSMTreeEngine :=
  if entry.level < engine.levels.length then
    { engine with
      levels := engine.levels.modify entry.level (·.addSstable entry.metadata)
      nextFileNumber := max engine.nextFileNumber (entry.fileNumber + 1) }
  else engine

/-- Restore the tables that the manifest lists. -/
def loadManifest (engine : LSMTreeEngine) : Except KeyValueError LSMTreeEngine :=
  match engine.manifest with
  | .missing => .ok engine
  | .blank => .error (.storageCorruption "EOF while parsing a value at line 1 column 0")
  | .written entries => .ok (entries.foldl loadEntry engine)

/-- Replay one record into the memtable. Markers are skipped. -/
def replayRecord (engine : LSMTreeEngine) : WalRecord → LSMTreeEngine
  | .put key value =>
    { engine with
      memtable := engine.memtable.putCommitted key value engine.clock
      clock := engine.clock + 1 }
  | .putCommitted key value commitTs =>
    { engine with memtable := engine.memtable.putCommitted key value commitTs }
  | .delete key =>
    { engine with
      memtable := engine.memtable.deleteCommitted key engine.clock
      clock := engine.clock + 1 }
  | .deleteCommitted key commitTs =>
    { engine with memtable := engine.memtable.deleteCommitted key commitTs }
  | .commit _ | .checkpoint _ _ | .flushComplete _ _ => engine

/-- Recover by replaying all records of the log. -/
def recoverFromWal (engine : LSMTreeEngine) : LSMTreeEngine :=
  engine.wal.foldl replayRecord engine

/-- Create an engine over existing files: load the manifest, then replay the log. -/
def new (options : LSMTreeOptions) (files : TableFiles) (manifest : ManifestFile)
    (wal : List WalRecord) : Except KeyValueError LSMTreeEngine :=
  (blank options files manifest wal).loadManifest.map recoverFromWal

def fail {α : Type} (error : KeyValueError) : EngineM α := throw (.error error)

/-- Carry out one operation of a flush, unless it fails. -/
def attempt (fails : Failures) (point : FlushPoint) : EngineM Unit :=
  match fails point with
  | none => pure ()
  | some message => fail (.storageCorruption message)

def lockLevels : EngineM Unit := do
  if (← MonadState.get).poisoned then throw .panicked

def appendWal (record : WalRecord) : EngineM Unit :=
  modify fun engine => { engine with wal := engine.wal ++ [record] }

/-- The next timestamp of the global clock. -/
def nextTimestamp : EngineM Int :=
  modifyGet fun engine => (engine.clock, { engine with clock := engine.clock + 1 })

def manifestEntries (levels : List Level) : List ManifestEntry :=
  levels.flatMap fun level =>
    level.sstables.map fun table =>
      { fileNumber := table.fileNumber, level := level.levelNumber, metadata := table }

/-- Remove the manifest file, if there is one. -/
def removeManifest (fails : Failures) : EngineM Unit := do
  if (← MonadState.get).manifest ≠ .missing then
    attempt fails .manifestRemove
    modify fun engine => { engine with manifest := .missing }

/-- Save the manifest file with the tables of the levels. -/
def saveManifest (fails : Failures) : EngineM Unit := do
  lockLevels
  attempt fails .manifestExists
  removeManifest fails
  attempt fails .manifestCreate
  modify fun engine => { engine with manifest := .blank }
  attempt fails .manifestWrite
  modify fun engine => { engine with manifest := .written (manifestEntries engine.levels) }
  attempt fails .manifestSync

/-- Run a computation and keep an error it returns as a value. -/
def capture (run : EngineM Unit) : EngineM (Except KeyValueError Unit) := fun engine =>
  match run engine with
  | .ok _ next => .ok (.ok ()) next
  | .error (.error error) next => .ok (.error error) next
  | .error .panicked next => .error .panicked next

/-- Return a result that was kept as a value. -/
def release : Except KeyValueError Unit → EngineM Unit
  | .ok _ => pure ()
  | .error error => fail error

/-- Take the tables of a task out of the levels and add the new ones to its target level.
There is no result when new tables are to go to a level that does not exist. -/
def installSstables (task : CompactionTask) (newSstables : List SSTableMetadata)
    (levels : List Level) : Option (List Level) :=
  let levels := levels.modify task.sourceLevel (·.removeSstables task.sourceSstables)
  let levels := levels.modify task.targetLevel (·.removeSstables task.targetSstables)
  if newSstables = [] ∨ task.targetLevel < levels.length then
    some (levels.modify task.targetLevel (·.addSstables newSstables))
  else none

def removeFiles (tables : List SSTableMetadata) (files : TableFiles) : TableFiles :=
  tables.foldl (fun files table => files.erase table.fileNumber) files

/-- Carry out a compaction task. -/
def runTask (task : CompactionTask) : EngineM Unit := do
  let engine ← MonadState.get
  match CompactionExecutor.execute engine.options.fileSize engine.options.blockSize engine.files
      task engine.nextFileNumber with
  | .error error => fail error
  | .ok (newSstables, files, nextFileNumber) =>
    match installSstables task newSstables engine.levels with
    | none =>
      set { engine with files, nextFileNumber, poisoned := true }
      throw .panicked
    | some levels =>
      set { engine with files, nextFileNumber, levels }
      saveManifest noFailure
      modify fun engine => { engine with files := removeFiles task.inputs engine.files }

/-- Compact what the strategy selects. -/
def compactLevel : EngineM Unit := do
  lockLevels
  let engine ← MonadState.get
  match CompactionStrategy.default.selectCompaction (engine.levels.map (·.sstables))
      engine.options.memtableSize with
  | none => pure ()
  | some task => runTask task

/-- Whether some level needs compaction. -/
def needsCompaction (engine : LSMTreeEngine) : Bool :=
  engine.levels.zipIdx.any fun (level, i) =>
    level.needsCompaction (if i = 0 then 0 else engine.options.memtableSize * 10 ^ i)

/-- Perform compaction if a level needs it. -/
def compactIfNeeded : EngineM Unit := do
  lockLevels
  if (← MonadState.get).needsCompaction then compactLevel

/-- Compact unless a compaction is in progress. -/
def maybeCompact : EngineM Unit := do
  if (← MonadState.get).compactionInProgress then pure ()
  else
    modify fun engine => { engine with compactionInProgress := true }
    let result ← capture compactIfNeeded
    modify fun engine => { engine with compactionInProgress := false }
    release result

def takeFileNumber : EngineM Nat :=
  modifyGet fun engine =>
    (engine.nextFileNumber, { engine with nextFileNumber := engine.nextFileNumber + 1 })

/-- Remove a file that is in the way of a new table. -/
def removeStale (fails : Failures) (fileNumber : Nat) : EngineM Unit := do
  if ((← MonadState.get).files.lookup fileNumber).isSome then
    attempt fails .removeStale
    modify fun engine => { engine with files := engine.files.erase fileNumber }

/-- Write the entries of the memtable into a new table file. -/
def writeTable (fails : Failures) (entries : List Entry) (fileNumber : Nat) :
    EngineM SSTableMetadata := do
  attempt fails .checkExists
  removeStale fails fileNumber
  attempt fails .createFile
  modify fun engine => { engine with files := engine.files.insert fileNumber [] }
  attempt fails .writeTable
  match SSTable.create (← MonadState.get).options.fileSize entries fileNumber 0 with
  | .error message => fail (.storageCorruption message)
  | .ok metadata =>
    modify fun engine =>
      { engine with files := engine.files.insert fileNumber (entries.map Entry.persisted) }
    attempt fails .syncFile
    pure metadata

def addToLevel0 (table : SSTableMetadata) : EngineM Unit := do
  lockLevels
  modify fun engine => { engine with levels := engine.levels.modify 0 (·.addSstable table) }

/-- Rotate the log: nothing is dropped from its only segment. -/
def rotateWal (fails : Failures) : EngineM Unit := do
  attempt fails .tailLsn
  attempt fails .truncateWal

/-- Write a record to the log during a flush. -/
def writeMarker (fails : Failures) (point : FlushPoint) (record : WalRecord) : EngineM Unit := do
  attempt fails point
  appendWal record

/-- Write a memtable to a table of level 0 and record that in the log and the manifest. -/
def persistMemtable (fails : Failures) (memtable : MemTable) : EngineM Unit := do
  let fileNumber ← takeFileNumber
  let metadata ← writeTable fails memtable.entries fileNumber
  writeMarker fails .writeCheckpoint (.checkpoint memtable.sequence fileNumber)
  addToLevel0 metadata
  writeMarker fails .writeFlushComplete (.flushComplete fileNumber 0)
  saveManifest fails
  rotateWal fails

/-- Flush the immutable memtable to a table of level 0. -/
def flushImmutableMemtable (fails : Failures) : EngineM Unit := do
  match (← MonadState.get).immutableMemtable with
  | none => pure ()
  | some memtable =>
    if memtable.isEmpty then pure ()
    else
      persistMemtable fails memtable
      maybeCompact

/-- Swap the memtable with a new one. -/
def swapMemtable (engine : LSMTreeEngine) : LSMTreeEngine :=
  { engine with
    flushInProgress := true
    memtable := MemTable.new
    immutableMemtable := some engine.memtable }

/-- Flush the memtable. The immutable memtable is dropped whether the flush worked or not. -/
def maybeFlushMemtable (fails : Failures) : EngineM Unit := do
  let engine ← MonadState.get
  if engine.flushInProgress then pure ()
  else if engine.immutableMemtable.isSome then pure ()
  else
    set engine.swapMemtable
    let result ← capture (flushImmutableMemtable fails)
    modify fun engine => { engine with immutableMemtable := none, flushInProgress := false }
    release result

/-- Flush a memtable that has reached its size. -/
def flushIfFull : EngineM Unit := do
  let engine ← MonadState.get
  if engine.memtable.size ≥ engine.options.memtableSize then maybeFlushMemtable noFailure

/-- Put a key-value pair: to the log first, then to the memtable. -/
def put (key value : Bytes) : EngineM Unit := do
  appendWal (.put key value)
  let commitTs ← nextTimestamp
  modify fun engine => { engine with memtable := engine.memtable.putCommitted key value commitTs }
  flushIfFull

/-- Put a key-value pair with a commit timestamp. -/
def putCommitted (key value : Bytes) (commitTs : Int) : EngineM Unit := do
  appendWal (.putCommitted key value commitTs)
  modify fun engine => { engine with memtable := engine.memtable.putCommitted key value commitTs }
  flushIfFull

/-- Delete a key: in the log first, then in the memtable. -/
def delete (key : Bytes) : EngineM Unit := do
  appendWal (.delete key)
  let commitTs ← nextTimestamp
  modify fun engine => { engine with memtable := engine.memtable.deleteCommitted key commitTs }
  flushIfFull

def deleteCommitted (key : Bytes) (commitTs : Int) : EngineM Unit := do
  appendWal (.deleteCommitted key commitTs)
  modify fun engine => { engine with memtable := engine.memtable.deleteCommitted key commitTs }
  flushIfFull

/-- The entry of a key in level 0, the newest table first. -/
def findInLevel0 (engine : LSMTreeEngine) (key : Bytes) : Option Entry :=
  ((engine.levels.head?.map (·.sstables)).getD []).reverse.findSome? fun table =>
    if table.covers key then SSTable.get engine.files table.fileNumber key else none

/-- The entry of a key in another level. -/
def findInLevel (engine : LSMTreeEngine) (key : Bytes) (level : Level) : Option Entry :=
  (level.search key).bind fun table => SSTable.get engine.files table.fileNumber key

def findInLevels (engine : LSMTreeEngine) (key : Bytes) : Option Entry :=
  (engine.findInLevel0 key).or (engine.levels.tail.findSome? (engine.findInLevel key))

/-- Get a value by key: from the memtable, the immutable memtable, or the levels. -/
def get (key : Bytes) : EngineM (Option Bytes) := do
  let engine ← MonadState.get
  match engine.memtable.get key with
  | some entry => pure entry.value
  | none =>
    match engine.immutableMemtable.bind (·.get key) with
    | some entry => pure entry.value
    | none =>
      lockLevels
      pure ((engine.findInLevels key).bind (·.value))

/-- Get a value by key at a snapshot. Entries of tables are not filtered. -/
def getAtSnapshot (key : Bytes) (snapshotTs : Int) : EngineM (Option Bytes) := do
  let engine ← MonadState.get
  match engine.memtable.getAtSnapshot key snapshotTs with
  | some entry => pure entry.value
  | none =>
    match engine.immutableMemtable.bind (·.getAtSnapshot key snapshotTs) with
    | some entry => pure entry.value
    | none =>
      lockLevels
      pure ((engine.findInLevels key).bind (·.value))

def flush (fails : Failures) : EngineM Unit := maybeFlushMemtable fails

/-- Force a compaction. -/
def compact : EngineM Unit := maybeCompact

/-- Create a checkpoint: a marker in the log, and the manifest. -/
def checkpoint : EngineM Unit := do
  let engine ← MonadState.get
  appendWal (.checkpoint engine.memtable.sequence engine.nextFileNumber)
  saveManifest noFailure

/-- Drop all tables of the levels. -/
def emptyLevels (levels : List Level) : List Level :=
  levels.map fun level => { level with sstables := [], totalSize := 0 }

/-- Clear all data. The log keeps its records. -/
def clear : EngineM Unit := do
  modify fun engine =>
    { engine with memtable := engine.memtable.clear, immutableMemtable := none }
  lockLevels
  modify fun engine =>
    { engine with
      files := removeFiles (engine.levels.flatMap (·.sstables)) engine.files
      levels := emptyLevels engine.levels }
  saveManifest noFailure

end LSMTreeEngine

end Nanograph.Lsm
