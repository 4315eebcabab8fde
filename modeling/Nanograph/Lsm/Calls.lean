import Nanograph.Foundation.Machine
import Nanograph.Lsm.Compacted

/-!
# Calls on an engine

An engine as a machine whose file operations succeed. For every call there is the
state in which its compaction starts, if it comes to one, and an equation for what it
does to an engine that is not in the middle of another call.
-/

namespace Nanograph.Lsm

open List Foundation Kvt

inductive EngineCall where
  | put (key value : Bytes)
  | delete (key : Bytes)
  | putCommitted (key value : Bytes) (commitTs : Int)
  | deleteCommitted (key : Bytes) (commitTs : Int)
  | get (key : Bytes)
  | flush
  | compact
  | checkpoint
  | clear
deriving DecidableEq

/-- The record that a call writes to the log first. -/
def EngineCall.record? : EngineCall → Option WalRecord
  | .put key value => some (.put key value)
  | .delete key => some (.delete key)
  | .putCommitted key value commitTs => some (.putCommitted key value commitTs)
  | .deleteCommitted key commitTs => some (.deleteCommitted key commitTs)
  | .get _ | .flush | .compact | .checkpoint | .clear => none

/-- What the calls return. -/
inductive EngineAnswer where
  | done
  | found (value : Option Bytes)
deriving DecidableEq

namespace LSMTreeEngine

/-- The result of a computation and the engine it leaves. -/
def answer {α : Type} (run : EngineM α) (wrap : α → EngineAnswer) (engine : LSMTreeEngine) :
    Except EngineFault EngineAnswer × LSMTreeEngine :=
  match run engine with
  | .ok value next => (.ok (wrap value), next)
  | .error fault next => (.error fault, next)

def call : Machine LSMTreeEngine EngineCall (Except EngineFault EngineAnswer)
  | engine, .put key value => answer (put key value) (fun _ => .done) engine
  | engine, .delete key => answer (delete key) (fun _ => .done) engine
  | engine, .putCommitted key value commitTs =>
    answer (putCommitted key value commitTs) (fun _ => .done) engine
  | engine, .deleteCommitted key commitTs =>
    answer (deleteCommitted key commitTs) (fun _ => .done) engine
  | engine, .get key => answer (get key) .found engine
  | engine, .flush => answer (flush noFailure) (fun _ => .done) engine
  | engine, .compact => answer compact (fun _ => .done) engine
  | engine, .checkpoint => answer checkpoint (fun _ => .done) engine
  | engine, .clear => answer clear (fun _ => .done) engine

/-- A new engine without any files. -/
def fresh (options : LSMTreeOptions) : LSMTreeEngine := blank options ∅ .missing []

/-- The engine with a record in the log and in the memtable. -/
def logged (engine : LSMTreeEngine) (record : WalRecord) : LSMTreeEngine :=
  replayRecord { engine with wal := engine.wal ++ [record] } record

/-- A write: to the log and the memtable, and a flush of the memtable if that is full. -/
def writeRecord (record : WalRecord) : EngineM Unit := do
  modify (·.logged record)
  flushIfFull

/-- The compaction that an engine starts when it is asked for one. -/
def startedTask (engine : LSMTreeEngine) : Option CompactionTask :=
  if engine.compactionInProgress = false ∧ engine.poisoned = false ∧ engine.needsCompaction then
    CompactionStrategy.default.selectCompaction (engine.levels.map (·.sstables))
      engine.options.memtableSize
  else none

/-- The engine in which a flush starts its compaction. -/
def flushedEngine (engine : LSMTreeEngine) : Option LSMTreeEngine :=
  if engine.flushInProgress ∨ engine.immutableMemtable.isSome ∨ engine.memtable.isEmpty then none
  else
    match persistMemtable noFailure engine.memtable engine.swapMemtable with
    | .ok _ persisted => some persisted
    | .error _ _ => none

/-- The engine in which a write starts its compaction. -/
def writtenEngine (engine : LSMTreeEngine) (record : WalRecord) : Option LSMTreeEngine :=
  let written := engine.logged record
  if written.memtable.size ≥ written.options.memtableSize then written.flushedEngine else none

def compactionStart (engine : LSMTreeEngine) (input : EngineCall) : Option LSMTreeEngine :=
  match input.record?, input with
  | some record, _ => engine.writtenEngine record
  | none, .flush => engine.flushedEngine
  | none, .compact => some engine
  | none, _ => none

/-- The compaction of a call, if it comes to one, meets a condition on the levels, the
files and the task. -/
def CompactionMeets (condition : List Level → TableFiles → CompactionTask → Prop)
    (engine : LSMTreeEngine) (input : EngineCall) : Prop :=
  ∀ start ∈ engine.compactionStart input, ∀ task ∈ start.startedTask,
    condition start.levels start.files task

instance (condition : List Level → TableFiles → CompactionTask → Prop)
    [∀ levels files task, Decidable (condition levels files task)] (engine : LSMTreeEngine)
    (input : EngineCall) : Decidable (CompactionMeets condition engine input) :=
  inferInstanceAs (Decidable (∀ start ∈ engine.compactionStart input, ∀ task ∈ start.startedTask, _))

variable {run : EngineM Unit} {next : LSMTreeEngine}

section

variable {kept : LSMTreeEngine → Prop}

theorem answer_snd {α : Type} {run : EngineM α} {wrap : α → EngineAnswer}
    (engine : LSMTreeEngine) : (answer run wrap engine).2 = stateOf (run engine) := by
  rw [answer]
  cases run engine <;> rfl

theorem error_of_answer {α : Type} {run : EngineM α} {wrap : α → EngineAnswer}
    {engine : LSMTreeEngine} {fault : EngineFault}
    (failed : (answer run wrap engine).1 = .error fault) :
    run engine = .error fault (stateOf (run engine)) := by
  rw [answer] at failed
  cases ran : run engine with
  | ok value next => rw [ran] at failed; cases failed
  | error cause next => rw [ran] at failed; cases failed; rfl

theorem keeps_attempt (fails : Failures) (point : FlushPoint) :
    Keeps kept (attempt fails point) := by
  rw [attempt]
  cases fails point with
  | none => exact keeps_pure _
  | some message => exact keeps_throw _

theorem keeps_lockLevels : Keeps kept lockLevels :=
  keeps_get_bind fun engine holds => keeps_ite (keeps_throw _) (keeps_pure _) engine holds

theorem keeps_capture (keeps : Keeps kept run) : Keeps kept (capture run) := by
  intro engine holds
  have next := keeps engine holds
  rw [capture]
  cases ran : run engine with
  | ok value state => rwa [ran] at next
  | error fault state =>
    rw [ran] at next
    cases fault <;> exact next

theorem keeps_release (result : Except KeyValueError Unit) : Keeps kept (release result) := by
  cases result with
  | ok value => exact keeps_pure _
  | error failure => exact keeps_throw _

/-- A read changes nothing. -/
theorem keeps_get (key : Bytes) : Keeps kept (get key) := by
  refine keeps_get_bind fun engine holds => ?_
  cases engine.memtable.get key with
  | some entry => exact holds
  | none =>
    cases engine.immutableMemtable.bind (·.get key) with
    | some entry => exact holds
    | none => exact keeps_bind keeps_lockLevels (fun _ => keeps_pure _) engine holds

end

section

variable {engine : LSMTreeEngine}

/-- All calls that write are alike. -/
theorem call_of_record {input : EngineCall} {record : WalRecord}
    (recorded : input.record? = some record) :
    engine.call input = answer (writeRecord record) (fun _ => .done) engine := by
  cases input <;> cases recorded <;> rfl

theorem compactionStart_of_record {input : EngineCall} {record : WalRecord}
    (recorded : input.record? = some record) :
    engine.compactionStart input = engine.writtenEngine record := by
  cases input <;> cases recorded <;> rfl

theorem run_lockLevels (ready : engine.poisoned = false) : lockLevels engine = .ok () engine := by
  rw [lockLevels, get_bind, if_neg (by simp [ready])]
  rfl

theorem run_lockLevels_poisoned (poisoned : engine.poisoned = true) :
    lockLevels engine = .error .panicked engine := by
  rw [lockLevels, get_bind, if_pos poisoned]
  rfl

def findInMemtables (engine : LSMTreeEngine) (key : Bytes) : Option Entry :=
  (engine.memtable.get key).or (engine.immutableMemtable.bind (·.get key))

/-- The answer to a read: from the memtables, or from the levels. -/
theorem call_get (engine : LSMTreeEngine) (key : Bytes) :
    (engine.call (.get key)).1 =
      match engine.findInMemtables key with
      | some entry => .ok (.found entry.value)
      | none =>
        if engine.poisoned then .error .panicked
        else .ok (.found ((engine.findInLevels key).bind (·.value))) := by
  rw [call, answer, get, get_bind, findInMemtables]
  cases engine.memtable.get key with
  | some entry => rfl
  | none =>
    cases engine.immutableMemtable.bind (·.get key) with
    | some entry => rfl
    | none =>
      cases poisoned : engine.poisoned with
      | true => simp only; rw [bind_error (run_lockLevels_poisoned poisoned)]; rfl
      | false => simp only; rw [bind_ok (run_lockLevels poisoned)]; rfl

theorem findInMemtables_of_settled (settled : engine.immutableMemtable = none)
    (key : Bytes) : engine.findInMemtables key = engine.memtable.get key := by
  rw [findInMemtables, settled, Option.bind_none, Option.or_none]

theorem run_removeManifest :
    removeManifest noFailure engine = .ok () { engine with manifest := .missing } := by
  rw [removeManifest, get_bind]
  split
  next => rfl
  next missing => rw [← not_not.mp missing]; rfl

/-- Without failures the manifest lists the tables. -/
theorem run_saveManifest (ready : engine.poisoned = false) :
    saveManifest noFailure engine =
      .ok () { engine with manifest := .written (manifestEntries engine.levels) } := by
  rw [saveManifest, bind_ok (run_lockLevels ready),
    bind_ok (show attempt noFailure .manifestExists engine = .ok () engine from rfl),
    bind_ok run_removeManifest]
  rfl

/-- The engine with other tables, and a manifest that lists them. -/
def withTables (engine : LSMTreeEngine) (levels : List Level) (files : TableFiles)
    (nextFileNumber : Nat) : LSMTreeEngine :=
  { engine with levels, files, nextFileNumber, manifest := .written (manifestEntries levels) }

/-- The engine after a panic in a compaction. -/
def stuck (engine : LSMTreeEngine) (files : TableFiles) (nextFileNumber : Nat) : LSMTreeEngine :=
  { engine with compactionInProgress := true, files, nextFileNumber, poisoned := true }

section

variable {task : CompactionTask} {new : List SSTableMetadata} {written : TableFiles} {after : Nat}
  (executed : CompactionExecutor.execute engine.options.fileSize engine.options.blockSize
    engine.files task engine.nextFileNumber = .ok (new, written, after))

include executed

theorem run_runTask {levels : List Level}
    (installed : installSstables task new engine.levels = some levels)
    (ready : engine.poisoned = false) :
    runTask task engine =
      .ok () (engine.withTables levels (removeFiles task.inputs written) after) := by
  rw [runTask, get_bind]
  simp only [executed, installed]
  rw [set_bind, bind_ok (run_saveManifest (by exact ready))]
  rfl

theorem run_runTask_stuck (installed : installSstables task new engine.levels = none) :
    runTask task engine = .error .panicked
      { engine with files := written, nextFileNumber := after, poisoned := true } := by
  rw [runTask, get_bind]
  simp only [executed, installed]
  rfl

end

theorem run_capture (ran : run engine = .ok () next) : capture run engine = .ok (.ok ()) next := by
  rw [capture, ran]

theorem run_capture_panicked (ran : run engine = .error .panicked next) :
    capture run engine = .error .panicked next := by
  rw [capture, ran]

/-- What a compaction that starts in an engine comes to: nothing, a task that is carried
out, or a panic for want of a target level. -/
inductive CompactionResult (start : LSMTreeEngine) :
    EStateM.Result EngineFault LSMTreeEngine Unit → Prop
  | nothing (started : start.startedTask = none) : CompactionResult start (.ok () start)
  | done (task : CompactionTask) (started : start.startedTask = some task)
      {levels : List Level} {files : TableFiles} {after : Nat}
      (compacted : Compacted start.levels start.files task levels files after) :
      CompactionResult start (.ok () (start.withTables levels files after))
  | stuck (task : CompactionTask) (started : start.startedTask = some task)
      (inOrder : InOrder start.levels start.files task)
      (unfaithful : ¬Faithful start.levels start.files task) {files : TableFiles} {after : Nat} :
      CompactionResult start (.error .panicked (start.stuck files after))

section

variable (ready : engine.poisoned = false)

include ready

theorem run_compactIfNeeded (started : engine.startedTask = none)
    (idle : engine.compactionInProgress = false) :
    compactIfNeeded { engine with compactionInProgress := true } =
      .ok () { engine with compactionInProgress := true } := by
  rw [compactIfNeeded, bind_ok (run_lockLevels (by exact ready)), get_bind]
  split
  next needed =>
    rw [startedTask, if_pos ⟨idle, ready, needed⟩] at started
    rw [compactLevel, bind_ok (run_lockLevels (by exact ready)), get_bind]
    simp only [started]
    rfl
  next => rfl

theorem run_compactIfNeeded_task {task : CompactionTask} (started : engine.startedTask = some task) :
    compactIfNeeded { engine with compactionInProgress := true } =
      runTask task { engine with compactionInProgress := true } := by
  rw [startedTask] at started
  split at started
  next needed =>
    rw [compactIfNeeded, bind_ok (run_lockLevels (by exact ready)), get_bind, if_pos (by exact needed.2.2),
      compactLevel, bind_ok (run_lockLevels (by exact ready)), get_bind]
    simp only [started]
  next => cases started

variable (idle : engine.compactionInProgress = false)

include idle

omit ready in
theorem run_maybeCompact
    (ran : compactIfNeeded { engine with compactionInProgress := true } = .ok () next) :
    maybeCompact engine = .ok () { next with compactionInProgress := false } := by
  rw [maybeCompact, get_bind, if_neg (by simp [idle]), modify_bind, bind_ok (run_capture ran)]
  rfl

omit ready in
theorem run_maybeCompact_panicked
    (ran : compactIfNeeded { engine with compactionInProgress := true } =
      .error .panicked next) : maybeCompact engine = .error .panicked next := by
  rw [maybeCompact, get_bind, if_neg (by simp [idle]), modify_bind,
    bind_error (run_capture_panicked ran)]

theorem maybeCompact_spec (stored : Stored engine.levels engine.files engine.nextFileNumber) :
    CompactionResult engine (maybeCompact engine) := by
  cases started : engine.startedTask with
  | none =>
    rw [run_maybeCompact idle (run_compactIfNeeded ready started idle), ← idle]
    exact .nothing started
  | some task =>
    have selected := started
    rw [startedTask] at selected
    split at selected
    next needed =>
      obtain ⟨new, written, after, executed, ⟨levels, installed, compacted⟩ |
          ⟨installed, inOrder, unfaithful⟩⟩ :=
        compacted_or_stuck stored selected engine.options.fileSize engine.options.blockSize
      · rw [run_maybeCompact idle ((run_compactIfNeeded_task ready started).trans
          (run_runTask (by exact executed) (by exact installed) (by exact ready)))]
        simp only [withTables, ← idle]
        exact .done task started compacted
      · rw [run_maybeCompact_panicked idle ((run_compactIfNeeded_task ready started).trans
          (run_runTask_stuck (by exact executed) (by exact installed)))]
        exact .stuck task started inOrder unfaithful
    next => cases selected

end

/-- Writing over a file that was removed. -/
theorem insert_erase (files : TableFiles) (number : Nat) (entries : List Entry) :
    (files.erase number).insert number entries = files.insert number entries := by
  ext1
  exact congrArg (List.cons _)
    (kerase_of_notMem_keys (notMem_keys_kerase number files.nodupKeys))

theorem run_removeStale (engine : LSMTreeEngine) (number : Nat) :
    ∃ files, removeStale noFailure number engine = .ok () { engine with files } ∧
      ∀ entries, files.insert number entries = engine.files.insert number entries := by
  rw [removeStale, get_bind]
  split
  next => exact ⟨_, rfl, fun entries => insert_erase engine.files number entries⟩
  next => exact ⟨engine.files, rfl, fun _ => rfl⟩

/-- Without failures a table file is written. -/
theorem run_writeTable (first : Entry) (rest : List Entry) (number : Nat) :
    writeTable noFailure (first :: rest) number engine =
      .ok (SSTable.describe engine.options.fileSize first rest number 0)
        { engine with
          files := engine.files.insert number ((first :: rest).map Entry.persisted) } := by
  obtain ⟨files, removed, overwritten⟩ := run_removeStale engine number
  rw [writeTable,
    bind_ok (show attempt noFailure .checkExists engine = .ok () engine from rfl), bind_ok removed,
    ← overwritten, ← AList.insert_insert files]
  rfl

/-- The engine with a memtable written to a table of level 0. -/
def persisted (engine : LSMTreeEngine) (memtable : MemTable) (table : SSTableMetadata) :
    LSMTreeEngine :=
  { engine.withTables (engine.levels.modify 0 (·.addSstable table))
      (engine.files.insert engine.nextFileNumber (memtable.data.map Entry.persisted))
      (engine.nextFileNumber + 1) with
    wal := engine.wal ++ [.checkpoint memtable.sequence engine.nextFileNumber,
      .flushComplete engine.nextFileNumber 0] }

structure TableFor (engine : LSMTreeEngine) (memtable : MemTable) (table : SSTableMetadata) :
    Prop where
  number : table.fileNumber = engine.nextFileNumber
  holding : Holding
    (engine.files.insert engine.nextFileNumber (memtable.data.map Entry.persisted)) table
    memtable.data

theorem run_addToLevel0 (ready : engine.poisoned = false) (table : SSTableMetadata) :
    addToLevel0 table engine =
      .ok () { engine with levels := engine.levels.modify 0 (·.addSstable table) } := by
  rw [addToLevel0, bind_ok (run_lockLevels ready)]
  rfl

theorem writeMarker_bind {α : Type} (point : FlushPoint) (record : WalRecord)
    (rest : PUnit → EngineM α) :
    (writeMarker noFailure point record >>= rest) engine =
      rest ⟨⟩ { engine with wal := engine.wal ++ [record] } :=
  rfl

theorem run_persistMemtable (ready : engine.poisoned = false) {memtable : MemTable}
    (nonempty : memtable.data ≠ []) :
    ∃ table, TableFor engine memtable table ∧
      persistMemtable noFailure memtable engine = .ok () (engine.persisted memtable table) := by
  obtain ⟨first, rest, isData⟩ := exists_cons_of_ne_nil nonempty
  refine ⟨SSTable.describe engine.options.fileSize first rest engine.nextFileNumber 0,
    ⟨rfl, ?_⟩, ?_⟩
  · rw [isData]
    exact holding_describe (AList.lookup_insert _)
  · rw [persistMemtable, takeFileNumber, bind_ok (run_modifyGet _), MemTable.entries, isData,
      bind_ok (run_writeTable first rest _), writeMarker_bind,
      bind_ok (run_addToLevel0 (by exact ready) _), writeMarker_bind,
      bind_ok (run_saveManifest (by exact ready))]
    simp only [persisted, isData, append_assoc]
    rfl

/-- An engine that is in the middle of no call, with its tables stored. -/
structure Healthy (engine : LSMTreeEngine) : Prop where
  ready : engine.poisoned = false
  unflushed : engine.flushInProgress = false
  idle : engine.compactionInProgress = false
  settled : engine.immutableMemtable = none
  stored : Stored engine.levels engine.files engine.nextFileNumber

/-- The engine after a flush. -/
def settle (engine : LSMTreeEngine) : LSMTreeEngine :=
  { engine with immutableMemtable := none, flushInProgress := false }

section

variable (healthy : Healthy engine)

include healthy

/-- A flush swaps the memtable and gives it back in the end. -/
theorem maybeFlushMemtable_eq (fails : Failures) :
    maybeFlushMemtable fails engine =
      (do let result ← capture (flushImmutableMemtable fails)
          modify fun engine => { engine with immutableMemtable := none, flushInProgress := false }
          release result : EngineM Unit) engine.swapMemtable := by
  rw [maybeFlushMemtable, get_bind, if_neg (by simp [healthy.unflushed]),
    if_neg (by simp [healthy.settled]), set_bind]

/-- A flush of an empty memtable does nothing. -/
theorem maybeFlushMemtable_empty (empty : engine.memtable.data = []) :
    engine.flushedEngine = none ∧
      maybeFlushMemtable noFailure engine = .ok () { engine with memtable := MemTable.new } := by
  have isEmpty : engine.memtable.isEmpty = true := by simp [MemTable.isEmpty, empty]
  constructor
  · rw [flushedEngine, if_pos (.inr (.inr isEmpty))]
  · have flushed : flushImmutableMemtable noFailure engine.swapMemtable =
        .ok () engine.swapMemtable := by
      rw [flushImmutableMemtable, get_bind]
      simp only [swapMemtable]
      rw [if_pos isEmpty]
      rfl
    rw [maybeFlushMemtable_eq healthy, bind_ok (run_capture flushed), modify_bind]
    simp only [swapMemtable, ← healthy.settled, ← healthy.unflushed]
    rfl

/-- A flush writes the memtable to a table of level 0 and starts a compaction. -/
theorem maybeFlushMemtable_spec (nonempty : engine.memtable.data ≠ []) :
    ∃ table, TableFor engine engine.memtable table ∧
      engine.flushedEngine = some (engine.swapMemtable.persisted engine.memtable table) ∧
      ((∃ next, CompactionResult (engine.swapMemtable.persisted engine.memtable table)
            (.ok () next) ∧ maybeFlushMemtable noFailure engine = .ok () next.settle) ∨
        ∃ next, CompactionResult (engine.swapMemtable.persisted engine.memtable table)
            (.error .panicked next) ∧
          maybeFlushMemtable noFailure engine = .error .panicked next) := by
  have notEmpty : ¬engine.memtable.isEmpty = true := by simpa [MemTable.isEmpty] using nonempty
  obtain ⟨table, tableFor, ran⟩ :=
    run_persistMemtable (show engine.swapMemtable.poisoned = false from healthy.ready) nonempty
  refine ⟨table, ⟨tableFor.number, tableFor.holding⟩, ?_, ?_⟩
  · rw [flushedEngine, if_neg (by simp [healthy.unflushed, healthy.settled, notEmpty]), ran]
  · have flushed : flushImmutableMemtable noFailure engine.swapMemtable =
        maybeCompact (engine.swapMemtable.persisted engine.memtable table) := by
      rw [flushImmutableMemtable, get_bind]
      simp only [swapMemtable]
      rw [if_neg notEmpty]
      exact bind_ok ran
    have compacted : CompactionResult (engine.swapMemtable.persisted engine.memtable table)
        (maybeCompact (engine.swapMemtable.persisted engine.memtable table)) :=
      maybeCompact_spec healthy.ready healthy.idle
        (healthy.stored.flushed tableFor.number tableFor.holding).1
    rw [maybeFlushMemtable_eq healthy]
    cases result : maybeCompact (engine.swapMemtable.persisted engine.memtable table) with
    | ok value next =>
      refine .inl ⟨next, result ▸ compacted, ?_⟩
      rw [bind_ok (run_capture (flushed.trans result))]
      rfl
    | error fault next =>
      rw [result] at compacted
      have panicked := compacted
      cases compacted with
      | stuck =>
        refine .inr ⟨_, panicked, ?_⟩
        rw [bind_error (run_capture_panicked (flushed.trans result))]

end

end

end LSMTreeEngine

end Nanograph.Lsm
