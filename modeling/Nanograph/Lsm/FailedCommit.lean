import Nanograph.Lsm.Failure
import Nanograph.Lsm.Session

/-!
# Commits that fail

A commit applies its writes one by one, and what it has applied stays when a later write
fails. The write that fails may be in the memtable by then, and its flush may have taken
the memtable away.
-/

namespace Nanograph.Lsm

open List Function Foundation Kvt LSMTreeEngine LSMTransaction LSMKeyValueStore

/-- The record of an operation in the log. -/
def WriteOp.record (commitTs : Int) : WriteOp → WalRecord
  | .put key value => .putCommitted key value commitTs
  | .delete key => .deleteCommitted key commitTs

/-- What a write that fails has done: nothing, the write, or it has lost the memtable. -/
inductive FailedEffect where
  | nothing
  | written
  | lost

/-- The ways in which a write of a commit can fail, and the engine that it leaves. -/
inductive FailedWrite (commitTs : Int) (op : WriteOp) (engine : LSMTreeEngine) :
    FailedEffect → LSMTreeEngine → Prop where
  /-- The log refuses the record. -/
  | refused : FailedWrite commitTs op engine .nothing engine
  /-- The write fills the memtable, and an operation of the flush fails. -/
  | unflushed {fails : Failures} {cause : KeyValueError} {next : LSMTreeEngine}
      (full : (engine.logged (op.record commitTs)).memtable.size ≥ engine.options.memtableSize)
      (failed : flush fails (engine.logged (op.record commitTs)) = .error (.error cause) next) :
      FailedWrite commitTs op engine
        (if tableFailure fails (engine.logged (op.record commitTs)) = none then .written else .lost)
        next
  /-- The compaction behind the flush fails, with some of its new files written. -/
  | uncompacted {start : LSMTreeEngine} {task : CompactionTask} {files : TableFiles}
      (starts : engine.writtenEngine (op.record commitTs) = some start)
      (started : start.startedTask = some task)
      (older : ∀ number < start.nextFileNumber, files.lookup number = start.files.lookup number) :
      FailedWrite commitTs op engine .written { start with files }.settle
  /-- The compaction has its tables in the levels, and fails to save the manifest. -/
  | unsaved {start : LSMTreeEngine} {task : CompactionTask} {new : List SSTableMetadata}
      {files : TableFiles} {after : Nat} {levels : List Level} {manifest : ManifestFile}
      (starts : engine.writtenEngine (op.record commitTs) = some start)
      (started : start.startedTask = some task)
      (executed : CompactionExecutor.execute start.options.fileSize start.options.blockSize
        start.files task start.nextFileNumber = .ok (new, files, after))
      (installed : installSstables task new start.levels = some levels) :
      FailedWrite commitTs op engine .written
        { start with levels, files, nextFileNumber := after, manifest }.settle

/-- What is read of an engine after a write that has failed. -/
def FailedEffect.valueOf (op : WriteOp) (engine : LSMTreeEngine) (key : Bytes) :
    FailedEffect → Option Bytes
  | .nothing => engine.valueOf key
  | .written => if key = op.key then op.value else engine.valueOf key
  | .lost => readTables engine.levels engine.files key

/-- The writes of a commit that are done when one has failed. -/
def FailedEffect.done (written : List (ShardId × WriteOp)) (failed : ShardId × WriteOp) :
    FailedEffect → List (ShardId × WriteOp)
  | .nothing | .lost => written
  | .written => written ++ [failed]

/-- The shard whose memtable a failed write has lost. -/
def FailedEffect.shardLost (table : ShardId) : FailedEffect → Option ShardId
  | .nothing | .written => none
  | .lost => some table

section

variable {engine next : LSMTreeEngine} {commitTs : Int} {op : WriteOp}

/-- An engine without entries in memory reads its tables, also from other files that have
the same contents for them. -/
theorem get_of_tables {files : TableFiles} {number : Nat} (ready : next.poisoned = false)
    (empty : next.memtable = MemTable.new) (settled : next.immutableMemtable = none)
    (stored : Stored next.levels files number) (ordered : Ordered next.levels)
    (same : ∀ table ∈ next.levels.flatMap (·.sstables),
      contents next.files table = contents files table) (key : Bytes) :
    LSMTreeEngine.get key next = .ok (readTables next.levels files key) next := by
  rw [get_spec ready (fun table mem => ?_) ordered, valueOf_of_settled settled, empty]
  · refine congrArg (EStateM.Result.ok · next) (?_ : readTables next.levels next.files key = _)
    rw [readTables, readTables, map_congr_left fun table mem => same table (mem_readOrder.mp mem)]
  · obtain ⟨nonempty, ascending, within⟩ := stored.written table mem
    rw [← same table mem] at nonempty ascending within
    exact ⟨nonempty, ascending, within⟩

/-- A failed flush leaves the tables, with that of the memtable or without it. -/
theorem LSMTreeEngine.Sound.get_unflushed {fails : Failures} {cause : KeyValueError}
    (sound : Sound engine) (failed : LSMTreeEngine.flush fails engine = .error (.error cause) next)
    (key : Bytes) :
    LSMTreeEngine.get key next = .ok (if tableFailure fails engine = none then engine.valueOf key
      else readTables engine.levels engine.files key) next := by
  have levelled : engine.levels ≠ [] := by
    intro empty
    simpa [empty] using sound.stored.numbered
  obtain ⟨settled, nextSettled, empty, ready, found⟩ :=
    flush_error levelled sound.stored.issued failed
  have tables := findInLevels_eq key sound.stored.written sound.ordered
  rw [LSMTreeEngine.get, get_bind, empty, nextSettled]
  refine (bind_ok (run_lockLevels (ready.trans sound.ready))).trans ?_
  refine congrArg (EStateM.Result.ok · next) ?_
  split at found
  next registered =>
    rw [if_pos registered, found.2, valueOf_of_settled settled, tables]
    cases engine.memtable.get key <;> rfl
  next unregistered =>
    rw [if_neg unregistered, found, tables]
    rfl

/-- What is read after a write that has failed. -/
theorem FailedWrite.get_spec {effect : FailedEffect}
    (failed : FailedWrite commitTs op engine effect next) (sound : Sound engine)
    (faithful : engine.CompactionMeets Faithful (op.toCall commitTs)) (key : Bytes) :
    LSMTreeEngine.get key next = .ok (effect.valueOf op engine key) next := by
  have writes : (op.record commitTs).write? = some (op.key, op.value) := by cases op <;> rfl
  have isRecord : (op.toCall commitTs).record? = some (op.record commitTs) := by cases op <;> rfl
  obtain ⟨logged, values, -⟩ := sound.logged writes
  have starting {start : LSMTreeEngine}
      (starts : engine.writtenEngine (op.record commitTs) = some start) :
      (engine.logged (op.record commitTs)).flushedEngine = some start := by
    rw [writtenEngine] at starts
    split at starts
    next => exact starts
    next => cases starts
  have begun : ∀ start ∈ engine.writtenEngine (op.record commitTs), ∀ task ∈ start.startedTask,
      Faithful start.levels start.files task := compactionStart_of_record isRecord ▸ faithful
  cases failed with
  | refused => exact LSMTreeEngine.get_spec sound.ready sound.stored.written sound.ordered key
  | unflushed full failed =>
    rw [logged.get_unflushed failed key]
    split
    next => rw [values]; rfl
    next => rw [logged_frame]; rfl
  | uncompacted starts started older =>
    obtain ⟨stored, ordered, ready, empty, reads⟩ := logged.flushedEngine (starting starts)
    rw [FailedEffect.valueOf, ← values, ← reads]
    refine get_of_tables (by exact ready) (by exact empty) rfl (by exact stored)
      (by exact ordered) (fun table mem => ?_) key
    rw [contents, contents]
    exact congrArg (·.getD []) (older _ (stored.issued table mem))
  | @unsaved start task new files after levels manifest starts started executed installed =>
    obtain ⟨stored, ordered, ready, empty, reads⟩ := logged.flushedEngine (starting starts)
    have loses := begun start starts task started
    rw [startedTask] at started
    split at started
    next =>
      obtain ⟨_, _, _, executed', outcome⟩ := compacted_or_stuck stored started
        start.options.fileSize start.options.blockSize
      rw [executed, Except.ok.injEq, Prod.mk.injEq, Prod.mk.injEq] at executed'
      obtain ⟨rfl, rfl, rfl⟩ := executed'
      rcases outcome with ⟨_, installed', compacted⟩ | ⟨installed', -⟩
      · rw [installed, Option.some_inj] at installed'
        subst installed'
        rw [FailedEffect.valueOf, ← values, ← reads, ← compacted.reads loses]
        refine get_of_tables (by exact ready) (by exact empty) rfl (by exact compacted.stored)
          (by exact (compacted.ordered_iff ordered).mpr loses.inOrder) (fun table mem => ?_) key
        have present := (compacted.stored.written table mem).present
        rw [lookup_removeFiles] at present
        split at present
        next => cases present
        next kept =>
          rw [contents, contents, lookup_removeFiles, if_neg kept]
          rfl
      · rw [installed] at installed'
        cases installed'
    next => cases started

/-- The operations behind some that succeed are still allowed. -/
theorem Allowed.after {written rest : List (ShardId × WriteOp)} {store reached : LSMKeyValueStore}
    (allowed : Allowed commitTs (written ++ rest) store)
    (ran : (forM written fun item => applyOp commitTs item.1 item.2) store = .ok ⟨⟩ reached) :
    Allowed commitTs rest reached := by
  induction written generalizing store with
  | nil =>
    cases ran
    exact allowed
  | cons item later ih =>
    rw [forM_cons, bind_eq_ok] at ran
    obtain ⟨⟨⟩, middle, first, ran⟩ := ran
    cases found : store item.1 with
    | none =>
      rw [applyOp_eq, onEngine_missing found] at first
      cases first
    | some engine =>
      obtain ⟨next, applied, allowedNext⟩ := allowed.cons found
      rw [applied] at first
      cases first
      exact ih allowedNext ran

end

namespace Session

/-- The ways in which a commit can return an error, with the writes that it has done, the shard
whose memtable it has lost, and the store that it leaves. -/
inductive FailedCommit (order : VisitOrder (ShardId × List WriteOp)) (session : Session)
    (now : Nat) (commitTs : Int) :
    List (ShardId × WriteOp) → Option ShardId → LSMKeyValueStore → Prop where
  /-- The transaction is not active any more. -/
  | ended {cause : KeyValueError} (ended : session.tx.checkActive now = .error cause) :
      FailedCommit order session now commitTs [] none session.store
  /-- A write has no shard. -/
  | missing {written rest : List (ShardId × WriteOp)} {table : ShardId} {op : WriteOp}
      {reached : LSMKeyValueStore} (active : session.tx.checkActive now = .ok ())
      (isSplit : ungrouped (order.visit session.tx.buffered) = written ++ (table, op) :: rest)
      (ran : (forM written fun item => applyOp commitTs item.1 item.2) session.store =
        .ok ⟨⟩ reached) (missing : reached table = none) :
      FailedCommit order session now commitTs written none reached
  /-- A write fails in its engine. -/
  | failed {written rest : List (ShardId × WriteOp)} {table : ShardId} {op : WriteOp}
      {reached : LSMKeyValueStore} {engine next : LSMTreeEngine} {effect : FailedEffect}
      (active : session.tx.checkActive now = .ok ())
      (isSplit : ungrouped (order.visit session.tx.buffered) = written ++ (table, op) :: rest)
      (ran : (forM written fun item => applyOp commitTs item.1 item.2) session.store =
        .ok ⟨⟩ reached) (found : reached table = some engine)
      (failed : FailedWrite commitTs op engine effect next) :
      FailedCommit order session now commitTs (effect.done written (table, op))
        (effect.shardLost table) (update reached table (some next))

theorem run'_get_eq (store : LSMKeyValueStore) (table : ShardId) (key : Bytes) :
    (LSMKeyValueStore.get table key).run' store =
      (withEngine table (LSMTreeEngine.get key)).run' (store table) := by
  rw [EStateM.run', EStateM.run', EStateM.run, EStateM.run, LSMKeyValueStore.get, onTarget]
  cases withEngine table (LSMTreeEngine.get key) (store table) <;> rfl

/-- A read that finds what was written last finds the same as before if that was there before. -/
theorem read_eq_iff {last : Option WriteOp} {old new : Option (Option Bytes)}
    (reads : new = match last with
      | some op => some op.value
      | none => old) : new = old ↔ ∀ op, last = some op → old = some op.value := by
  subst reads
  cases last <;> simp [eq_comm]

end Session

end Nanograph.Lsm
