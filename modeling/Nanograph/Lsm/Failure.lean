import Nanograph.Lsm.Reachable

/-!
# Flushes that fail

A flush takes the memtable away before it does anything that can fail, and gives up
its only other copy at the end. When the new table has not got into level 0 by then,
the entries of the memtable are lost to all reads.
-/

namespace Nanograph.Lsm

open List Foundation Kvt

namespace LSMTreeEngine

section

variable {engine next : LSMTreeEngine}

theorem mem_of_search {level : Level} {key : Bytes} {table : SSTableMetadata}
    (found : level.search key = some table) : table ∈ level.sstables := by
  rw [Level.search] at found
  split at found
  · exact mem_of_getElem? found
  · cases found

/-- Files of other numbers do not matter to a search. -/
theorem findInLevels_congr (levels : next.levels = engine.levels)
    (files : ∀ table ∈ engine.levels.flatMap (·.sstables),
      next.files.lookup table.fileNumber = engine.files.lookup table.fileNumber)
    (key : Bytes) : next.findInLevels key = engine.findInLevels key := by
  have same {table : SSTableMetadata} (mem : table ∈ engine.levels.flatMap (·.sstables)) :
      SSTable.get next.files table.fileNumber key =
        SSTable.get engine.files table.fileNumber key := by
    rw [SSTable.get, SSTable.get, files table mem]
  rw [findInLevels, findInLevels, findInLevel0, findInLevel0, levels]
  cases isLevels : engine.levels with
  | nil => rfl
  | cons level0 deeper =>
    rw [isLevels] at same
    congr 1
    · refine findSome?_of_agree fun table mem => ?_
      rw [same (mem_append_left _ (mem_reverse.mp mem))]
    · refine findSome?_of_agree fun level mem => ?_
      rw [findInLevel, findInLevel]
      cases searched : level.search key with
      | none => rfl
      | some table =>
        exact same (mem_flatMap.mpr
          ⟨level, mem_cons_of_mem _ mem, mem_of_search searched⟩)

/-- A search finds the entries of a table that was added to level 0 first. -/
theorem findInLevels_addSstable (levelled : engine.levels ≠ []) {memtable : MemTable}
    {table : SSTableMetadata} (holding : Holding engine.files table memtable.data) (key : Bytes) :
    { engine with levels := engine.levels.modify 0 (·.addSstable table) }.findInLevels key =
      ((memtable.get key).map Entry.persisted).or (engine.findInLevels key) := by
  have newest : (if table.covers key then
      SSTable.get engine.files table.fileNumber key else none) =
        (memtable.get key).map Entry.persisted := by
    rw [covered_get_eq (holding.written memtable.ascending)]
    exact (congrArg (entryAt · key) holding.contents_eq).trans (entryAt_persisted _ _)
  obtain ⟨level0, deeper, isLevels⟩ := exists_cons_of_ne_nil levelled
  rw [← newest]
  simp only [findInLevels, findInLevel0, isLevels]
  rw [← Option.or_assoc]
  congr 1
  simp only [modify_zero_cons, head?_cons, Option.map_some, Option.getD_some, Level.addSstable,
    reverse_append, reverse_singleton, singleton_append, findSome?_cons]
  split <;> simp_all

/-- A search finds the entries of a new table first. -/
theorem findInLevels_withTable (levelled : engine.levels ≠ [])
    (earlier : ∀ table ∈ engine.levels.flatMap (·.sstables),
      table.fileNumber < engine.nextFileNumber) {memtable : MemTable}
    {table : SSTableMetadata} (tableFor : TableFor engine memtable table) (key : Bytes) :
    (engine.withTable memtable table).findInLevels key =
      ((memtable.get key).map Entry.persisted).or (engine.findInLevels key) := by
  have older : { engine with files := (engine.withTable memtable table).files }.findInLevels key =
      engine.findInLevels key := by
    refine findInLevels_congr (by rfl) (fun other mem => ?_) key
    exact AList.lookup_insert_ne (earlier other mem).ne
  rw [← older]
  exact @findInLevels_addSstable { engine with files := (engine.withTable memtable table).files }
    levelled _ _ tableFor.holding key

variable {fails : Failures} {failure : KeyValueError}

/-- A compaction that returns an error has done nothing. -/
theorem runTask_error {task : CompactionTask}
    (failed : runTask task engine = .error (.error failure) next) : next = engine := by
  rw [runTask, get_bind] at failed
  cases executed : CompactionExecutor.execute engine.options.fileSize engine.options.blockSize
      engine.files task engine.nextFileNumber with
  | error cause =>
    rw [executed] at failed
    cases failed
    rfl
  | ok output =>
    obtain ⟨new, files, after⟩ := output
    simp only [executed] at failed
    cases installed : installSstables task new engine.levels with
    | none =>
      simp only [installed] at failed
      cases failed
    | some levels =>
      simp only [installed] at failed
      rw [set_bind] at failed
      cases poisoned : engine.poisoned with
      | true =>
        rw [saveManifest, bind_error (bind_error (run_lockLevels_poisoned
          (by exact poisoned)))] at failed
        cases failed
      | false =>
        rw [bind_ok (run_saveManifest (by exact poisoned))] at failed
        cases failed

theorem compactIfNeeded_error (failed : compactIfNeeded engine = .error (.error failure) next) :
    next = engine := by
  cases poisoned : engine.poisoned with
  | true =>
    rw [compactIfNeeded, bind_error (run_lockLevels_poisoned poisoned)] at failed
    cases failed
  | false =>
    rw [compactIfNeeded, bind_ok (run_lockLevels poisoned), get_bind] at failed
    split at failed
    next =>
      rw [compactLevel, bind_ok (run_lockLevels poisoned), get_bind] at failed
      cases selected : CompactionStrategy.default.selectCompaction
          (engine.levels.map (·.sstables)) engine.options.memtableSize with
      | none =>
        rw [selected] at failed
        cases failed
      | some task =>
        rw [selected] at failed
        exact runTask_error failed
    next => cases failed

/-- An error that was kept and returned comes from the computation it was kept for. -/
theorem error_of_capture {run : EngineM Unit} {change : LSMTreeEngine → LSMTreeEngine}
    (failed : (do let result ← capture run; modify change; release result : EngineM Unit) engine =
      .error (.error failure) next) :
    ∃ middle, run engine = .error (.error failure) middle ∧ next = change middle := by
  cases ran : run engine with
  | ok value middle =>
    rw [bind_ok (run_capture ran)] at failed
    cases failed
  | error fault middle =>
    cases fault with
    | panicked =>
      rw [bind_error (run_capture_panicked ran)] at failed
      cases failed
    | error cause =>
      rw [bind_ok (show capture run engine = .ok (.error cause) middle by rw [capture, ran])]
        at failed
      cases failed
      exact ⟨middle, rfl, rfl⟩

/-- What an engine with an error from its compaction still has. -/
theorem maybeCompact_error (failed : maybeCompact engine = .error (.error failure) next) :
    next = { engine with compactionInProgress := false } := by
  rw [maybeCompact, get_bind] at failed
  split at failed
  next => cases failed
  next =>
    obtain ⟨middle, ran, rfl⟩ := error_of_capture failed
    rw [compactIfNeeded_error ran]

/-- A flush that returns an error has got to the end of writing its table, or that failed. -/
theorem persisted_of_error (failed : flush fails engine = .error (.error failure) next) :
    engine.immutableMemtable = none ∧ engine.memtable.data ≠ [] ∧ ∃ busy,
      (∀ state, persistMemtable fails engine.memtable engine.swapMemtable ≠
        .error .panicked state) ∧
      next = { stateOf (persistMemtable fails engine.memtable engine.swapMemtable) with
        immutableMemtable := none
        flushInProgress := false
        compactionInProgress := busy } := by
  rw [flush, maybeFlushMemtable, get_bind] at failed
  split at failed
  next => cases failed
  next =>
    split at failed
    next => cases failed
    next unset =>
      refine ⟨by simpa using unset, ?_⟩
      obtain ⟨middle, ran, rfl⟩ := error_of_capture failed
      change (if engine.memtable.isEmpty = true then pure () else do
        persistMemtable fails engine.memtable
        maybeCompact : EngineM Unit) engine.swapMemtable = _ at ran
      split at ran
      next => cases ran
      next nonempty =>
        refine ⟨by simpa [MemTable.isEmpty] using nonempty, ?_⟩
        cases persisted : persistMemtable fails engine.memtable engine.swapMemtable with
        | ok value state =>
          rw [bind_ok persisted] at ran
          refine ⟨false, by simp, ?_⟩
          rw [maybeCompact_error ran]
          rfl
        | error fault state =>
          rw [bind_error persisted] at ran
          cases ran
          exact ⟨middle.compactionInProgress, by simp, rfl⟩

/-- A failed flush has taken the memtable away, and put a table in its place or not. -/
theorem flush_error (levelled : engine.levels ≠ [])
    (earlier : ∀ table ∈ engine.levels.flatMap (·.sstables),
      table.fileNumber < engine.nextFileNumber)
    (failed : flush fails engine = .error (.error failure) next) :
    engine.immutableMemtable = none ∧ next.immutableMemtable = none ∧
      next.memtable = MemTable.new ∧ next.poisoned = engine.poisoned ∧
      if tableFailure fails engine = none then
        engine.poisoned = false ∧ ∀ key, next.findInLevels key =
          ((engine.memtable.get key).map Entry.persisted).or (engine.findInLevels key)
      else ∀ key, next.findInLevels key = engine.findInLevels key := by
  obtain ⟨settled, nonempty, busy, returned, rfl⟩ := persisted_of_error failed
  refine ⟨settled, rfl, ?_⟩
  have spec := persistMemtable_spec fails nonempty engine.swapMemtable
  generalize persistMemtable fails engine.memtable engine.swapMemtable = result at spec returned
  have same : tableFailure fails engine = tableFailure fails engine.swapMemtable := rfl
  cases spec with
  | missing missed others =>
    refine ⟨rfl, rfl, ?_⟩
    rw [same, missed, if_neg nofun]
    refine findInLevels_congr (by rfl) fun table mem => ?_
    exact others _ (earlier table mem).ne
  | locked => exact absurd rfl (returned _)
  | present success ready tableFor saved =>
    obtain ⟨wal, manifest, -, frame⟩ := saved
    rw [frame]
    refine ⟨rfl, rfl, ?_⟩
    rw [same, success, if_pos rfl]
    exact ⟨ready, @findInLevels_withTable engine.swapMemtable levelled earlier _ _ tableFor⟩

end

end LSMTreeEngine

end Nanograph.Lsm
