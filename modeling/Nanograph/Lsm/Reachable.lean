import Nanograph.Lsm.Recovery

/-!
# The states of an engine

An engine may be opened, used and opened again, and its flushes may fail at every
file operation. In all states that it comes to, its tables have file numbers of
their own, and all of them lie before the next one.
-/

namespace Nanograph.Lsm

open List Foundation Kvt LSMTreeEngine CompactionExecutor

/-- The tables have different file numbers, all of them before the next one. -/
structure Issued (levels : List Level) (next : Nat) : Prop where
  earlier : ∀ table ∈ levels.flatMap (·.sstables), table.fileNumber < next
  distinct : ((levels.flatMap (·.sstables)).map (·.fileNumber)).Nodup

namespace Issued

variable {levels : List Level} {next : Nat}

variable {later : Nat} {new : List SSTableMetadata}

theorem mono (issued : Issued levels next) (le : next ≤ later) : Issued levels later :=
  ⟨fun table mem => (issued.earlier table mem).trans_le le, issued.distinct⟩

/-- New tables with new numbers, and old tables that may be dropped. -/
theorem of_subperm {others : List Level} (issued : Issued levels next) (le : next ≤ later)
    (tables : (others.flatMap (·.sstables)).Subperm (levels.flatMap (·.sstables) ++ new))
    (numbers : ∀ table ∈ new, next ≤ table.fileNumber ∧ table.fileNumber < later)
    (distinct : (new.map (·.fileNumber)).Nodup) : Issued others later := by
  refine ⟨fun table mem => ?_, ?_⟩
  · rcases mem_append.mp (tables.subset mem) with old | isNew
    · exact (issued.earlier table old).trans_le le
    · exact (numbers table isNew).2
  · obtain ⟨kept, perm, sublist⟩ := tables
    refine ((perm.map _).nodup_iff).mp ((sublist.map _).nodup ?_)
    rw [map_append, nodup_append]
    refine ⟨issued.distinct, distinct, fun number old other isNew => ?_⟩
    obtain ⟨oldTable, oldMember, rfl⟩ := mem_map.mp old
    obtain ⟨newTable, newMember, rfl⟩ := mem_map.mp isNew
    have before := issued.earlier oldTable oldMember
    have after := (numbers newTable newMember).1
    omega

theorem subperm_addSstable (levels : List Level) (index : Nat) (table : SSTableMetadata) :
    ((levels.modify index (·.addSstable table)).flatMap (·.sstables)).Subperm
      (levels.flatMap (·.sstables) ++ [table]) := by
  by_cases inside : index < levels.length
  · have added := flatMap_modify_perm (·.sstables)
      (fun level => show (level.addSstable table).sstables = level.sstables ++ [table] from rfl)
      inside
    exact added.subperm
  · rw [modify_eq_self (by omega)]
    exact (sublist_append_left _ _).subperm

/-- A new table in one of the levels. -/
theorem add {table : SSTableMetadata} {index : Nat} (issued : Issued levels next)
    (after : next ≤ table.fileNumber) (before : table.fileNumber < later) :
    Issued (levels.modify index (·.addSstable table)) later := by
  apply issued.of_subperm (after.trans before.le) (subperm_addSstable levels index table)
  · simpa using ⟨after, before⟩
  · exact nodup_singleton _

theorem sublist_removeSstables (level : Level) (tables : List SSTableMetadata) :
    (level.removeSstables tables).sstables.Sublist level.sstables := by
  induction tables generalizing level with
  | nil => exact List.Sublist.refl _
  | cons table rest ih =>
    have first : (level.removeSstable table.fileNumber).sstables.Sublist level.sstables := by
      rw [Level.removeSstable]
      split
      · exact eraseP_sublist
      · exact List.Sublist.refl _
    exact (ih _).trans first

section

variable {others : List Level} {task : CompactionTask} {new : List SSTableMetadata}
  (installed : installSstables task new levels = some others)

include installed

theorem subperm_installSstables :
    (others.flatMap (·.sstables)).Subperm (levels.flatMap (·.sstables) ++ new) := by
  have shrinks (levels : List Level) (tables : List SSTableMetadata) (index : Nat) :=
    flatMap_modify_sublist (·.sstables) (sublist_removeSstables · tables) levels index
  rw [installSstables] at installed
  split at installed
  next room =>
    cases installed
    have removed := (shrinks (levels.modify task.sourceLevel
      (·.removeSstables task.sourceSstables)) task.targetSstables task.targetLevel).trans
        (shrinks levels task.sourceSstables task.sourceLevel)
    by_cases inside : task.targetLevel < ((levels.modify task.sourceLevel
        (·.removeSstables task.sourceSstables)).modify task.targetLevel
          (·.removeSstables task.targetSstables)).length
    · have added := flatMap_modify_perm (·.sstables)
        (fun level => (addSstables_spec level new).2) inside
      exact added.subperm.trans (removed.append_right new).subperm
    · rw [modify_eq_self (not_lt.mp inside), room.resolve_right inside, append_nil]
      exact removed.subperm
  next => cases installed

theorem length_installSstables : others.length = levels.length := by
  rw [installSstables] at installed
  split at installed
  next =>
    cases installed
    simp
  next => cases installed

end

/-- A compaction gives its tables the next numbers. -/
theorem execute {fileSize : List Entry → Nat} {blockSize after : Nat} {files written : TableFiles}
    {task : CompactionTask}
    (executed : CompactionExecutor.execute fileSize blockSize files task next =
      .ok (new, written, after)) :
    new.map (·.fileNumber) = List.range' next new.length ∧ after = next + new.length := by
  rw [CompactionExecutor.execute] at executed
  split at executed
  next => cases executed
  next tables _ =>
    obtain ⟨-, nonempty⟩ := splitBatches_spec (blockSize * 1024) 0 []
      (deduplicateAndFilter none (mergeSstables tables))
    obtain ⟨outputs, others, wrote, numbers, holding, -⟩ :=
      writeSstables_spec fileSize task.targetLevel nonempty files next
    cases wrote.symm.trans executed
    rw [numbers, holding.length_eq]
    exact ⟨rfl, rfl⟩

/-- The tables of a compaction in the place of its inputs. -/
theorem install {others : List Level} {task : CompactionTask} (issued : Issued levels next)
    (installed : installSstables task new levels = some others)
    (numbers : new.map (·.fileNumber) = List.range' next new.length) :
    Issued others (next + new.length) := by
  refine issued.of_subperm (Nat.le_add_right _ _) (subperm_installSstables installed)
    (fun table mem => ?_) (numbers ▸ nodup_range')
  have inRange : table.fileNumber ∈ List.range' next new.length :=
    numbers ▸ mem_map_of_mem mem
  simpa using inRange

end Issued

namespace LSMTreeEngine

/-- What holds of the file numbers of an engine at all times. -/
structure Numbered (engine : LSMTreeEngine) : Prop where
  levelled : engine.levels ≠ []
  issued : Issued engine.levels engine.nextFileNumber
  manifest : ∀ entries, engine.manifest = .written entries →
    (∀ entry ∈ entries, entry.metadata.fileNumber = entry.fileNumber) ∧
      (entries.map (·.fileNumber)).Nodup

section

variable {α : Type} {engine : LSMTreeEngine}

theorem Numbered.of_same {next : LSMTreeEngine} (numbered : Numbered engine)
    (levels : next.levels = engine.levels) (number : engine.nextFileNumber ≤ next.nextFileNumber)
    (manifest : next.manifest = engine.manifest) : Numbered next :=
  ⟨levels ▸ numbered.levelled, levels ▸ numbered.issued.mono number, manifest ▸ numbered.manifest⟩

/-- A manifest that lists the tables lists their numbers. -/
theorem Numbered.written (numbered : Numbered engine) :
    Numbered { engine with manifest := .written (manifestEntries engine.levels) } := by
  refine ⟨numbered.levelled, numbered.issued, fun entries isManifest => ?_⟩
  cases isManifest
  refine ⟨fun entry mem => ?_, ?_⟩
  · simp only [manifestEntries, mem_flatMap, mem_map] at mem
    obtain ⟨level, -, table, -, rfl⟩ := mem
    rfl
  · simpa [manifestEntries, map_flatMap, Function.comp_def] using numbered.issued.distinct

theorem keeps_numbered_saveManifest (fails : Failures) : Keeps Numbered (saveManifest fails) := by
  refine keeps_bind keeps_lockLevels fun _ =>
    keeps_bind (keeps_attempt fails _) fun _ => keeps_bind ?_ fun _ =>
      keeps_bind (keeps_attempt fails _) fun _ => keeps_bind
        (keeps_modify fun engine numbered => ?_) fun _ =>
        keeps_bind (keeps_attempt fails _) fun _ =>
          keeps_bind (keeps_modify fun _ => Numbered.written) fun _ =>
            keeps_attempt fails _
  · refine keeps_get_bind fun engine numbered => ?_
    refine keeps_ite (keeps_bind (keeps_attempt fails _) fun _ =>
      keeps_modify fun engine numbered => ?_) (keeps_pure _) engine numbered
    exact ⟨numbered.levelled, numbered.issued, fun _ isManifest => by cases isManifest⟩
  · exact ⟨numbered.levelled, numbered.issued, fun _ isManifest => by cases isManifest⟩

theorem keeps_numbered_runTask (task : CompactionTask) : Keeps Numbered (runTask task) := by
  refine keeps_get_bind fun engine numbered => ?_
  cases executed : CompactionExecutor.execute engine.options.fileSize engine.options.blockSize
      engine.files task engine.nextFileNumber with
  | error failure => exact numbered
  | ok output =>
    obtain ⟨new, files, after⟩ := output
    obtain ⟨numbers, rfl⟩ := Issued.execute executed
    cases installed : installSstables task new engine.levels with
    | none =>
      simp only [installed]
      exact numbered.of_same rfl (Nat.le_add_right _ _) rfl
    | some levels =>
      simp only [installed]
      have levelled : levels ≠ [] := by
        rw [← length_pos_iff, Issued.length_installSstables installed]
        exact length_pos_iff.mpr numbered.levelled
      have issued := numbered.issued.install installed numbers
      refine keeps_bind (keeps_numbered_saveManifest noFailure) (fun _ => keeps_modify
        fun _ numbered => ?_) _ ⟨levelled, issued, numbered.manifest⟩
      exact numbered.of_same rfl le_rfl rfl

theorem keeps_numbered_maybeCompact : Keeps Numbered maybeCompact := by
  refine keeps_get_bind fun engine numbered => ?_
  refine keeps_ite (keeps_pure _) ?_ engine numbered
  refine keeps_bind (keeps_modify fun _ numbered => numbered.of_same rfl le_rfl rfl) fun _ =>
    keeps_bind (keeps_capture ?_) fun result => keeps_bind
      (keeps_modify fun _ numbered => numbered.of_same rfl le_rfl rfl) fun _ =>
        keeps_release result
  refine keeps_bind keeps_lockLevels fun _ => keeps_get_bind fun engine numbered => ?_
  refine keeps_ite (keeps_bind keeps_lockLevels fun _ => keeps_get_bind
    fun engine numbered => ?_) (keeps_pure _) engine numbered
  cases CompactionStrategy.default.selectCompaction (engine.levels.map (·.sstables))
      engine.options.memtableSize with
  | none => exact numbered
  | some task => exact keeps_numbered_runTask task engine numbered

variable {fails : Failures}

/-- What keeps a table file from being written, if anything does. -/
def writeFailure (fails : Failures) (engine : LSMTreeEngine) (number : Nat) : Option String :=
  (fails .checkExists).or <| ((engine.files.lookup number).bind fun _ => fails .removeStale).or <|
    (fails .createFile).or <| (fails .writeTable).or (fails .syncFile)

/-- What keeps a new table from its place in level 0, if anything does. -/
def tableFailure (fails : Failures) (engine : LSMTreeEngine) : Option String :=
  (writeFailure fails engine engine.nextFileNumber).or (fails .writeCheckpoint)

/-- A manifest that may be on its way to one with the tables of the levels. -/
def SavedOver (old : ManifestFile) (levels : List Level) (manifest : ManifestFile) : Prop :=
  manifest ∈ [old, .missing, .blank, .written (manifestEntries levels)]

/-- An engine that differs from another one in its log and its manifest. -/
def SavedFrom (engine next : LSMTreeEngine) : Prop :=
  ∃ wal manifest, SavedOver engine.manifest engine.levels manifest ∧
    next = { engine with wal, manifest }

/-- The engine with a table for a memtable in level 0. -/
def withTable (engine : LSMTreeEngine) (memtable : MemTable) (table : SSTableMetadata) :
    LSMTreeEngine :=
  { engine with
    levels := engine.levels.modify 0 (·.addSstable table)
    files := engine.files.insert engine.nextFileNumber (memtable.data.map Entry.persisted)
    nextFileNumber := engine.nextFileNumber + 1 }

/-- What comes of writing a memtable to a table: the table gets no place in level 0, the
levels are locked for good, or the table is in level 0, whatever comes then. -/
inductive Persisting (fails : Failures) (memtable : MemTable) (engine : LSMTreeEngine) :
    EStateM.Result EngineFault LSMTreeEngine Unit → Prop
  | missing {message : String} (failure : tableFailure fails engine = some message)
      {files : TableFiles}
      (others : ∀ number, number ≠ engine.nextFileNumber →
        files.lookup number = engine.files.lookup number) :
      Persisting fails memtable engine (.error (.error (.storageCorruption message))
        { engine with files, nextFileNumber := engine.nextFileNumber + 1 })
  | locked (poisoned : engine.poisoned = true) {files : TableFiles} {wal : List WalRecord} :
      Persisting fails memtable engine (.error .panicked
        { engine with files, wal, nextFileNumber := engine.nextFileNumber + 1 })
  | present (success : tableFailure fails engine = none) (ready : engine.poisoned = false)
      {table : SSTableMetadata} (tableFor : TableFor engine memtable table)
      {result : EStateM.Result EngineFault LSMTreeEngine Unit}
      (saved : SavedFrom (engine.withTable memtable table) (stateOf result)) :
      Persisting fails memtable engine result

theorem attempt_bind_none {α : Type} {point : FlushPoint} (succeeds : fails point = none)
    (rest : PUnit → EngineM α) : (attempt fails point >>= rest) engine = rest ⟨⟩ engine := by
  rw [attempt, succeeds]
  rfl

theorem attempt_bind_some {α : Type} {point : FlushPoint} {message : String}
    (failed : fails point = some message) (rest : PUnit → EngineM α) :
    (attempt fails point >>= rest) engine =
      .error (.error (.storageCorruption message)) engine := by
  rw [attempt, failed]
  rfl

theorem keeps_saved_saveManifest (start : LSMTreeEngine) (fails : Failures) :
    Keeps (SavedFrom start) (saveManifest fails) := by
  refine keeps_bind keeps_lockLevels fun _ =>
    keeps_bind (keeps_attempt fails _) fun _ => keeps_bind ?_ fun _ =>
      keeps_bind (keeps_attempt fails _) fun _ => keeps_bind (keeps_modify ?_) fun _ =>
        keeps_bind (keeps_attempt fails _) fun _ => keeps_bind (keeps_modify ?_)
          fun _ => keeps_attempt fails _
  · refine keeps_get_bind fun engine saved => ?_
    refine keeps_ite (keeps_bind (keeps_attempt fails _) fun _ => keeps_modify ?_)
      (keeps_pure _) engine saved
    rintro state ⟨wal, manifest, -, rfl⟩
    exact ⟨wal, .missing, by simp [SavedOver], rfl⟩
  · rintro state ⟨wal, manifest, -, rfl⟩
    exact ⟨wal, .blank, by simp [SavedOver], rfl⟩
  · rintro state ⟨wal, manifest, -, rfl⟩
    exact ⟨wal, _, by simp [SavedOver], rfl⟩

/-- A file in the way is removed, if there is one. -/
theorem removeStale_spec (fails : Failures) (engine : LSMTreeEngine) (number : Nat) :
    match (engine.files.lookup number).bind fun _ => fails .removeStale with
    | some message => removeStale fails number engine =
        .error (.error (.storageCorruption message)) engine
    | none => ∃ files, removeStale fails number engine = .ok () { engine with files } ∧
        ∀ entries, files.insert number entries = engine.files.insert number entries := by
  rw [removeStale, get_bind]
  cases found : engine.files.lookup number with
  | none => exact ⟨engine.files, rfl, fun _ => rfl⟩
  | some entries =>
    cases failed : fails .removeStale with
    | none =>
      exact ⟨engine.files.erase number, attempt_bind_none failed _,
        insert_erase engine.files number⟩
    | some message => exact attempt_bind_some failed _

theorem lookup_of_insert_eq {files others : TableFiles} {number : Nat}
    (same : ∀ entries, files.insert number entries = others.insert number entries) {other : Nat}
    (different : other ≠ number) : files.lookup other = others.lookup other := by
  have inserted := congrArg (AList.lookup other) (same [])
  rwa [AList.lookup_insert_ne different, AList.lookup_insert_ne different] at inserted

/-- A table file is written, or what is in its place is of no account. -/
theorem writeTable_spec (fails : Failures) (engine : LSMTreeEngine) (first : Entry)
    (rest : List Entry) (number : Nat) :
    match writeFailure fails engine number with
    | some message => ∃ files, writeTable fails (first :: rest) number engine =
        .error (.error (.storageCorruption message)) { engine with files } ∧
        ∀ other, other ≠ number → files.lookup other = engine.files.lookup other
    | none => writeTable fails (first :: rest) number engine =
        .ok (SSTable.describe engine.options.fileSize first rest number 0)
          { engine with
            files := engine.files.insert number ((first :: rest).map Entry.persisted) } := by
  rw [writeFailure, writeTable]
  cases checks : fails .checkExists with
  | some message => exact ⟨engine.files, attempt_bind_some checks _, fun _ _ => rfl⟩
  | none =>
    rw [attempt_bind_none checks, Option.none_or]
    have stale := removeStale_spec fails engine number
    cases removes : (engine.files.lookup number).bind fun _ => fails .removeStale with
    | some message =>
      rw [removes] at stale
      exact ⟨engine.files, bind_error stale, fun _ _ => rfl⟩
    | none =>
      rw [removes] at stale
      obtain ⟨files, removed, overwritten⟩ := stale
      rw [bind_ok removed, Option.none_or]
      cases creates : fails .createFile with
      | some message =>
        exact ⟨files, attempt_bind_some creates _,
          fun other different => lookup_of_insert_eq overwritten different⟩
      | none =>
        rw [attempt_bind_none creates, modify_bind, Option.none_or]
        have inserted (entries : List Entry) (other : Nat) (different : other ≠ number) :
            (files.insert number entries).lookup other = engine.files.lookup other := by
          rw [overwritten, AList.lookup_insert_ne different]
        cases writes : fails .writeTable with
        | some message =>
          exact ⟨_, attempt_bind_some writes _, inserted []⟩
        | none =>
          rw [attempt_bind_none writes, get_bind, Option.none_or]
          cases syncs : fails .syncFile with
          | some message =>
            refine ⟨_, attempt_bind_some syncs _, fun other different => ?_⟩
            exact (AList.lookup_insert_ne different).trans (inserted [] other different)
          | none =>
            have twice (entries : List Entry) : engine.files.insert number entries =
                (files.insert number []).insert number entries := by
              rw [AList.insert_insert, overwritten]
            rw [twice]
            exact attempt_bind_none syncs _

theorem persistMemtable_spec (fails : Failures) {memtable : MemTable}
    (nonempty : memtable.data ≠ []) (engine : LSMTreeEngine) :
    Persisting fails memtable engine (persistMemtable fails memtable engine) := by
  obtain ⟨first, rest, isData⟩ := exists_cons_of_ne_nil nonempty
  rw [persistMemtable, takeFileNumber, bind_ok (run_modifyGet _), MemTable.entries, isData]
  have wrote := writeTable_spec fails
    { engine with nextFileNumber := engine.nextFileNumber + 1 } first rest engine.nextFileNumber
  have failure : tableFailure fails engine = (writeFailure fails
    { engine with nextFileNumber := engine.nextFileNumber + 1 } engine.nextFileNumber).or
      (fails .writeCheckpoint) := rfl
  cases writes : writeFailure fails
      { engine with nextFileNumber := engine.nextFileNumber + 1 } engine.nextFileNumber with
  | some message =>
    rw [writes] at wrote failure
    obtain ⟨files, failed, others⟩ := wrote
    rw [bind_error failed]
    exact .missing failure others
  | none =>
    rw [writes] at wrote failure
    rw [bind_ok wrote, writeMarker]
    cases checkpoints : fails .writeCheckpoint with
    | some message =>
      rw [bind_error (attempt_bind_some checkpoints _)]
      exact .missing (failure.trans checkpoints)
        fun other different => AList.lookup_insert_ne different
    | none =>
      have marked (state : LSMTreeEngine) (record : WalRecord) :
          writeMarker fails .writeCheckpoint record state =
            .ok () { state with wal := state.wal ++ [record] } :=
        attempt_bind_none checkpoints _
      rw [← writeMarker, bind_ok (marked _ _)]
      by_cases poisoned : engine.poisoned = true
      · rw [addToLevel0, bind_error (bind_error (run_lockLevels_poisoned (by exact poisoned)))]
        exact .locked poisoned
      · have ready : engine.poisoned = false := by simpa using poisoned
        rw [bind_ok (run_addToLevel0 (by exact ready) _)]
        have tableFor : TableFor engine memtable
            (SSTable.describe engine.options.fileSize first rest engine.nextFileNumber 0) := by
          refine ⟨rfl, ?_⟩
          rw [isData]
          exact holding_describe (AList.lookup_insert _)
        refine .present (failure.trans checkpoints) ready tableFor (keeps_bind (keeps_bind
          (keeps_attempt fails _) fun _ => keeps_modify ?_) (fun _ => keeps_bind
            (keeps_saved_saveManifest _ fails) fun _ => keeps_bind
              (keeps_attempt fails _) fun _ => keeps_attempt fails _) _
          ⟨engine.wal ++ [.checkpoint memtable.sequence engine.nextFileNumber],
            engine.manifest, mem_cons_self, ?_⟩)
        · rintro state ⟨wal, manifest, saved, rfl⟩
          exact ⟨_, manifest, saved, rfl⟩
        · rw [withTable, isData]

/-- A flush takes new numbers for its tables, whatever fails. -/
theorem keeps_numbered_persistMemtable (fails : Failures) {memtable : MemTable}
    (nonempty : memtable.data ≠ []) : Keeps Numbered (persistMemtable fails memtable) := by
  intro engine numbered
  have spec := persistMemtable_spec fails nonempty engine
  generalize persistMemtable fails memtable engine = result at spec
  cases spec with
  | missing => exact numbered.of_same rfl (Nat.le_succ _) rfl
  | locked => exact numbered.of_same rfl (Nat.le_succ _) rfl
  | @present _ _ table tableFor _ saved =>
    obtain ⟨wal, manifest, isSaved, frame⟩ := saved
    rw [frame]
    have number := tableFor.number
    have added : Numbered (engine.withTable memtable table) := by
      refine ⟨?_, numbered.issued.add number.ge (number ▸ Nat.lt_succ_self _), numbered.manifest⟩
      rw [← length_pos_iff, withTable, length_modify]
      exact length_pos_iff.mpr numbered.levelled
    simp only [SavedOver, mem_cons, not_mem_nil, or_false] at isSaved
    rcases isSaved with rfl | rfl | rfl | rfl
    · exact added.of_same rfl le_rfl rfl
    · exact ⟨added.levelled, added.issued, fun _ isManifest => by cases isManifest⟩
    · exact ⟨added.levelled, added.issued, fun _ isManifest => by cases isManifest⟩
    · exact added.written.of_same rfl le_rfl rfl

theorem keeps_numbered_maybeFlushMemtable (fails : Failures) :
    Keeps Numbered (maybeFlushMemtable fails) := by
  refine keeps_get_bind fun engine numbered => ?_
  refine keeps_ite (keeps_pure _) (keeps_ite (keeps_pure _) ?_) engine numbered
  refine keeps_bind (fun _ _ => numbered.of_same rfl le_rfl rfl) fun _ =>
    keeps_bind (keeps_capture ?_) fun result => keeps_bind
      (keeps_modify fun _ numbered => numbered.of_same rfl le_rfl rfl) fun _ =>
        keeps_release result
  refine keeps_get_bind fun swapped numbered => ?_
  cases swapped.immutableMemtable with
  | none => exact numbered
  | some memtable =>
    by_cases empty : memtable.isEmpty = true
    · simp only [if_pos empty]
      exact numbered
    · simp only [if_neg empty]
      have nonempty : memtable.data ≠ [] := by simpa [MemTable.isEmpty] using empty
      exact keeps_bind (keeps_numbered_persistMemtable fails nonempty)
        (fun _ => keeps_numbered_maybeCompact) swapped numbered

theorem Numbered.logged (numbered : Numbered engine) (record : WalRecord) :
    Numbered (engine.logged record) := by
  rw [logged_frame]
  exact numbered.of_same rfl le_rfl rfl

/-- All calls give new tables new numbers. -/
theorem Numbered.call (numbered : Numbered engine) (input : EngineCall) :
    Numbered (engine.call input).2 := by
  cases recorded : input.record? with
  | some record =>
    rw [call_of_record recorded, answer_snd]
    exact keeps_bind (keeps_modify fun _ numbered => numbered.logged record) (fun _ =>
      keeps_get_bind fun engine numbered => keeps_ite
        (keeps_numbered_maybeFlushMemtable noFailure) (keeps_pure _) engine numbered)
      engine numbered
  | none =>
    cases input with
    | put | delete | putCommitted | deleteCommitted => cases recorded
    | get key =>
      rw [LSMTreeEngine.call, answer_snd]
      exact keeps_get key engine numbered
    | flush =>
      rw [LSMTreeEngine.call, answer_snd]
      exact keeps_numbered_maybeFlushMemtable noFailure engine numbered
    | compact =>
      rw [LSMTreeEngine.call, answer_snd]
      exact keeps_numbered_maybeCompact engine numbered
    | checkpoint =>
      rw [LSMTreeEngine.call, answer_snd]
      exact keeps_get_bind (fun state numbered => keeps_bind
        (keeps_modify fun _ numbered => numbered.of_same rfl le_rfl rfl)
        (fun _ => keeps_numbered_saveManifest noFailure) state numbered) engine numbered
    | clear =>
      rw [LSMTreeEngine.call, answer_snd]
      refine keeps_bind (keeps_modify fun _ numbered => numbered.of_same rfl le_rfl rfl)
        (fun _ => keeps_bind keeps_lockLevels fun _ => keeps_bind
          (keeps_modify fun state numbered => ?_) fun _ =>
            keeps_numbered_saveManifest noFailure) engine numbered
      refine ⟨?_, ⟨?_, ?_⟩, numbered.manifest⟩
      · simpa [emptyLevels] using numbered.levelled
      · simp [flatMap_emptyLevels]
      · simp [flatMap_emptyLevels]

end

/-- Tables from a manifest have the numbers that it lists. -/
theorem issued_loadEntries {entries : List ManifestEntry} {engine : LSMTreeEngine}
    (numbers : ∀ entry ∈ entries, entry.metadata.fileNumber = entry.fileNumber)
    (distinct : ((engine.levels.flatMap (·.sstables)).map (·.fileNumber) ++
      entries.map (·.fileNumber)).Nodup)
    (earlier : ∀ table ∈ engine.levels.flatMap (·.sstables),
      table.fileNumber < engine.nextFileNumber) :
    Issued (entries.foldl loadEntry engine).levels
      (entries.foldl loadEntry engine).nextFileNumber := by
  induction entries generalizing engine with
  | nil => exact ⟨earlier, by simpa using distinct⟩
  | cons entry rest ih =>
    rw [forall_mem_cons] at numbers
    rw [foldl_cons]
    by_cases inside : entry.level < engine.levels.length
    · have tables : ((engine.loadEntry entry).levels.flatMap (·.sstables)).Perm
          (engine.levels.flatMap (·.sstables) ++ [entry.metadata]) := by
        rw [loadEntry, if_pos inside]
        exact flatMap_modify_perm (·.sstables) (fun level => show
          (level.addSstable entry.metadata).sstables = level.sstables ++ [entry.metadata] from rfl)
          inside
      have next : (engine.loadEntry entry).nextFileNumber =
          max engine.nextFileNumber (entry.fileNumber + 1) := by
        rw [loadEntry, if_pos inside]
      refine ih numbers.2 ?_ fun table mem => ?_
      · refine (((tables.map _).append_right _).nodup_iff).mpr ?_
        simpa [numbers.1] using distinct
      · rw [next]
        rcases mem_append.mp (tables.subset mem) with old | isNew
        · exact lt_max_of_lt_left (earlier table old)
        · rw [mem_singleton.mp isNew, numbers.1]
          exact lt_max_of_lt_right (Nat.lt_succ_self _)
    · rw [loadEntry, if_neg inside]
      refine ih numbers.2 (distinct.sublist ?_) earlier
      exact (sublist_cons_self _ _).append_left _

theorem numbered_blank (options : LSMTreeOptions) (files : TableFiles) (wal : List WalRecord)
    {manifest : ManifestFile}
    (listed : ∀ entries, manifest = .written entries →
      (∀ entry ∈ entries, entry.metadata.fileNumber = entry.fileNumber) ∧
        (entries.map (·.fileNumber)).Nodup) :
    Numbered (blank options files manifest wal) where
  levelled := by simp [blank]
  issued := ⟨by simp [blank, Level.new, flatMap_map], nodup_nil⟩
  manifest := listed

theorem length_loadEntries (entries : List ManifestEntry) (engine : LSMTreeEngine) :
    (entries.foldl loadEntry engine).levels.length = engine.levels.length := by
  induction entries generalizing engine with
  | nil => rfl
  | cons entry rest ih =>
    rw [foldl_cons, ih, loadEntry]
    split
    · exact length_modify ..
    · rfl

/-- An engine that is opened again goes on with new numbers. -/
theorem Numbered.new {engine recovered : LSMTreeEngine} (numbered : Numbered engine)
    {options : LSMTreeOptions}
    (opened : LSMTreeEngine.new options engine.files engine.manifest engine.wal = .ok recovered) :
    Numbered recovered := by
  have replayed {loaded : LSMTreeEngine} (loads : Numbered loaded) :
      Numbered loaded.recoverFromWal := by
    rw [recoverFromWal, replay_frame]
    exact loads.of_same rfl le_rfl rfl
  have start := numbered_blank options engine.files engine.wal numbered.manifest
  rw [LSMTreeEngine.new, loadManifest] at opened
  split at opened
  next =>
    cases opened
    exact replayed start
  next => cases opened
  next entries listed =>
    cases opened
    obtain ⟨numbers, distinct⟩ := numbered.manifest entries listed
    refine replayed ⟨?_, issued_loadEntries numbers ?_ start.issued.earlier, ?_⟩
    · rw [← length_pos_iff, length_loadEntries]
      exact length_pos_iff.mpr start.levelled
    · exact distinct
    · rw [loadEntries_frame]
      exact start.manifest

/-- The states that an engine can be in between two calls. It is opened, called, written to
in memory only, flushed with failures, and opened again. -/
inductive Reachable : LSMTreeEngine → Prop
  | fresh (options : LSMTreeOptions) : Reachable (fresh options)
  | called {engine : LSMTreeEngine} (reachable : Reachable engine) (input : EngineCall) :
      Reachable (engine.call input).2
  | logged {engine : LSMTreeEngine} (reachable : Reachable engine) (record : WalRecord) :
      Reachable (engine.logged record)
  | flushed {engine : LSMTreeEngine} (reachable : Reachable engine) (fails : Failures) :
      Reachable (stateOf (flush fails engine))
  | opened {engine recovered : LSMTreeEngine} (reachable : Reachable engine)
      {options : LSMTreeOptions}
      (opens : new options engine.files engine.manifest engine.wal = .ok recovered) :
      Reachable recovered

theorem Reachable.numbered {engine : LSMTreeEngine} (reachable : Reachable engine) :
    Numbered engine := by
  induction reachable with
  | fresh options => exact numbered_blank options ∅ [] fun _ isManifest => by cases isManifest
  | called _ input numbered => exact numbered.call input
  | logged _ record numbered => exact numbered.logged record
  | flushed _ fails numbered => exact keeps_numbered_maybeFlushMemtable fails _ numbered
  | opened _ opens numbered => exact numbered.new opens

end LSMTreeEngine

end Nanograph.Lsm
