import Nanograph.Lsm.Failure
import Nanograph.Lsm.Threads

/-!
# Concurrent writers and the log

A writer appends its record to the log and inserts its entry into the memtable in
two steps. Two writers of one key may take the steps in different orders, and then
the log and the memtable disagree about which of them was the last one.
-/

namespace Nanograph.Lsm

open List Option Foundation Kvt LSMTreeEngine

namespace LSMTreeEngine

/-- Opening an engine again over the files and the log of another one gives the same reads. -/
def Recovers (again : LSMTreeOptions) (engine : LSMTreeEngine) : Prop :=
  ∃ recovered, new again engine.files engine.manifest engine.wal = .ok recovered ∧
    ∀ key, (recovered.call (.get key)).1 = (engine.call (.get key)).1

section

variable {engine other : LSMTreeEngine} {key : Bytes}

/-- The answer to a read in terms of the values in the memtables. -/
theorem call_get_of_value {value : Option Bytes}
    (found : (engine.memtable.get key).map (·.value) = some value) :
    (engine.call (.get key)).1 = .ok (.found value) := by
  obtain ⟨entry, inMemtable, rfl⟩ := map_eq_some_iff.mp found
  rw [call_get, findInMemtables, inMemtable]
  rfl

/-- Engines with the same value in the memtable and the same data below it read the same. -/
theorem call_get_congr
    (memtable : (other.memtable.get key).map (·.value) = (engine.memtable.get key).map (·.value))
    (immutable : other.immutableMemtable = engine.immutableMemtable)
    (poisoned : other.poisoned = engine.poisoned) (levels : other.levels = engine.levels)
    (files : other.files = engine.files) :
    (other.call (.get key)).1 = (engine.call (.get key)).1 := by
  have tables : other.findInLevels key = engine.findInLevels key := by
    apply findInLevels_congr levels
    intro table _
    rw [files]
  cases found : (engine.memtable.get key).map (·.value) with
  | some value => rw [call_get_of_value found, call_get_of_value (memtable.trans found)]
  | none =>
    have missing := memtable.trans found
    rw [map_eq_none_iff] at found missing
    rw [call_get, call_get, findInMemtables, findInMemtables, found, missing, immutable, tables,
      poisoned]

end

section

variable (options : LSMTreeOptions) (files : TableFiles) (manifest : ManifestFile)
  (wal more : List WalRecord)

/-- Loading a manifest does not look at the log. -/
theorem loadEntries_wal (entries : List ManifestEntry) (engine : LSMTreeEngine) :
    entries.foldl loadEntry { engine with wal } = { entries.foldl loadEntry engine with wal } := by
  refine foldl_hom (fun engine : LSMTreeEngine => { engine with wal }) fun engine entry => ?_
  rw [loadEntry, loadEntry]
  split <;> rfl

/-- A replay does not look at the log that is kept. -/
theorem replay_wal (records : List WalRecord) (engine : LSMTreeEngine) :
    records.foldl replayRecord { engine with wal } =
      { records.foldl replayRecord engine with wal } := by
  refine foldl_hom (fun engine : LSMTreeEngine => { engine with wal }) fun engine record => ?_
  cases record <;> rfl

/-- An engine over a longer log is one over the shorter log with the other records replayed. -/
theorem new_append {recovered : LSMTreeEngine}
    (opened : new options files manifest wal = .ok recovered) :
    new options files manifest (wal ++ more) =
      .ok { more.foldl replayRecord recovered with wal := wal ++ more } := by
  have replayed (loaded : LSMTreeEngine) (isWal : loaded.wal = wal) :
      { loaded with wal := wal ++ more }.recoverFromWal =
        { more.foldl replayRecord loaded.recoverFromWal with wal := wal ++ more } := by
    rw [recoverFromWal, recoverFromWal, replay_wal, foldl_append, isWal]
  cases manifest with
  | missing =>
    cases opened
    exact congrArg Except.ok (replayed (blank options files .missing wal) rfl)
  | blank => cases opened
  | written entries =>
    cases opened
    have loaded := loadEntries_wal (wal ++ more) entries
      (blank options files (.written entries) wal)
    have isWal : (entries.foldl loadEntry (blank options files (.written entries) wal)).wal =
        wal := by
      rw [loadEntries_frame]
      rfl
    exact congrArg Except.ok ((congrArg recoverFromWal loaded).trans (replayed _ isWal))

end

end LSMTreeEngine

/-- An insertion puts the value of its record under its key. -/
theorem WriterPhase.insertion?_spec {phase : WriterPhase} {insertion : MemTable → MemTable}
    (ready : phase.insertion? = some insertion) :
    ∃ written value, phase.record.write? = some (written, value) ∧
      ∀ (memtable : MemTable) (key : Bytes), ((insertion memtable).get key).map (·.value) =
        if key = written then some value else (memtable.get key).map (·.value) := by
  have stored (memtable : MemTable) (entry : Entry) (key : Bytes) :
      ((memtable.store entry).get key).map (·.value) =
        if key = entry.key then some entry.value else (memtable.get key).map (·.value) := by
    rw [MemTable.get_store]
    by_cases hit : key = entry.key
    · simp [hit]
    · simp [hit, Ne.symm hit]
  cases phase with
  | logged record =>
    cases record <;> cases ready <;> exact ⟨_, _, rfl, fun memtable => stored memtable _⟩
  | stamped record commitTs =>
    cases record <;> cases ready <;> exact ⟨_, _, rfl, fun memtable => stored memtable _⟩

namespace Threads

theorem insertedWrites_append (earlier later : List ThreadEvent) :
    insertedWrites (earlier ++ later) = insertedWrites earlier ++ insertedWrites later :=
  filterMap_append

/-- The write that a writer has yet to do. -/
def pendingWrite (threads : Threads) (writer : Nat) : Option (Bytes × Option Bytes) :=
  (threads.writers.lookup writer).bind (·.record.write?)

/-- Some writer has yet to insert an entry for a key. -/
def Pending (threads : Threads) (key : Bytes) : Prop :=
  ∃ writer value, threads.pendingWrite writer = some (key, value)

section

variable {threads next : Threads} {key written : Bytes} {value : Option Bytes}

/-- A write that is added to the pending ones. -/
theorem pending_of_added (writer : Nat) (absent : threads.pendingWrite writer = none)
    (added : next.pendingWrite writer = some (written, value))
    (others : ∀ other, other ≠ writer → next.pendingWrite other = threads.pendingWrite other) :
    next.Pending key ↔ key = written ∨ threads.Pending key := by
  constructor
  · rintro ⟨other, otherValue, pending⟩
    by_cases same : other = writer
    · rw [same, added] at pending
      cases pending
      exact .inl rfl
    · exact .inr ⟨other, otherValue, by rwa [others other same] at pending⟩
  · rintro (rfl | ⟨other, otherValue, pending⟩)
    · exact ⟨writer, value, added⟩
    · have different : other ≠ writer := by
        rintro rfl
        rw [absent] at pending
        cases pending
      exact ⟨other, otherValue, by rwa [others other different]⟩

end

/-- What writers have done to an engine. -/
structure Applied (start : LSMTreeEngine) (events : List ThreadEvent) (threads : Threads) :
    Prop where
  frame : threads.engine =
    { start with
      wal := threads.engine.wal
      memtable := threads.engine.memtable
      clock := threads.engine.clock }
  log : ∃ records, threads.engine.wal = start.wal ++ records ∧
    records.filterMap WalRecord.write? = loggedWrites events
  memtable : ∀ key, (threads.engine.memtable.get key).map (·.value) =
    (lastWritten (insertedWrites events) key).or ((start.memtable.get key).map (·.value))
  keys : ∀ key, (lastWritten (loggedWrites events) key).isSome ↔
    (lastWritten (insertedWrites events) key).isSome ∨ threads.Pending key

theorem Applied.idle (start : LSMTreeEngine) : Applied start [] (.idle start) where
  frame := rfl
  log := ⟨[], by simp [Threads.idle], rfl⟩
  memtable _ := rfl
  keys key := by simp [loggedWrites, insertedWrites, Pending, pendingWrite, Threads.idle]

section

variable {start : LSMTreeEngine} {events : List ThreadEvent} {threads : Threads}
  (applied : Applied start events threads)

include applied

/-- A quiet step that leaves the memtable and the records of the writers. -/
theorem Applied.quiet {next : Threads}
    (frame : next.engine = { threads.engine with clock := next.engine.clock })
    (pending : ∀ writer, next.pendingWrite writer = threads.pendingWrite writer) :
    Applied start (events ++ [.quiet]) next := by
  have logs : loggedWrites (events ++ [.quiet]) = loggedWrites events := by
    simp [loggedWrites]
  have inserts : insertedWrites (events ++ [.quiet]) = insertedWrites events := by
    simp [insertedWrites]
  constructor
  · rw [frame, applied.frame]
  · rw [logs, frame]
    exact applied.log
  · rw [inserts, frame]
    exact applied.memtable
  · intro key
    simp only [logs, inserts, Pending, pending]
    exact applied.keys key

theorem Applied.append (writer : Nat) (record : WalRecord) :
    Applied start (events ++ [(threads.writerStep (.append writer record)).1])
      (threads.writerStep (.append writer record)).2 := by
  rw [writerStep]
  split
  next => exact applied.quiet rfl fun _ => rfl
  next ready =>
    push Not at ready
    obtain ⟨absent, isWrite⟩ := ready
    obtain ⟨⟨written, value⟩, writes⟩ := ne_none_iff_exists'.mp isWrite
    have logs : loggedWrites (events ++ [.logged record]) =
        loggedWrites events ++ [(written, value)] := by
      simp [loggedWrites, writes]
    have inserts : insertedWrites (events ++ [.logged record]) = insertedWrites events := by
      simp [insertedWrites]
    obtain ⟨records, isWal, isLogged⟩ := applied.log
    have pending (key : Bytes) : { threads with
        engine := { threads.engine with wal := threads.engine.wal ++ [record] }
        writers := threads.writers.insert writer (.logged record) }.Pending key ↔
          key = written ∨ threads.Pending key := by
      apply pending_of_added writer
      · rw [pendingWrite, AList.lookup_eq_none.mpr absent]
        rfl
      · rw [pendingWrite, AList.lookup_insert]
        exact writes
      · intro other different
        rw [pendingWrite, AList.lookup_insert_ne different]
        rfl
    constructor
    · exact congrArg (fun engine : LSMTreeEngine => { engine with
        wal := threads.engine.wal ++ [record] }) applied.frame
    · refine ⟨records ++ [record], ?_, ?_⟩
      · simp [isWal]
      · rw [logs, ← isLogged]
        simp [writes]
    · rw [inserts]
      exact applied.memtable
    · intro key
      rw [logs, inserts, pending, lastWritten_append, isSome_or, Bool.or_eq_true, applied.keys]
      by_cases hit : written = key
      · simp [lastWritten_singleton, hit]
      · simp [lastWritten_singleton, hit, Ne.symm hit]

theorem Applied.stamp (writer : Nat) :
    Applied start (events ++ [(threads.writerStep (.stamp writer)).1])
      (threads.writerStep (.stamp writer)).2 := by
  rw [writerStep]
  split
  next record waiting =>
    split
    next =>
      refine applied.quiet (by rfl) fun other => ?_
      by_cases same : other = writer
      · rw [pendingWrite, pendingWrite, same, AList.lookup_insert, waiting]
        rfl
      · rw [pendingWrite, AList.lookup_insert_ne same]
        rfl
    next => exact applied.quiet rfl fun _ => rfl
  next => exact applied.quiet rfl fun _ => rfl

theorem Applied.insert (writer : Nat) :
    Applied start (events ++ [(threads.writerStep (.insert writer)).1])
      (threads.writerStep (.insert writer)).2 := by
  rw [writerStep]
  split
  next => exact applied.quiet rfl fun _ => rfl
  next phase waiting =>
    split
    next => exact applied.quiet rfl fun _ => rfl
    next insertion ready =>
      obtain ⟨written, value, writes, stored⟩ := WriterPhase.insertion?_spec ready
      have logs : loggedWrites (events ++ [.inserted phase.record]) = loggedWrites events := by
        simp [loggedWrites]
      have inserts : insertedWrites (events ++ [.inserted phase.record]) =
          insertedWrites events ++ [(written, value)] := by
        simp [insertedWrites, writes]
      have pending (key : Bytes) : threads.Pending key ↔ key = written ∨ { threads with
          engine := { threads.engine with memtable := insertion threads.engine.memtable }
          writers := threads.writers.erase writer }.Pending key := by
        apply pending_of_added writer
        · rw [pendingWrite, AList.lookup_erase]
          rfl
        · rw [pendingWrite, waiting]
          exact writes
        · intro other different
          rw [pendingWrite, pendingWrite, AList.lookup_erase_ne different]
      constructor
      · exact congrArg (fun engine : LSMTreeEngine => { engine with
          memtable := insertion threads.engine.memtable }) applied.frame
      · rw [logs]
        exact applied.log
      · intro key
        rw [inserts, lastWritten_append, lastWritten_singleton, stored, applied.memtable,
          Option.or_assoc]
        by_cases hit : written = key
        · simp [hit]
        · simp [hit, Ne.symm hit]
      · intro key
        rw [logs, inserts, lastWritten_append, isSome_or, Bool.or_eq_true, applied.keys, pending]
        by_cases hit : written = key
        · simp [lastWritten_singleton, hit]
        · simp [lastWritten_singleton, hit, Ne.symm hit]

theorem Applied.step (own : WriterStep) :
    Applied start (events ++ [(threads.step (.writer own)).1]) (threads.step (.writer own)).2 := by
  cases own with
  | append writer record => exact applied.append writer record
  | stamp writer => exact applied.stamp writer
  | insert writer => exact applied.insert writer

end

/-- Once all writers are done, the log gives the same reads as the engine if and only if the
write to each key that was logged last has the value that was inserted last. -/
theorem recovers_iff_same_last_value (again : LSMTreeOptions) (start : LSMTreeEngine)
    (recovers : start.Recovers again) (steps : List WriterStep)
    (complete : (step.final (.idle start) (steps.map .writer)).writers = ∅) :
    (step.final (.idle start) (steps.map .writer)).engine.Recovers again ↔
      ∀ key, lastWritten (loggedWrites (step.answers (.idle start) (steps.map .writer))) key =
        lastWritten (insertedWrites (step.answers (.idle start) (steps.map .writer))) key := by
  have applied : Applied start (step.answers (.idle start) (steps.map .writer))
      (step.final (.idle start) (steps.map .writer)) := by
    have writing : ∀ input ∈ steps.map ThreadStep.writer, ∃ own, input = .writer own := by
      simp
    apply Machine.answers_along (Applied start) _ (.idle start) (Machine.along_of_mem writing)
    rintro events threads - sofar ⟨own, rfl⟩
    exact sofar.step own
  generalize step.final (.idle start) (steps.map .writer) = threads at applied complete
  generalize step.answers (.idle start) (steps.map .writer) = events at applied
  obtain ⟨recovered, opened, same⟩ := recovers
  obtain ⟨records, isWal, isLogged⟩ := applied.log
  have opens : new again threads.engine.files threads.engine.manifest
      threads.engine.wal = .ok { records.foldl replayRecord recovered with
        wal := start.wal ++ records } := by
    rw [isWal, applied.frame]
    exact new_append again start.files start.manifest start.wal records opened
  have recovers_iff : threads.engine.Recovers again ↔ ∀ key,
      ({ records.foldl replayRecord recovered with
        wal := start.wal ++ records }.call (.get key)).1 = (threads.engine.call (.get key)).1 := by
    rw [LSMTreeEngine.Recovers, opens]
    simp
  rw [recovers_iff]
  refine forall_congr' fun key => ?_
  have replayed := get_replay records recovered key
  rw [isLogged] at replayed
  have inserted := applied.memtable key
  have noneLeft : ¬threads.Pending key := by
    rintro ⟨writer, value, pending⟩
    rw [pendingWrite, complete] at pending
    cases pending
  have keys := applied.keys key
  simp only [noneLeft, or_false] at keys
  cases logs : lastWritten (loggedWrites events) key with
  | some value =>
    obtain ⟨last, inserts⟩ := isSome_iff_exists.mp (keys.mp (by rw [logs]; rfl))
    rw [logs, some_or] at replayed
    rw [inserts, some_or] at inserted
    rw [call_get_of_value (by exact replayed), call_get_of_value inserted, inserts]
    simp
  | none =>
    have inserts : lastWritten (insertedWrites events) key = none := by
      rw [← not_isSome_iff_eq_none, ← keys, logs]
      simp
    rw [logs, none_or] at replayed
    rw [inserts, none_or] at inserted
    rw [inserts]
    have frame := replay_frame records recovered
    refine iff_of_true ?_ rfl
    calc ({ records.foldl replayRecord recovered with
          wal := start.wal ++ records }.call (.get key)).1
      _ = (recovered.call (.get key)).1 := by
          apply call_get_congr (by exact replayed) <;> rw [frame]
      _ = (start.call (.get key)).1 := same key
      _ = (threads.engine.call (.get key)).1 := by
          symm
          apply call_get_congr inserted <;> rw [applied.frame]

/-- Two writers of one key whose steps overlap, in the same order in the log and the memtable. -/
theorem recovers_same_order :
    let options : LSMTreeOptions := { memtableSize := 100, blockSize := 4, fileSize := List.length }
    let steps : List WriterStep :=
      [.append 0 (.put [1] [7]), .append 1 (.put [1] [8]), .stamp 0, .insert 0, .stamp 1, .insert 1]
    (step.final (.idle (.fresh options)) (steps.map .writer)).engine.Recovers options := by
  intro options steps
  apply (recovers_iff_same_last_value options (.fresh options)
    ⟨blank options ∅ .missing [], rfl, fun _ => rfl⟩ steps rfl).mpr
  intro key
  have sameOrder : loggedWrites (step.answers (.idle (.fresh options)) (steps.map .writer)) =
      insertedWrites (step.answers (.idle (.fresh options)) (steps.map .writer)) := by
    decide +kernel
  rw [sameOrder]

/-- The writer that logs last inserts first. -/
theorem log_order_differs :
    let options : LSMTreeOptions := { memtableSize := 100, blockSize := 4, fileSize := List.length }
    let threads := step.final (.idle (.fresh options)) ([.append 0 (.put [1] [7]),
      .append 1 (.put [1] [8]), .stamp 1, .insert 1, .stamp 0, .insert 0].map .writer)
    threads.writers.keys = [] ∧ (threads.engine.call (.get [1])).1 = .ok (.found (some [7])) ∧
      (new options threads.engine.files threads.engine.manifest
        threads.engine.wal).map (fun recovered => (recovered.call (.get [1])).1) =
          .ok (.ok (.found (some [8]))) := by
  decide +kernel

end Threads

end Nanograph.Lsm
