import Nanograph.Lsm.Order

/-!
# Dropping deletions

A compaction drops every deletion that it meets. A deleted key stays deleted only if
nothing is left that the deletion used to hide: neither an older value among the
merged entries, which the heap may give out first, nor one in a level further down.
-/

namespace Nanograph.Lsm

open List Foundation CompactionExecutor

/-- The tables that a read asks before those of a task, or that have no key in common
with its source tables. -/
def tablesAbove (levels : List Level) (task : CompactionTask) : List SSTableMetadata :=
  (readOrder (levels.take task.targetLevel)).filter (· ∉ task.sourceSstables)

/-- What the levels below the target level of a task hold under a key. -/
def valueBelow (levels : List Level) (files : TableFiles) (task : CompactionTask)
    (key : Bytes) : Option Bytes :=
  (firstHit Entry.key (((levels.drop (task.targetLevel + 1)).flatMap (·.sstables)).map
    (contents files)) key).bind (·.value)

section

variable {levels upper lower : List Level} {files : TableFiles} {next : Nat}
  {task : CompactionTask} {source : Level} {staying : List SSTableMetadata}
  (stored : Stored levels files next) (placed : Placed levels task upper source staying lower)

include stored placed

theorem Placed.tablesAbove_eq : tablesAbove levels task = readOrder upper ++ staying := by
  have distinct : (levels.flatMap (·.sstables)).Nodup := List.Nodup.of_map _ stored.distinct
  rw [placed.levels_eq, flatMap_append, flatMap_cons, placed.sources, append_assoc] at distinct
  obtain ⟨-, rest, across⟩ := nodup_append.mp distinct
  have upperKept : ∀ table ∈ readOrder upper, table ∉ task.sourceSstables := fun table mem
      isSource => across table (mem_readOrder.mp mem) table
        (mem_append_left _ isSource) rfl
  have stayingKept : ∀ table ∈ staying, table ∉ task.sourceSstables := fun table mem isSource =>
    (nodup_append.mp rest).2.2 table isSource table (mem_append_left _ mem) rfl
  have taken : levels.take task.targetLevel = upper ++ [source] := by
    rw [placed.levels_eq, placed.targetLevel, take_length_add_append]
    rfl
  have sourceOut : task.sourceSstables.filter (· ∉ task.sourceSstables) = [] := by
    simp
  rw [tablesAbove, taken]
  rcases placed.shape with ⟨rfl, rfl⟩ | ⟨nonempty, -⟩
  · simp [readOrder, placed.sources]
  · obtain ⟨level0, more, rfl⟩ := exists_cons_of_ne_nil nonempty
    have order : readOrder (level0 :: more ++ [source]) =
        readOrder (level0 :: more) ++ (task.sourceSstables ++ staying) := by
      simp [readOrder, placed.sources]
    rw [order, filter_append, filter_append, sourceOut,
      filter_eq_self.mpr (by simpa using upperKept),
      filter_eq_self.mpr (by simpa using stayingKept), nil_append]

end

namespace LSMTreeEngine

variable {engine changed : LSMTreeEngine} {task : CompactionTask}

/-- The entry that a read finds: in the memtables, or in the levels. -/
def foundEntry (engine : LSMTreeEngine) (key : Bytes) : Option Entry :=
  (engine.findInMemtables key).or (engine.findInLevels key)

/-- A read of a key gets as far as the tables of a task. -/
def Exposed (engine : LSMTreeEngine) (task : CompactionTask) (key : Bytes) : Prop :=
  engine.findInMemtables key = none ∧
    firstHit Entry.key ((tablesAbove engine.levels task).map (contents engine.files)) key = none

/-- Every deletion of a task that a read finds is given out by the heap before all values
of its key, and hides no value below the target level. -/
def DeletionsSpent (engine : LSMTreeEngine) (task : CompactionTask) : Prop :=
  ∀ entry ∈ mergedEntries engine.files task, entry.value = none →
    newestEntry engine.files task entry.key = some entry → engine.Exposed task entry.key →
      (∀ first ∈ entryAt (mergedEntries engine.files task) entry.key, first.value = none) ∧
        valueBelow engine.levels engine.files task entry.key = none

instance (key : Bytes) : Decidable (engine.Exposed task key) :=
  inferInstanceAs (Decidable (_ ∧ _))

instance : Decidable (DeletionsSpent engine task) :=
  inferInstanceAs (Decidable (∀ entry ∈ mergedEntries engine.files task, _))

/-- A compaction that ends has put new tables in the place of those of its task. -/
theorem compactLevel_ok (stored : Stored engine.levels engine.files engine.nextFileNumber)
    (selected : CompactionStrategy.default.selectCompaction (engine.levels.map (·.sstables))
      engine.options.memtableSize = some task) (ran : compactLevel engine = .ok () changed) :
    engine.poisoned = false ∧ ∃ upper source staying lower new written after newSource newLower,
        Placed engine.levels task upper source staying lower ∧
        Output engine.files engine.nextFileNumber task new written after ∧
        Installed task source staying lower new newSource newLower ∧
        changed = engine.withTables (upper ++ newSource :: newLower)
          (removeFiles task.inputs written) after := by
  cases poisoned : engine.poisoned with
  | true =>
    rw [compactLevel, bind_error (run_lockLevels_poisoned poisoned)] at ran
    cases ran
  | false =>
    rw [compactLevel, bind_ok (run_lockLevels poisoned), get_bind, selected] at ran
    simp only at ran
    obtain ⟨upper, source, staying, lower, placed⟩ := selectCompaction_placed selected
    obtain ⟨new, written, after, executed, output⟩ := execute_spec engine.options.fileSize
      engine.options.blockSize (placed.inputs_written stored) engine.nextFileNumber
    by_cases room : new = [] ∨ lower ≠ []
    · obtain ⟨newSource, newLower, isInstalled, installed⟩ := placed.install stored.distinct room
      rw [run_runTask executed isInstalled poisoned] at ran
      cases ran
      exact ⟨rfl, upper, source, staying, lower, new, written, after, newSource, newLower,
        placed, output, installed, rfl⟩
    · rw [run_runTask_stuck executed ((placed.installSstables_eq new).trans (if_neg room))] at ran
      cases ran

/-- What is read of a deleted key after a compaction: nothing, or a value that the dropped
deletion hid. -/
private theorem deletion_hits {memory above sources stays targets remains deeper first : Option Entry}
    (noneStays : ∀ entry, sources = some entry → stays = none)
    (noneRemains : ∀ entry, sources.or targets = some entry → remains = none)
    (unmerged : sources.or targets = none → first = none) {entry : Entry}
    (deleted : entry.value = none)
    (found : memory.or (above.or (sources.or (stays.or ((targets.or remains).or deeper)))) =
      some entry) :
    (memory.or (above.or (stays.or ((remains.or
      ((first.filter (·.value.isSome)).map Entry.persisted)).or deeper)))).bind (·.value) = none ↔
      (memory = none → above.or stays = none → sources.or targets = some entry →
        (∀ popped ∈ first, popped.value = none) ∧ deeper.bind (·.value) = none) := by
  -- With nothing above it, a deletion gives way to the first merged entry and to what is below.
  have exposed : sources.or targets = some entry → stays = none →
      ((stays.or ((remains.or ((first.filter (·.value.isSome)).map Entry.persisted)).or
        deeper)).bind (·.value) = none ↔
        (∀ popped ∈ first, popped.value = none) ∧ deeper.bind (·.value) = none) := by
    intro merged noStays
    rw [noStays, noneRemains entry merged, Option.none_or, Option.none_or]
    cases first with
    | none => simp
    | some popped =>
      cases live : popped.value with
      | none => simp [Option.filter, live]
      | some value => simp [Option.filter, live, Entry.persisted]
  cases memory with
  | some held =>
    cases found
    simp [deleted]
  | none =>
    cases above with
    | some held =>
      cases found
      simp [deleted]
    | none =>
      simp only [Option.none_or, forall_const] at found ⊢
      cases sources with
      | some held =>
        cases found
        have noStays := noneStays entry rfl
        rw [exposed rfl noStays]
        simp [noStays]
      | none =>
        cases stays with
        | some held =>
          cases found
          simp [deleted]
        | none =>
          cases targets with
          | some held =>
            cases found
            rw [exposed rfl rfl]
            simp
          | none =>
            have unfiltered := unmerged rfl
            simp only [Option.none_or] at found ⊢
            simp [unfiltered, found, deleted]

/-- In an engine whose levels are in order, a compaction that keeps them so keeps all deleted keys
deleted if and only if every deletion of the task that a read finds is spent. -/
theorem survive_iff_spent (stored : Stored engine.levels engine.files engine.nextFileNumber)
    (ordered : Ordered engine.levels) (inOrder : InOrder engine.levels engine.files task)
    (selected : CompactionStrategy.default.selectCompaction (engine.levels.map (·.sstables))
      engine.options.memtableSize = some task) (ran : compactLevel engine = .ok () changed) :
    (∀ key entry, engine.foundEntry key = some entry → entry.value = none →
      get key changed = .ok none changed) ↔ DeletionsSpent engine task := by
  obtain ⟨ready, upper, source, staying, lower, new, written, after, newSource, newLower, placed,
    output, installed, changedEq⟩ := compactLevel_ok stored selected ran
  have readyAfter : changed.poisoned = false := by rw [changedEq]; exact ready
  have storedAfter : Stored changed.levels changed.files changed.nextFileNumber := by
    rw [changedEq]
    exact stored.compacted placed output installed
  have orderedAfter : Ordered changed.levels := by
    rw [changedEq]
    exact (ordered_compacted_iff stored placed output installed ordered).mpr inOrder
  have memtables (key : Bytes) : changed.findInMemtables key = engine.findInMemtables key := by
    rw [changedEq]
    rfl
  have tables : changed.levels = upper ++ newSource :: newLower ∧
      changed.files = removeFiles task.inputs written := by
    rw [changedEq]
    exact ⟨rfl, rfl⟩
  have above (key : Bytes) :
      firstHit Entry.key ((tablesAbove engine.levels task).map (contents engine.files)) key =
        (firstHit Entry.key ((readOrder upper).map (contents engine.files)) key).or
          (firstHit Entry.key (staying.map (contents engine.files)) key) := by
    rw [placed.tablesAbove_eq stored, map_append, firstHit_append]
  have found (key : Bytes) : engine.foundEntry key = (engine.findInMemtables key).or
      (firstHit Entry.key ((readOrder engine.levels).map (contents engine.files)) key) := by
    rw [foundEntry, findInLevels_eq key stored.written ordered]
  -- A read after the compaction, next to the one before it.
  have survives (key : Bytes) (entry : Entry) (deleted : entry.value = none)
      (isFound : engine.foundEntry key = some entry) :
      get key changed = .ok none changed ↔
      (engine.findInMemtables key = none →
        firstHit Entry.key ((tablesAbove engine.levels task).map (contents engine.files)) key =
          none →
        newestEntry engine.files task key = some entry →
        (∀ first ∈ entryAt (mergedEntries engine.files task) key, first.value = none) ∧
          valueBelow engine.levels engine.files task key = none) := by
    rw [get_spec readyAfter storedAfter.written orderedAfter, valueOf, ← Option.or_assoc,
      ← findInMemtables, memtables, tables.1,
      tables.2, hits_compacted stored placed output installed, EStateM.Result.ok.injEq,
      and_iff_left rfl, above, valueBelow, ← drop_drop, placed.drop_targetLevel, drop_one,
      newestEntry_eq_or]
    rw [found, placed.hits stored] at isFound
    refine deletion_hits (fun entry found => placed.staying_hit stored found)
      (fun entry found => ?_) (fun unmerged => ?_) deleted isFound
    · obtain ⟨merged, rfl⟩ :=
        mem_mergedEntries_of_newestEntry ((newestEntry_eq_or _ _ _).trans found)
      exact placed.remaining_hit stored merged
    · rw [← newestEntry_eq_or] at unmerged
      exact newestEntry_eq_none_iff.mp unmerged
  constructor
  · intro holds entry merged deleted isNewest exposed
    have isFound : engine.foundEntry entry.key = some entry := by
      obtain ⟨noMemory, noneAbove⟩ := exposed
      rw [above, Option.or_eq_none_iff] at noneAbove
      rw [newestEntry_eq_or] at isNewest
      rw [found, noMemory, placed.hits stored, noneAbove.1, noneAbove.2]
      simp only [Option.none_or, ← Option.or_assoc, isNewest]
      rfl
    exact (survives entry.key entry deleted isFound).mp (holds entry.key entry isFound deleted)
      exposed.1 exposed.2 isNewest
  · intro spent key entry isFound deleted
    refine (survives key entry deleted isFound).mpr fun noMemory noneAbove isNewest => ?_
    obtain ⟨merged, rfl⟩ := mem_mergedEntries_of_newestEntry isNewest
    exact spent entry merged deleted isNewest ⟨noMemory, noneAbove⟩

theorem Sound.compactionStart {start : LSMTreeEngine} {input : EngineCall} (sound : Sound engine)
    (starts : engine.compactionStart input = some start) :
    Stored start.levels start.files start.nextFileNumber ∧ Ordered start.levels := by
  cases recorded : input.record? with
  | some record =>
    obtain ⟨written, value, writes, -⟩ := EngineCall.write?_of_record recorded
    rw [compactionStart_of_record recorded, writtenEngine] at starts
    split at starts
    · obtain ⟨stored, ordered, -⟩ := (sound.logged writes).1.flushedEngine starts
      exact ⟨stored, ordered⟩
    · cases starts
  | none =>
    cases input with
    | flush =>
      obtain ⟨stored, ordered, -⟩ := sound.flushedEngine starts
      exact ⟨stored, ordered⟩
    | compact =>
      obtain rfl := Option.some.inj starts
      exact ⟨sound.stored, sound.ordered⟩
    | _ => simp [LSMTreeEngine.compactionStart, recorded] at starts

/-- In a run whose compactions all put their new tables behind the others of their level, the
last one keeps all deleted keys deleted if and only if every deletion of its task that a read
finds is spent. -/
theorem deletions_survive_iff (options : LSMTreeOptions) (calls : List EngineCall)
    (last : EngineCall)
    (inOrder : call.Along (CompactionMeets InOrder) (fresh options) (calls ++ [last]))
    (starts : (call.final (fresh options) calls).compactionStart last = some engine)
    (started : engine.startedTask = some task) (ran : compactLevel engine = .ok () changed) :
    (∀ key entry, engine.foundEntry key = some entry → entry.value = none →
      get key changed = .ok none changed) ↔ DeletionsSpent engine task := by
  obtain ⟨earlier, here, -⟩ := Machine.along_append.mp inOrder
  rcases inLine_final options earlier with sound | frozen
  · obtain ⟨stored, ordered⟩ := sound.compactionStart starts
    have selected := started
    rw [startedTask] at selected
    split at selected
    · exact survive_iff_spent stored ordered (here engine starts task started) selected ran
    · cases selected
  · exact (frozen.meets last (fun _ _ _ => False) engine starts task started).elim

/-- Every write fills the memtable, and tables take a hundred bytes for each entry. -/
def smallOptions : LSMTreeOptions where
  memtableSize := 1
  blockSize := 4
  fileSize := fun entries => 100 * entries.length

/-- A deletion in level 0 stays while the table with the deleted value moves down. -/
theorem deletion_above_survives :
    let engine := call.final (fresh smallOptions)
      [.put [1] [7], .put [2] [0], .put [3] [0], .put [4] [0], .delete [1]]
    let changed := stateOf (compactLevel engine)
    (engine.foundEntry [1]).map (·.value) = some none ∧
      ∀ key entry, engine.foundEntry key = some entry → entry.value = none →
        get key changed = .ok none changed := by
  intro engine changed
  have started : engine.startedTask = some
      { sourceLevel := 2
        targetLevel := 3
        sourceSstables := [⟨7, 2, [1], [4], 0, 0, 4, 400⟩]
        targetSstables := [] } := by
    decide +kernel
  exact ⟨by decide +kernel, (deletions_survive_iff smallOptions _ .compact (by decide +kernel) rfl
    started (eq_ok_of_succeeded (by decide +kernel))).mpr (by decide +kernel)⟩

/-- The value of a key has moved down to level 3 when the key is deleted. Two writes later
the deletion is merged into level 1 and dropped, and the value is read again. -/
theorem deleted_value_returns :
    call.answers (fresh smallOptions)
      [.put [1] [7], .put [2] [0], .put [3] [0], .put [4] [0], .put [5] [0], .delete [1],
        .put [6] [0], .get [1], .put [8] [0], .get [1]] =
      [.ok .done, .ok .done, .ok .done, .ok .done, .ok .done, .ok .done, .ok .done,
        .ok (.found none), .ok .done, .ok (.found (some [7]))] := by
  decide +kernel

end LSMTreeEngine

end Nanograph.Lsm
