import Nanograph.Foundation.ListCut
import Nanograph.Lsm.Merged

/-!
# What a compaction does to the levels

A task takes tables of one level and the tables of the next level that overlap them.
It puts what is left of their entries into new tables behind the others of the next
level. The tables of a level keep disjoint ranges, but they need not stay in order,
and the entry that is kept of a key need not be the newest one.
-/

namespace Nanograph.Lsm

open List Foundation CompactionExecutor LSMTreeEngine CompactionStrategy

def firstTables (levels : List Level) : List SSTableMetadata :=
  (levels.head?.map (·.sstables)).getD []

theorem flatMap_sstables (levels : List Level) :
    levels.flatMap (·.sstables) = firstTables levels ++ levels.tail.flatMap (·.sstables) := by
  cases levels <;> rfl

/-- The entries of a task as they come out of the heap. -/
def mergedEntries (files : TableFiles) (task : CompactionTask) : List Entry :=
  mergeSstables (task.inputs.map (contents files))

/-- The entries of a task that are written to new tables. -/
def keptEntries (files : TableFiles) (task : CompactionTask) : List Entry :=
  deduplicateAndFilter none (mergedEntries files task)

def newestEntry (files : TableFiles) (task : CompactionTask) (key : Bytes) : Option Entry :=
  firstHit Entry.key ((task.sourceSstables.reverse ++ task.targetSstables).map (contents files)) key

/-- The place of a task in the levels: the levels above it, the source level with the
tables that stay there, and the levels below, the target level first. -/
structure Placed (levels : List Level) (task : CompactionTask) (upper : List Level)
    (source : Level) (staying : List SSTableMetadata) (lower : List Level) : Prop where
  levels_eq : levels = upper ++ source :: lower
  sourceLevel : task.sourceLevel = upper.length
  targetLevel : task.targetLevel = upper.length + 1
  sources : source.sstables = task.sourceSstables ++ staying
  nonempty : task.sourceSstables ≠ []
  shape : (upper = [] ∧ staying = []) ∨ (upper ≠ [] ∧ ∃ table, task.sourceSstables = [table])
  targets : task.targetSstables = findOverlappingSstables task.sourceSstables (firstTables lower)

variable {levels : List Level} {level : Level} {entry : Entry} {key : Bytes}
  {table : SSTableMetadata} {relation : SSTableMetadata → SSTableMetadata → Prop}

/-- The overlapping tables are those that meet a range around all source tables. -/
theorem findOverlappingSstables_spec {source : List SSTableMetadata} (nonempty : source ≠ [])
    (target : List SSTableMetadata) :
    ∃ low high, (∀ table ∈ source, low ≤ table.minKey ∧ table.maxKey ≤ high) ∧
      findOverlappingSstables source target = target.filter fun table =>
        !(decide (table.maxKey < low) || decide (high < table.minKey)) := by
  obtain ⟨low, isLow⟩ : ∃ low, (source.map (·.minKey)).min? = some low := by
    rw [← Option.isSome_iff_exists, isSome_min?_iff]
    simpa using nonempty
  obtain ⟨high, isHigh⟩ : ∃ high, (source.map (·.maxKey)).max? = some high := by
    rw [← Option.isSome_iff_exists, isSome_max?_iff]
    simpa using nonempty
  refine ⟨low, high, fun table mem => ⟨?_, ?_⟩, ?_⟩
  · exact (min?_eq_some_iff.mp isLow).2 _ (mem_map_of_mem mem)
  · exact (max?_eq_some_iff.mp isHigh).2 _ (mem_map_of_mem mem)
  · simp only [findOverlappingSstables, isLow, isHigh]

/-- Where a selected task belongs. -/
theorem selectCompaction_placed {baseSize : Nat} {task : CompactionTask}
    (selected : CompactionStrategy.default.selectCompaction (levels.map (·.sstables)) baseSize =
      some task) : ∃ upper source staying lower, Placed levels task upper source staying lower := by
  rw [CompactionStrategy.selectCompaction] at selected
  split at selected
  next many =>
    cases levels with
    | nil => simp [CompactionStrategy.default] at many
    | cons source lower =>
      cases selected
      refine ⟨[], source, [], lower, rfl, rfl, rfl, by simp, ?_, .inl ⟨rfl, rfl⟩, ?_⟩
      · rintro empty
        simp only [map_cons, getD_cons_zero] at many empty
        rw [empty] at many
        simp [CompactionStrategy.default] at many
      · cases lower <;> rfl
  next =>
    obtain ⟨level, inRange, selectedLevel⟩ := exists_of_findSome?_eq_some selected
    have positive : 1 ≤ level := (mem_range'_1.mp inRange).1
    rw [selectLevel] at selectedLevel
    split at selectedLevel
    next table rest isLevel =>
      split at selectedLevel
      next =>
        cases selectedLevel
        rw [getElem?_map, Option.map_eq_some_iff] at isLevel
        obtain ⟨source, isSource, tables⟩ := isLevel
        obtain ⟨inside, rfl⟩ := List.getElem?_eq_some_iff.mp isSource
        have upperLength : (levels.take level).length = level := by
          rw [length_take, min_eq_left inside.le]
        refine ⟨levels.take level, levels[level], rest, levels.drop (level + 1), ?_, ?_, ?_, ?_,
          by simp, .inr ⟨?_, table, rfl⟩, ?_⟩
        · rw [← drop_eq_getElem_cons inside, take_append_drop]
        · exact upperLength.symm
        · rw [upperLength]
        · exact tables
        · rintro empty
          rw [empty, length_nil] at upperLength
          omega
        · rw [firstTables, head?_drop, ← getElem?_map]
          cases found : (levels.map (·.sstables))[level + 1]? with
          | none => rfl
          | some next => rfl
      next => cases selectedLevel
    next => cases selectedLevel

section

variable {levels upper lower : List Level} {task : CompactionTask} {source : Level}
  {staying new : List SSTableMetadata}

theorem removeSstables_spec (distinct : (level.sstables.map (·.fileNumber)).Nodup)
    (tables : List SSTableMetadata) :
    (level.removeSstables tables).levelNumber = level.levelNumber ∧
      (level.removeSstables tables).sstables =
        level.sstables.filter (·.fileNumber ∉ tables.map (·.fileNumber)) := by
  induction tables generalizing level with
  | nil => exact ⟨rfl, by simp [Level.removeSstables]⟩
  | cons table rest ih =>
    have first : (level.removeSstable table.fileNumber).levelNumber = level.levelNumber ∧
        (level.removeSstable table.fileNumber).sstables =
          level.sstables.filter (·.fileNumber ≠ table.fileNumber) := by
      rw [Level.removeSstable]
      split
      next => exact ⟨rfl, eraseP_eq_filter distinct table.fileNumber⟩
      next missing =>
        exact ⟨rfl, (filter_eq_self.mpr (by simpa using missing)).symm⟩
    have stillDistinct :
        ((level.removeSstable table.fileNumber).sstables.map (·.fileNumber)).Nodup := by
      rw [first.2]
      exact distinct.sublist (filter_sublist.map _)
    obtain ⟨number, tables⟩ := ih stillDistinct
    refine ⟨number.trans first.1, tables.trans ?_⟩
    rw [first.2, filter_filter]
    refine filter_congr fun other _ => ?_
    rw [map_cons, ← Bool.decide_and]
    exact decide_eq_decide.mpr (by rw [mem_cons, not_or]; exact and_comm)

theorem addSstables_spec (level : Level) (tables : List SSTableMetadata) :
    (level.addSstables tables).levelNumber = level.levelNumber ∧
      (level.addSstables tables).sstables = level.sstables ++ tables := by
  induction tables generalizing level with
  | nil => exact ⟨rfl, by simp [Level.addSstables]⟩
  | cons table rest ih =>
    obtain ⟨number, tables⟩ := ih (level.addSstable table)
    exact ⟨number, tables.trans (by simp [Level.addSstable])⟩

/-- The tables of the target level that a task leaves there. -/
def remaining (task : CompactionTask) (lower : List Level) : List SSTableMetadata :=
  (firstTables lower).filter (· ∉ task.targetSstables)

/-- The tables of the levels that a task leaves where they are. -/
def untouchedTables (task : CompactionTask) (upper : List Level) (staying : List SSTableMetadata)
    (lower : List Level) : List SSTableMetadata :=
  upper.flatMap (·.sstables) ++
    (staying ++ (remaining task lower ++ lower.tail.flatMap (·.sstables)))

/-- The source level and the levels below it after the new tables are in place. -/
structure Installed (task : CompactionTask) (source : Level) (staying : List SSTableMetadata)
    (lower : List Level) (new : List SSTableMetadata) (newSource : Level)
    (newLower : List Level) : Prop where
  sourceNumber : newSource.levelNumber = source.levelNumber
  sourceTables : newSource.sstables = staying
  lowerNumbers : newLower.map (·.levelNumber) = lower.map (·.levelNumber)
  lowerTail : newLower.tail = lower.tail
  lowerFirst : firstTables newLower = remaining task lower ++ new

theorem Installed.perm {newSource : Level} {newLower : List Level}
    (installed : Installed task source staying lower new newSource newLower) (upper : List Level) :
    ((upper ++ newSource :: newLower).flatMap (·.sstables)).Perm
      (untouchedTables task upper staying lower ++ new) := by
  rw [flatMap_append, flatMap_cons, installed.sourceTables, flatMap_sstables newLower,
    installed.lowerFirst, installed.lowerTail, untouchedTables, perm_iff_count]
  simp only [count_append]
  omega

/-- Of tables with distinct numbers, those left are those that are not removed. -/
theorem filter_fileNumber {tables removed : List SSTableMetadata}
    (distinct : (tables.map (·.fileNumber)).Nodup) (included : removed ⊆ tables) :
    tables.filter (·.fileNumber ∉ removed.map (·.fileNumber)) = tables.filter (· ∉ removed) := by
  refine filter_congr fun table mem => decide_eq_decide.mpr (not_congr ?_)
  refine ⟨fun numbered => ?_, mem_map_of_mem⟩
  obtain ⟨other, isRemoved, same⟩ := mem_map.mp numbered
  rwa [← inj_on_of_nodup_map distinct (included isRemoved) mem same]

section

variable (placed : Placed levels task upper source staying lower)

include placed

/-- The target level has the target tables of the task and those it leaves there. -/
theorem Placed.target_perm :
    (firstTables lower).Perm (task.targetSstables ++ remaining task lower) := by
  obtain ⟨low, high, -, overlapping⟩ :=
    findOverlappingSstables_spec placed.nonempty (firstTables lower)
  rw [remaining, placed.targets.trans overlapping, filter_notMem_filter]
  exact (filter_append_perm _ _).symm

/-- All tables are those of the task and those it leaves alone. -/
theorem Placed.perm :
    (levels.flatMap (·.sstables)).Perm
      (untouchedTables task upper staying lower ++ task.inputs) := by
  rw [placed.levels_eq, flatMap_append, flatMap_cons, placed.sources,
    flatMap_sstables lower, untouchedTables, CompactionTask.inputs, perm_iff_count]
  intro table
  have counts := placed.target_perm.count_eq table
  simp only [count_append] at counts ⊢
  omega

/-- What putting new tables in place comes down to. -/
theorem Placed.installSstables_eq (new : List SSTableMetadata) :
    installSstables task new levels = if new = [] ∨ lower ≠ [] then
        some (upper ++ source.removeSstables task.sourceSstables :: lower.modifyHead fun target =>
            (target.removeSstables task.targetSstables).addSstables new)
      else none := by
  have below (level : Level) (deeper : List Level) (change : Level → Level) :
      (upper ++ level :: deeper).modify (upper.length + 1) change =
        upper ++ level :: deeper.modifyHead change := by
    have cut := modify_append_length (upper ++ [level]) deeper change
    simpa using cut
  simp only [installSstables, placed.levels_eq, placed.sourceLevel,
    placed.targetLevel, modify_cut, below]
  cases lower with
  | nil => simp
  | cons target deeper => simp

theorem Placed.targets_subset :
    task.targetSstables ⊆ firstTables lower := by
  obtain ⟨low, high, -, overlapping⟩ :=
    findOverlappingSstables_spec placed.nonempty (firstTables lower)
  rw [placed.targets, overlapping]
  exact filter_subset_self _

/-- New tables are put in place when there are none, or when there is a target level. -/
theorem Placed.install (distinct : ((levels.flatMap (·.sstables)).map (·.fileNumber)).Nodup)
    (room : new = [] ∨ lower ≠ []) :
    ∃ newSource newLower, installSstables task new levels = some (upper ++ newSource :: newLower) ∧
      Installed task source staying lower new newSource newLower := by
  have levelDistinct : ∀ level ∈ levels, (level.sstables.map (·.fileNumber)).Nodup := by
    intro level mem
    rw [map_flatMap] at distinct
    exact (nodup_flatMap.mp distinct).1 level mem
  obtain ⟨sourceNumber, sourceTables⟩ := removeSstables_spec
    (levelDistinct source (by simp [placed.levels_eq])) task.sourceSstables
  refine ⟨_, _, (placed.installSstables_eq new).trans (if_pos room), sourceNumber, ?_, ?_, ?_, ?_⟩
  · have apart := levelDistinct source (by simp [placed.levels_eq])
    rw [placed.sources, map_append, nodup_append'] at apart
    rw [sourceTables, placed.sources, filter_append, filter_eq_nil_iff.mpr ?_,
      filter_eq_self.mpr ?_, nil_append]
    · intro table mem
      simpa using apart.2.2.symm (mem_map_of_mem mem)
    · intro table mem
      simpa using ⟨table, mem, rfl⟩
  · cases lower with
    | nil => rfl
    | cons target deeper =>
      have number := (addSstables_spec (target.removeSstables task.targetSstables) new).1
      have removed := (removeSstables_spec (levelDistinct target (by simp [placed.levels_eq]))
        task.targetSstables).1
      simp [number, removed]
  · cases lower <;> rfl
  · cases lower with
    | nil =>
      rw [room.resolve_right (by simp)]
      rfl
    | cons target deeper =>
      have targetDistinct := levelDistinct target (by simp [placed.levels_eq])
      refine (addSstables_spec (target.removeSstables task.targetSstables) new).2.trans ?_
      rw [(removeSstables_spec targetDistinct task.targetSstables).2]
      exact congrArg (· ++ new) (filter_fileNumber targetDistinct placed.targets_subset)

end

end

section

variable {files written : TableFiles} {next after : Nat} {task : CompactionTask}
  {new : List SSTableMetadata}

/-- The new tables of a task and the files with them. -/
structure Output (files : TableFiles) (next : Nat) (task : CompactionTask)
    (new : List SSTableMetadata) (written : TableFiles) (after : Nat) : Prop where
  numbers : new.map (·.fileNumber) = List.range' next new.length
  after_eq : after = next + new.length
  holdings : ∃ batches, Holdings written new batches ∧ batches.flatten = keptEntries files task
  untouched : ∀ number, number < next → written.lookup number = files.lookup number

theorem mem_mergedEntries :
    entry ∈ mergedEntries files task ↔ ∃ table ∈ task.inputs, entry ∈ contents files table := by
  rw [mergedEntries, (mergeSstables_perm _).mem_iff]
  simp

theorem mem_keptEntries (kept : entry ∈ keptEntries files task) :
    entry ∈ mergedEntries files task :=
  deduplicateAndFilter_sublist.subset kept

section

variable (tables : ∀ table ∈ task.inputs, Written files table)

include tables

theorem mergedEntries_ascending : (mergedEntries files task).Pairwise (·.key ≤ ·.key) := by
  refine mergeSstables_ascending fun entries mem => ?_
  obtain ⟨table, inInputs, rfl⟩ := mem_map.mp mem
  exact (tables table inInputs).ascending

theorem keptEntries_ascending : Ascending (keptEntries files task) :=
  (deduplicateAndFilter_ascending (mergedEntries_ascending tables) (by simp)).1

theorem entryAt_keptEntries (key : Bytes) :
    entryAt (keptEntries files task) key =
      (entryAt (mergedEntries files task) key).filter (·.value.isSome) :=
  (entryAt_deduplicateAndFilter (mergedEntries_ascending tables) (by simp) key).trans
    (if_neg (by simp))

end

/-- A task whose tables can be read is executed. -/
theorem execute_spec (fileSize : List Entry → Nat) (blockSize : Nat)
    (tables : ∀ table ∈ task.inputs, Written files table) (next : Nat) :
    ∃ new written after, execute fileSize blockSize files task next = .ok (new, written, after) ∧
      Output files next task new written after := by
  have loaded : task.inputs.mapM (loadSstableEntries files) =
      .ok (task.inputs.map (contents files)) := by
    refine mapM_ok fun table mem => ?_
    rw [loadSstableEntries, (tables table mem).present]
  obtain ⟨flattened, nonempty⟩ :=
    splitBatches_spec (blockSize * 1024) 0 [] (keptEntries files task)
  obtain ⟨new, written, wrote, numbers, holding, untouched⟩ :=
    writeSstables_spec fileSize task.targetLevel nonempty files next
  refine ⟨new, written, next + new.length, ?_, ?_, rfl, ⟨_, holding, flattened⟩, untouched⟩
  · simp only [execute, loaded]
    rw [holding.length_eq]
    exact wrote
  · rw [numbers, holding.length_eq]

namespace Output

variable (output : Output files next task new written after)

include output

theorem issued {table : SSTableMetadata} (mem : table ∈ new) :
    next ≤ table.fileNumber ∧ table.fileNumber < after := by
  have inRange : table.fileNumber ∈ List.range' next new.length :=
    output.numbers ▸ mem_map_of_mem mem
  rw [output.after_eq]
  simpa using inRange

theorem eq_nil_iff : new = [] ↔ keptEntries files task = [] := by
  obtain ⟨batches, holdings, flattened⟩ := output.holdings
  rw [← flattened]
  cases holdings with
  | nil => simp
  | cons first rest =>
    obtain ⟨entry, isFirst, -⟩ := first.first
    obtain ⟨others, rfl⟩ := head?_eq_some_iff.mp isFirst
    simp

/-- The new tables hold the kept entries. -/
theorem hit (key : Bytes) :
    firstHit Entry.key (new.map (contents written)) key =
      (entryAt (keptEntries files task) key).map Entry.persisted := by
  obtain ⟨batches, holdings, flattened⟩ := output.holdings
  rw [holdings.contents_eq, firstHit_eq_itemAt_flatten, ← map_flatten, flattened]
  exact entryAt_persisted _ _

end Output

end

theorem lookup_removeFiles (tables : List SSTableMetadata) (files : TableFiles) (number : Nat) :
    (removeFiles tables files).lookup number =
      if number ∈ tables.map (·.fileNumber) then none else files.lookup number := by
  induction tables generalizing files with
  | nil => simp [removeFiles]
  | cons table rest ih =>
    refine (ih (files.erase table.fileNumber)).trans ?_
    by_cases hit : number = table.fileNumber
    · subst hit
      simp
    · simp [hit, AList.lookup_erase_ne hit]

/-- The new tables of a task do not come between the others of the target level: every
table left there lies below all kept entries. -/
def InOrder (levels : List Level) (files : TableFiles) (task : CompactionTask) : Prop :=
  ∀ table ∈ firstTables (levels.drop task.targetLevel), table ∉ task.targetSstables →
    ∀ entry ∈ keptEntries files task, table.maxKey < entry.key

instance (levels : List Level) (files : TableFiles) (task : CompactionTask) :
    Decidable (InOrder levels files task) :=
  inferInstanceAs (Decidable (∀ table ∈ firstTables (levels.drop task.targetLevel), _))

/-- A task loses nothing: the entry that is kept of a key is the newest one, no deletion is
dropped that hides a value further down, the new tables are put behind all others of the
target level, and there is a target level. -/
@[mk_iff]
structure Faithful (levels : List Level) (files : TableFiles) (task : CompactionTask) : Prop where
  newestFirst : ∀ entry ∈ mergedEntries files task,
    entryAt (mergedEntries files task) entry.key = newestEntry files task entry.key
  nothingHidden : ∀ entry ∈ mergedEntries files task,
    newestEntry files task entry.key = some entry → entry.value = none →
      (firstHit Entry.key (((levels.drop (task.targetLevel + 1)).flatMap (·.sstables)).map
        (contents files)) entry.key).bind (·.value) = none
  inOrder : InOrder levels files task
  room : keptEntries files task ≠ [] → task.targetLevel < levels.length

instance (levels : List Level) (files : TableFiles) (task : CompactionTask) :
    Decidable (Faithful levels files task) :=
  decidable_of_iff _ (faithful_iff levels files task).symm

/-- What a read finds before a compaction and after it, given what it finds in the levels
above, the source tables, the tables staying with them, the target tables, the tables
remaining with them, and the levels below. -/
private theorem value_of_hits {above sources stays targets remains deeper : Option Entry}
    (noneStays : ∀ entry, sources = some entry → stays = none)
    (noneRemains : ∀ entry, sources.or targets = some entry → remains = none)
    (noneHidden : ∀ entry, sources.or targets = some entry → entry.value = none →
      deeper.bind (·.value) = none) :
    (above.or (stays.or ((remains.or
      (((sources.or targets).filter (·.value.isSome)).map Entry.persisted)).or deeper))).bind
        (·.value) =
    (above.or (sources.or (stays.or ((targets.or remains).or deeper)))).bind (·.value) := by
  -- A merged entry is kept with its value, or it is a deletion that hides nothing.
  have merged (entry : Entry) (hides : entry.value = none → deeper.bind (·.value) = none) :
      ((((some entry).filter (·.value.isSome)).map Entry.persisted).or deeper).bind (·.value) =
        entry.value := by
    cases live : entry.value with
    | none => simpa [Option.filter, live] using hides live
    | some value => simp [Option.filter, live, Entry.persisted]
  cases above with
  | some entry => rfl
  | none =>
    cases sources with
    | some entry =>
      simpa [noneStays entry rfl, noneRemains entry rfl] using merged entry (noneHidden entry rfl)
    | none =>
      cases stays with
      | some entry => rfl
      | none =>
        cases targets with
        | some entry =>
          simpa [noneRemains entry rfl] using merged entry (noneHidden entry rfl)
        | none => simp

section

variable {levels upper lower newLower : List Level} {files written : TableFiles}
  {next after : Nat} {task : CompactionTask} {source newSource : Level}
  {staying new : List SSTableMetadata} (stored : Stored levels files next)
  (placed : Placed levels task upper source staying lower)
  (output : Output files next task new written after)
  (installed : Installed task source staying lower new newSource newLower)

include stored placed

theorem Placed.numbers_nodup :
    ((untouchedTables task upper staying lower ++ task.inputs).map (·.fileNumber)).Nodup :=
  (placed.perm.map _).nodup_iff.mp stored.distinct

omit stored in
theorem Placed.mem_of_untouched (mem : table ∈ untouchedTables task upper staying lower) :
    table ∈ levels.flatMap (·.sstables) :=
  placed.perm.mem_iff.mpr (mem_append_left _ mem)

theorem Placed.inputs_written : ∀ table ∈ task.inputs, Written files table := fun table mem =>
  stored.written table (placed.perm.mem_iff.mpr (mem_append_right _ mem))

include output

/-- Tables that a task leaves alone keep their contents. -/
theorem contents_of_untouched (mem : table ∈ untouchedTables task upper staying lower) :
    contents (removeFiles task.inputs written) table = contents files table := by
  have old : table.fileNumber < next :=
    stored.issued table (placed.mem_of_untouched mem)
  have others : table.fileNumber ∉ task.inputs.map (·.fileNumber) := by
    have distinct := placed.numbers_nodup stored
    rw [map_append, nodup_append'] at distinct
    exact distinct.2.2 (mem_map_of_mem mem)
  rw [contents, lookup_removeFiles, if_neg others, output.untouched _ old, contents]

/-- The files of new tables are not removed. -/
theorem contents_of_new (mem : table ∈ new) :
    contents (removeFiles task.inputs written) table = contents written table := by
  have others : table.fileNumber ∉ task.inputs.map (·.fileNumber) := by
    intro removed
    obtain ⟨input, isInput, same⟩ := mem_map.mp removed
    have old : input.fileNumber < next :=
      stored.issued input (placed.perm.mem_iff.mpr (mem_append_right _ isInput))
    have fresh := (output.issued mem).1
    omega
  rw [contents, lookup_removeFiles, if_neg others, contents]

omit stored placed output in
/-- What holds of the tables of all levels but level 0 holds of the level below another. -/
theorem pairwise_firstTables
    (pairwise : ∀ level ∈ (upper ++ source :: lower).tail, level.sstables.Pairwise relation) :
    (firstTables lower).Pairwise relation := by
  cases lower with
  | nil => exact List.Pairwise.nil
  | cons target deeper => exact pairwise target (by cases upper <;> simp)

omit stored output in
theorem Placed.pairwise_lower (pairwise : ∀ level ∈ levels.tail, level.sstables.Pairwise relation) :
    (firstTables lower).Pairwise relation :=
  pairwise_firstTables (placed.levels_eq ▸ pairwise)

omit stored output in
theorem Placed.pairwise_staying (pairwise : ∀ level ∈ levels.tail, level.sstables.Pairwise relation) :
    staying.Pairwise relation := by
  rcases placed.shape with ⟨-, rfl⟩ | ⟨nonempty, -⟩
  · exact List.Pairwise.nil
  · have inTail : source ∈ levels.tail := by
      obtain ⟨level0, more, rfl⟩ := exists_cons_of_ne_nil nonempty
      rw [placed.levels_eq]
      simp
    have sourcePairwise := pairwise source inTail
    rw [placed.sources] at sourcePairwise
    exact (pairwise_append.mp sourcePairwise).2.1

omit output in
/-- A table left in the target level lies to one side of all merged entries. -/
theorem Placed.remaining_side (mem : table ∈ remaining task lower) :
    (∀ entry ∈ mergedEntries files task, table.maxKey < entry.key) ∨
      ∀ entry ∈ mergedEntries files task, entry.key < table.minKey := by
  obtain ⟨inTarget, notTaken⟩ := mem_filter.mp mem
  have notTaken : table ∉ task.targetSstables := by simpa using notTaken
  have untouched : table ∈ untouchedTables task upper staying lower := by
    simp only [untouchedTables, mem_append]
    tauto
  have tableWritten := stored.written table (placed.mem_of_untouched untouched)
  obtain ⟨low, high, around, overlapping⟩ :=
    findOverlappingSstables_spec placed.nonempty (firstTables lower)
  have meets : ∀ other, other ∈ task.targetSstables ↔ other ∈ firstTables lower ∧
      low ≤ other.maxKey ∧ other.minKey ≤ high := by
    intro other
    rw [placed.targets, overlapping, mem_filter]
    simp
  have apart : ∀ other ∈ task.targetSstables, Apart other table := by
    intro other taken
    have pairwise := placed.pairwise_lower stored.apart
    refine pairwise.forall ((meets other).mp taken).1 inTarget ?_
    rintro rfl
    exact notTaken taken
  have range := tableWritten.range_le
  have outside : table.maxKey < low ∨ high < table.minKey := by
    by_contra inside
    push Not at inside
    exact notTaken ((meets table).mpr ⟨inTarget, inside⟩)
  rcases outside with lowSide | highSide
  · refine .inl fun entry merged => ?_
    obtain ⟨input, isInput, inFile⟩ := mem_mergedEntries.mp merged
    have within := ((placed.inputs_written stored) input isInput).within entry inFile
    rcases mem_append.mp isInput with isSource | isTarget
    · exact lowSide.trans_le ((around input isSource).1.trans within.1)
    · rcases apart input isTarget with below | below
      · have upperEnd : input.maxKey < low := (below.trans_le range).trans lowSide
        exact absurd ((meets input).mp isTarget).2.1 (not_le.mpr upperEnd)
      · exact below.trans_le within.1
  · refine .inr fun entry merged => ?_
    obtain ⟨input, isInput, inFile⟩ := mem_mergedEntries.mp merged
    have within := ((placed.inputs_written stored) input isInput).within entry inFile
    rcases mem_append.mp isInput with isSource | isTarget
    · exact (within.2.trans (around input isSource).2).trans_lt highSide
    · rcases apart input isTarget with below | below
      · exact within.2.trans_lt below
      · have lowerEnd : high < input.minKey := (highSide.trans_le range).trans below
        exact absurd ((meets input).mp isTarget).2.2 (not_le.mpr lowerEnd)

include installed

omit stored placed output in
theorem Installed.mem_lower (mem : level ∈ newLower) :
    level ∈ lower.tail ∨ level.sstables = remaining task lower ++ new := by
  cases newLower with
  | nil => cases mem
  | cons target deeper =>
    rcases mem_cons.mp mem with rfl | inDeeper
    · exact .inr installed.lowerFirst
    · exact .inl (installed.lowerTail ▸ inDeeper)

omit stored output in
/-- The levels behind level 0 are the old ones but for the source and the target level. -/
theorem Installed.mem_tail (mem : level ∈ (upper ++ newSource :: newLower).tail) :
    level ∈ levels.tail ∨ level.sstables = staying ∨
      level.sstables = remaining task lower ++ new := by
  have deeper : ∀ other ∈ lower.tail, other ∈ levels.tail := by
    intro other inLower
    have inLower := mem_of_mem_tail inLower
    rw [placed.levels_eq]
    cases upper <;> simp [inLower]
  cases upper with
  | nil => exact (installed.mem_lower mem).imp (deeper level) .inr
  | cons level0 more =>
    rcases mem_append.mp mem with inMore | inRest
    · exact .inl (by rw [placed.levels_eq]; simp [inMore])
    · rcases mem_cons.mp inRest with rfl | inLower
      · exact .inr (.inl installed.sourceTables)
      · exact (installed.mem_lower inLower).imp (deeper level) .inr

/-- The invariant after a compaction. -/
theorem Stored.compacted :
    Stored (upper ++ newSource :: newLower)
      (removeFiles task.inputs written) after := by
  obtain ⟨batches, holdings, flattened⟩ := output.holdings
  have inputs := placed.inputs_written stored
  have ascending : Ascending batches.flatten := flattened ▸ keptEntries_ascending inputs
  have members {table : SSTableMetadata} := (installed.perm upper).mem_iff (a := table)
  constructor
  · rw [← stored.numbered, placed.levels_eq, map_append, map_append, map_cons,
      map_cons, installed.sourceNumber, installed.lowerNumbers]
  · intro table mem
    rcases mem_append.mp (members.mp mem) with isUntouched | isNew
    · exact (stored.written table (placed.mem_of_untouched isUntouched)).of_contents_eq
        (contents_of_untouched stored placed output isUntouched)
    · exact (holdings.written ascending table isNew).of_contents_eq
        (contents_of_new stored placed output isNew)
  · intro table mem
    rcases mem_append.mp (members.mp mem) with isUntouched | isNew
    · have old := stored.issued table (placed.mem_of_untouched isUntouched)
      have grown := output.after_eq
      omega
    · exact (output.issued isNew).2
  · refine ((installed.perm upper).map _).nodup_iff.mpr ?_
    have distinct := placed.numbers_nodup stored
    rw [map_append, nodup_append'] at distinct ⊢
    refine ⟨distinct.1, output.numbers ▸ nodup_range', ?_⟩
    intro number isUntouched isNew
    obtain ⟨table, inUntouched, rfl⟩ := mem_map.mp isUntouched
    obtain ⟨other, inNew, same⟩ := mem_map.mp isNew
    have old := stored.issued table (placed.mem_of_untouched inUntouched)
    have fresh := (output.issued inNew).1
    omega
  · intro level mem
    rcases installed.mem_tail placed mem with inOld | isStaying | isTarget
    · exact stored.apart level inOld
    · exact isStaying ▸ placed.pairwise_staying stored.apart
    · rw [isTarget, pairwise_append]
      refine ⟨(placed.pairwise_lower stored.apart).sublist filter_sublist,
        (holdings.pairwise_below ascending).imp .inl, fun table isRemaining other isNew => ?_⟩
      rcases placed.remaining_side stored isRemaining with below | above
      · refine .inl ((holdings.below_iff ascending _).mpr (fun entry mem => ?_) other isNew)
        exact below entry (mem_keptEntries (flattened ▸ mem))
      · refine .inr (holdings.maxKey_lt (fun entry mem => ?_) other isNew)
        exact above entry (mem_keptEntries (flattened ▸ mem))

omit stored installed output in
theorem Placed.drop_targetLevel : levels.drop task.targetLevel = lower := by
  rw [placed.levels_eq, placed.targetLevel, drop_length_add_append]
  rfl

/-- The tables stay in order exactly if the new ones go behind all others. -/
theorem ordered_compacted_iff (ordered : Ordered levels) :
    Ordered (upper ++ newSource :: newLower) ↔ InOrder levels files task := by
  obtain ⟨batches, holdings, flattened⟩ := output.holdings
  have ascending : Ascending batches.flatten :=
    flattened ▸ keptEntries_ascending (placed.inputs_written stored)
  have crossing : (∀ table ∈ remaining task lower, ∀ other ∈ new, Below table other) ↔
      InOrder levels files task := by
    rw [InOrder, placed.drop_targetLevel, ← flattened]
    constructor
    · intro below table inTarget notTaken
      exact (holdings.below_iff ascending _).mp
        (below table (mem_filter.mpr ⟨inTarget, by simpa using notTaken⟩))
    · intro below table isRemaining
      obtain ⟨inTarget, notTaken⟩ := mem_filter.mp isRemaining
      exact (holdings.below_iff ascending _).mpr
        (below table inTarget (by simpa using notTaken))
  rw [← crossing]
  constructor
  · intro newOrdered
    have whole := pairwise_firstTables newOrdered
    rw [installed.lowerFirst, pairwise_append] at whole
    exact whole.2.2
  · intro below level mem
    rcases installed.mem_tail placed mem with inOld | isStaying | isTarget
    · exact ordered level inOld
    · exact isStaying ▸ placed.pairwise_staying ordered
    · rw [isTarget, pairwise_append]
      exact ⟨(placed.pairwise_lower ordered).sublist filter_sublist,
        holdings.pairwise_below ascending, below⟩

omit stored output installed in
/-- The order in which a read asks the tables of a task and those around it. -/
theorem Placed.readOrder_eq :
    readOrder levels = readOrder upper ++ (task.sourceSstables.reverse ++
      (staying ++ (firstTables lower ++ lower.tail.flatMap (·.sstables)))) := by
  rw [placed.levels_eq, ← flatMap_sstables]
  rcases placed.shape with ⟨rfl, rfl⟩ | ⟨nonempty, table, single⟩
  · simp [readOrder, placed.sources]
  · obtain ⟨level0, more, rfl⟩ := exists_cons_of_ne_nil nonempty
    simp [readOrder, placed.sources, single]

omit stored output in
theorem Installed.readOrder_eq :
    readOrder (upper ++ newSource :: newLower) = readOrder upper ++ (staying ++
      ((remaining task lower ++ new) ++ lower.tail.flatMap (·.sstables))) := by
  rw [← installed.lowerFirst, ← installed.lowerTail, ← flatMap_sstables]
  rcases placed.shape with ⟨rfl, rfl⟩ | ⟨nonempty, -⟩
  · simp [readOrder, installed.sourceTables]
  · obtain ⟨level0, more, rfl⟩ := exists_cons_of_ne_nil nonempty
    simp [readOrder, installed.sourceTables]

omit output installed in
/-- A key of a merged entry is in no table left in the target level. -/
theorem Placed.remaining_hit (merged : entry ∈ mergedEntries files task) :
    firstHit Entry.key ((remaining task lower).map (contents files)) entry.key = none := by
  rw [firstHit_eq_none, forall_mem_map]
  intro table isRemaining
  have untouched : table ∈ untouchedTables task upper staying lower := by
    simp only [untouchedTables, mem_append]
    tauto
  refine (stored.written table (placed.mem_of_untouched untouched)).entryAt_uncovered ?_
  rcases placed.remaining_side stored isRemaining with below | above
  · exact fun covered => absurd (below entry merged) (not_lt.mpr covered.2)
  · exact fun covered => absurd (above entry merged) (not_lt.mpr covered.1)

omit output installed in
/-- A key of a source table is in no table that stays in the source level. -/
theorem Placed.staying_hit
    (found : firstHit Entry.key (task.sourceSstables.reverse.map (contents files)) key =
      some entry) : firstHit Entry.key (staying.map (contents files)) key = none := by
  rcases placed.shape with ⟨-, rfl⟩ | ⟨nonempty, -⟩
  · rfl
  · have apart : source.sstables.Pairwise Apart := by
      obtain ⟨level0, more, rfl⟩ := exists_cons_of_ne_nil nonempty
      exact stored.apart source (by rw [placed.levels_eq]; simp)
    have sourceWritten : ∀ table ∈ source.sstables, Written files table := fun table mem =>
      stored.written table (mem_flatMap.mpr ⟨source, by simp [placed.levels_eq], mem⟩)
    rw [placed.sources] at apart sourceWritten
    obtain ⟨_, mem, hit⟩ := exists_of_findSome?_eq_some found
    obtain ⟨table, isSource, rfl⟩ := mem_map.mp mem
    have isSource := mem_reverse.mp isSource
    rw [firstHit_eq_none, forall_mem_map]
    intro other stays
    refine (entryAt_apart (sourceWritten table (mem_append_left _ isSource))
      (sourceWritten other (mem_append_right _ stays))
      ((pairwise_append.mp apart).2.2 table isSource other stays) key).resolve_left ?_
    exact Option.ne_none_iff_exists'.mpr ⟨entry, hit⟩

omit stored placed output installed in
theorem mem_mergedEntries_of_newestEntry (newest : newestEntry files task key = some entry) :
    entry ∈ mergedEntries files task ∧ entry.key = key := by
  obtain ⟨⟨_, mem, inFile⟩, same⟩ := mem_of_firstHit newest
  obtain ⟨table, isInput, rfl⟩ := mem_map.mp mem
  refine ⟨mem_mergedEntries.mpr ⟨table, ?_, inFile⟩, same⟩
  rcases mem_append.mp isInput with isSource | isTarget
  · exact mem_append_left _ (mem_reverse.mp isSource)
  · exact mem_append_right _ isTarget

omit stored placed output installed in
/-- A key has a newest entry in a task exactly if it has a merged one. -/
theorem newestEntry_eq_none_iff :
    newestEntry files task key = none ↔ entryAt (mergedEntries files task) key = none := by
  rw [newestEntry, firstHit_eq_none, itemAt_eq_none]
  simp only [itemAt_eq_none, mem_mergedEntries, CompactionTask.inputs, mem_map,
    mem_append, mem_reverse]
  grind

omit stored placed output installed in
theorem Faithful.entryAt_mergedEntries (faithful : Faithful levels files task) (key : Bytes) :
    entryAt (mergedEntries files task) key = newestEntry files task key := by
  cases found : entryAt (mergedEntries files task) key with
  | some entry =>
    obtain ⟨merged, rfl⟩ := mem_of_itemAt found
    exact found.symm.trans (faithful.newestFirst entry merged)
  | none => exact (newestEntry_eq_none_iff.mpr found).symm

omit output installed in
theorem Placed.target_hit (key : Bytes) :
    firstHit Entry.key ((firstTables lower).map (contents files)) key =
      (firstHit Entry.key (task.targetSstables.map (contents files)) key).or
        (firstHit Entry.key ((remaining task lower).map (contents files)) key) := by
  rw [firstHit_perm (placed.target_perm.map (contents files)), map_append, firstHit_append]
  refine pairwise_map.mpr ((placed.pairwise_lower stored.apart).imp_of_mem ?_)
  have lowerWritten : ∀ table ∈ firstTables lower, Written files table := by
    intro table mem
    refine stored.written table ?_
    rw [placed.levels_eq, flatMap_append, flatMap_cons, flatMap_sstables lower]
    simp only [mem_append]
    tauto
  exact fun {first second} inFirst inSecond apart =>
    entryAt_apart (lowerWritten first inFirst) (lowerWritten second inSecond) apart key

omit output installed in
/-- What a read finds in the tables of a task and around them. -/
theorem Placed.hits (key : Bytes) :
    firstHit Entry.key ((readOrder levels).map (contents files)) key =
      (firstHit Entry.key ((readOrder upper).map (contents files)) key).or
        ((firstHit Entry.key (task.sourceSstables.reverse.map (contents files)) key).or
          ((firstHit Entry.key (staying.map (contents files)) key).or
            (((firstHit Entry.key (task.targetSstables.map (contents files)) key).or
              (firstHit Entry.key ((remaining task lower).map (contents files)) key)).or
              (firstHit Entry.key ((lower.tail.flatMap (·.sstables)).map (contents files))
                key)))) := by
  rw [placed.readOrder_eq]
  simp only [map_append, firstHit_append]
  rw [placed.target_hit stored]

/-- What a read finds after a task: the kept entry in place of the merged ones. -/
theorem hits_compacted (key : Bytes) :
    firstHit Entry.key ((readOrder (upper ++ newSource :: newLower)).map
        (contents (removeFiles task.inputs written))) key =
      (firstHit Entry.key ((readOrder upper).map (contents files)) key).or
        ((firstHit Entry.key (staying.map (contents files)) key).or
          (((firstHit Entry.key ((remaining task lower).map (contents files)) key).or
            (((entryAt (mergedEntries files task) key).filter (·.value.isSome)).map
              Entry.persisted)).or
            (firstHit Entry.key ((lower.tail.flatMap (·.sstables)).map (contents files))
              key))) := by
  have unchanged (tables : List SSTableMetadata)
      (included : tables ⊆ untouchedTables task upper staying lower) :
      tables.map (contents (removeFiles task.inputs written)) = tables.map (contents files) :=
    map_congr_left fun table mem =>
      contents_of_untouched stored placed output (included mem)
  have fresh : new.map (contents (removeFiles task.inputs written)) = new.map (contents written) :=
    map_congr_left fun table mem => contents_of_new stored placed output mem
  have sameUpper := unchanged (readOrder upper) fun table mem =>
    mem_append_left _ (mem_readOrder.mp mem)
  have sameStaying := unchanged staying fun table mem => by simp [untouchedTables, mem]
  have sameRemaining := unchanged (remaining task lower) fun table mem => by
    simp [untouchedTables, mem]
  have sameDeeper := unchanged (lower.tail.flatMap (·.sstables)) fun table mem =>
    mem_append_right _ (mem_append_right _ (mem_append_right _ mem))
  rw [installed.readOrder_eq placed]
  simp only [map_append, firstHit_append]
  rw [sameUpper, sameStaying, sameRemaining, sameDeeper, fresh, output.hit,
    entryAt_keptEntries (placed.inputs_written stored)]

omit stored placed output installed in
/-- The newest entry of a task is in a source table, or else in a target table. -/
theorem newestEntry_eq_or (files : TableFiles) (task : CompactionTask) (key : Bytes) :
    newestEntry files task key =
      (firstHit Entry.key (task.sourceSstables.reverse.map (contents files)) key).or
        (firstHit Entry.key (task.targetSstables.map (contents files)) key) := by
  rw [newestEntry, map_append, firstHit_append]

/-- A faithful compaction leaves every read as it was. -/
theorem read_compacted (faithful : Faithful levels files task) (key : Bytes) :
    readTables (upper ++ newSource :: newLower)
      (removeFiles task.inputs written) key = readTables levels files key := by
  have newest := newestEntry_eq_or files task key
  rw [readTables, readTables, hits_compacted stored placed output installed, placed.hits stored,
    faithful.entryAt_mergedEntries, newest]
  refine value_of_hits (fun entry found => placed.staying_hit stored found)
    (fun entry found => ?_) (fun entry found deleted => ?_)
  · obtain ⟨merged, rfl⟩ := mem_mergedEntries_of_newestEntry (newest.trans found)
    exact placed.remaining_hit stored merged
  · have isNewest := newest.trans found
    obtain ⟨merged, rfl⟩ := mem_mergedEntries_of_newestEntry isNewest
    have hidden := faithful.nothingHidden entry merged isNewest deleted
    rwa [← drop_drop, placed.drop_targetLevel, drop_one] at hidden

/-- A compaction brings no new keys. -/
theorem inTables_compacted (has : InTables (upper ++ newSource :: newLower)
      (removeFiles task.inputs written) key) : InTables levels files key := by
  obtain ⟨table, mem, entry, inFile, rfl⟩ := has
  rcases mem_append.mp ((installed.perm upper).mem_iff.mp mem) with isUntouched | isNew
  · rw [contents_of_untouched stored placed output isUntouched] at inFile
    exact ⟨table, placed.mem_of_untouched isUntouched, entry, inFile, rfl⟩
  · rw [contents_of_new stored placed output isNew] at inFile
    obtain ⟨batches, holdings, flattened⟩ := output.holdings
    have inBatches : entry ∈ (batches.map (·.map Entry.persisted)).flatten := by
      rw [← holdings.contents_eq]
      exact mem_flatten.mpr ⟨_, mem_map_of_mem isNew, inFile⟩
    rw [← map_flatten, flattened] at inBatches
    obtain ⟨kept, isKept, rfl⟩ := mem_map.mp inBatches
    obtain ⟨input, isInput, inInput⟩ := mem_mergedEntries.mp (mem_keptEntries isKept)
    exact ⟨input, placed.perm.mem_iff.mpr (mem_append_right _ isInput), kept, inInput, rfl⟩

end

/-- What a compaction leaves. -/
structure Compacted (levels : List Level) (files : TableFiles) (task : CompactionTask)
    (newLevels : List Level) (newFiles : TableFiles) (after : Nat) : Prop where
  stored : Stored newLevels newFiles after
  ordered_iff : Ordered levels → (Ordered newLevels ↔ InOrder levels files task)
  reads : Faithful levels files task →
    ∀ key, readTables newLevels newFiles key = readTables levels files key
  keys : ∀ key, InTables newLevels newFiles key → InTables levels files key

/-- A selected task is carried out, unless its new tables have no level to go to. -/
theorem compacted_or_stuck {files : TableFiles} {next baseSize : Nat} {task : CompactionTask}
    (stored : Stored levels files next)
    (selected : CompactionStrategy.default.selectCompaction (levels.map (·.sstables)) baseSize =
      some task) (fileSize : List Entry → Nat) (blockSize : Nat) :
    ∃ new written after,
      CompactionExecutor.execute fileSize blockSize files task next = .ok (new, written, after) ∧
      ((∃ newLevels, installSstables task new levels = some newLevels ∧
          Compacted levels files task newLevels
            (removeFiles task.inputs written) after) ∨
        (installSstables task new levels = none ∧
          InOrder levels files task ∧ ¬Faithful levels files task)) := by
  obtain ⟨upper, source, staying, lower, placed⟩ := selectCompaction_placed selected
  obtain ⟨new, written, after, executed, output⟩ :=
    execute_spec fileSize blockSize (placed.inputs_written stored) next
  refine ⟨new, written, after, executed, ?_⟩
  by_cases room : new = [] ∨ lower ≠ []
  · obtain ⟨newSource, newLower, isInstalled, installed⟩ := placed.install stored.distinct room
    exact .inl ⟨_, isInstalled, stored.compacted placed output installed,
      ordered_compacted_iff stored placed output installed,
      read_compacted stored placed output installed,
      fun _ => inTables_compacted stored placed output installed⟩
  · refine .inr ⟨(placed.installSstables_eq new).trans (if_neg room), ?_, fun faithful => ?_⟩
    · rw [InOrder, placed.drop_targetLevel, show lower = [] by tauto]
      simp [firstTables]
    · have isKept : keptEntries files task ≠ [] := fun empty =>
        room (.inl (output.eq_nil_iff.mpr empty))
      have inside := faithful.room isKept
      rw [placed.levels_eq, placed.targetLevel, show lower = [] by tauto] at inside
      simp at inside

end Nanograph.Lsm
