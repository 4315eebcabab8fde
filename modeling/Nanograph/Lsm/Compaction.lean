import Nanograph.Foundation.Merge
import Nanograph.Kvt.Types
import Nanograph.Lsm.SSTable

/-!
# Compaction

The strategy and the executor of `nanograph-lsm/src/compaction.rs`. The executor
merges the tables of a task through a heap, drops all but the first entry of each
key and every deletion, and writes what is left in tables of bounded size.
-/

namespace Nanograph.Lsm

open Foundation Kvt

structure CompactionTask where
  sourceLevel : Nat
  targetLevel : Nat
  sourceSstables : List SSTableMetadata
  targetSstables : List SSTableMetadata
deriving DecidableEq

/-- All tables of a task, in the order of the merge. -/
def CompactionTask.inputs (task : CompactionTask) : List SSTableMetadata :=
  task.sourceSstables ++ task.targetSstables

structure CompactionStrategy where
  levelSizeMultiplier : Nat
  maxLevel : Nat
  level0FileNumCompactionTrigger : Nat

namespace CompactionStrategy

/-- The strategy the engine uses. -/
def default : CompactionStrategy where
  levelSizeMultiplier := 10
  maxLevel := 7
  level0FileNumCompactionTrigger := 4

def targetSize (strategy : CompactionStrategy) (level baseSize : Nat) : Nat :=
  if level = 0 then 0 else baseSize * strategy.levelSizeMultiplier ^ level

/-- The tables of a target level whose range overlaps that of the source tables. -/
def findOverlappingSstables (source target : List SSTableMetadata) : List SSTableMetadata :=
  match (source.map (·.minKey)).min?, (source.map (·.maxKey)).max? with
  | some minKey, some maxKey =>
    target.filter fun table => !(decide (table.maxKey < minKey) || decide (maxKey < table.minKey))
  | _, _ => []

/-- The task of one level other than level 0, if it is over its size. -/
def selectLevel (strategy : CompactionStrategy) (levels : List (List SSTableMetadata))
    (baseSize level : Nat) : Option CompactionTask :=
  match levels[level]? with
  | some (table :: rest) =>
    if ((table :: rest).map (·.fileSize)).sum > strategy.targetSize level baseSize then
      some
        { sourceLevel := level
          targetLevel := level + 1
          sourceSstables := [table]
          targetSstables :=
            match levels[level + 1]? with
            | some next => findOverlappingSstables [table] next
            | none => [] }
    else none
  | _ => none

/-- Select tables for compaction: level 0 by the number of its tables, then the first
other level that is over its size. -/
def selectCompaction (strategy : CompactionStrategy) (levels : List (List SSTableMetadata))
    (baseSize : Nat) : Option CompactionTask :=
  let level0 := levels.getD 0 []
  if level0.length ≥ strategy.level0FileNumCompactionTrigger then
    some
      { sourceLevel := 0
        targetLevel := 1
        sourceSstables := level0
        targetSstables := findOverlappingSstables level0 (levels.getD 1 []) }
  else
    (List.range' 1 (strategy.maxLevel - 1)).findSome? (strategy.selectLevel levels baseSize)

/-- A level holds more bytes than it may. -/
def OverSize (tables : List (List SSTableMetadata)) (baseSize level : Nat) : Prop :=
  baseSize * 10 ^ level < ((tables.getD level []).map (·.fileSize)).sum

theorem selectLevel_spec (tables : List (List SSTableMetadata)) (baseSize : Nat) {level : Nat}
    (positive : 1 ≤ level) :
    (∃ task, default.selectLevel tables baseSize level = some task ∧ task.sourceLevel = level ∧
        task.targetLevel = level + 1 ∧ OverSize tables baseSize level) ∨
      default.selectLevel tables baseSize level = none ∧ ¬OverSize tables baseSize level := by
  rw [selectLevel, OverSize, targetSize, if_neg (by omega), List.getD_eq_getElem?_getD]
  rcases tables[level]? with _ | _ | ⟨table, rest⟩
  · simp
  · simp
  · by_cases large : baseSize * 10 ^ level < ((table :: rest).map (·.fileSize)).sum
    · exact .inl ⟨_, if_pos large, rfl, rfl, large⟩
    · exact .inr ⟨if_neg large, large⟩

end CompactionStrategy

/-- An entry in the heap of a merge, with the position of its table. -/
abbrev MergeEntry := Entry × Nat

/-- What the heap compares: the lowest key, then the lowest sequence number, then the
last table come out first. -/
def MergeEntry.rank (item : MergeEntry) : Bytes ×ₗ Nat ×ₗ Natᵒᵈ :=
  toLex (item.1.key, toLex (item.1.sequence, OrderDual.toDual item.2))

/-- An entry comes out of the heap before another one. -/
def PoppedBefore (first second : MergeEntry) : Prop := first.rank ≤ second.rank

instance : DecidableRel PoppedBefore := fun first second =>
  inferInstanceAs (Decidable (first.rank ≤ second.rank))

instance : Std.Total PoppedBefore := ⟨fun first second => le_total first.rank second.rank⟩

instance : IsTrans MergeEntry PoppedBefore :=
  ⟨fun _ _ _ before after => le_trans (show MergeEntry.rank _ ≤ _ from before) after⟩

namespace CompactionExecutor

/-- Merge the entries of several tables. Tables without entries have no position. -/
def mergeSstables (tables : List (List Entry)) : List Entry :=
  let iterators := (tables.filter fun entries => !entries.isEmpty).zipIdx
  (mergeLists PoppedBefore (iterators.map fun (entries, idx) => entries.map (·, idx))).map (·.1)

/-- Drop all entries but the first of each key, and the deletions. -/
def deduplicateAndFilter : Option Bytes → List Entry → List Entry
  | _, [] => []
  | prevKey, entry :: rest =>
    if prevKey = some entry.key then deduplicateAndFilter prevKey rest
    else if entry.value.isSome then entry :: deduplicateAndFilter (some entry.key) rest
    else deduplicateAndFilter (some entry.key) rest

/-- Cut entries into batches of bounded size, given the current batch and its size. -/
def splitBatches (maxSize : Nat) : List Entry → Nat → List Entry → List (List Entry)
  | batch, _, [] => if batch.isEmpty then [] else [batch]
  | batch, size, entry :: rest =>
    if size + entry.size > maxSize ∧ batch ≠ [] then
      batch :: splitBatches maxSize [entry] entry.size rest
    else
      splitBatches maxSize (batch ++ [entry]) (size + entry.size) rest

def loadSstableEntries (files : TableFiles) (table : SSTableMetadata) :
    Except KeyValueError (List Entry) :=
  match files.lookup table.fileNumber with
  | some entries => .ok entries
  | none =>
    .error (.storageCorruption s!"Failed to open SSTable {table.fileNumber}: PathMissing")

/-- Write batches into new tables, numbered on from a file number. -/
def writeSstables (fileSize : List Entry → Nat) (level : Nat) :
    TableFiles → Nat → List (List Entry) →
      Except KeyValueError (List SSTableMetadata × TableFiles × Nat)
  | files, nextFileNumber, [] => .ok ([], files, nextFileNumber)
  | files, nextFileNumber, batch :: rest =>
    match SSTable.create fileSize batch nextFileNumber level with
    | .error message => .error (.storageCorruption message)
    | .ok metadata =>
      let written := files.insert nextFileNumber (batch.map Entry.persisted)
      match writeSstables fileSize level written (nextFileNumber + 1) rest with
      | .error error => .error error
      | .ok (tables, files, next) => .ok (metadata :: tables, files, next)

/-- Execute a compaction task: the new tables, the files, and the next file number. -/
def execute (fileSize : List Entry → Nat) (blockSize : Nat) (files : TableFiles)
    (task : CompactionTask) (nextFileNumber : Nat) :
    Except KeyValueError (List SSTableMetadata × TableFiles × Nat) :=
  match task.inputs.mapM (loadSstableEntries files) with
  | .error error => .error error
  | .ok tables =>
    let entries := deduplicateAndFilter none (mergeSstables tables)
    writeSstables fileSize task.targetLevel files nextFileNumber
      (splitBatches (blockSize * 1024) [] 0 entries)

end CompactionExecutor

end Nanograph.Lsm
