import Nanograph.Foundation.BinarySearch
import Nanograph.Lsm.Memtable

/-!
# Sorted string tables and levels

What `nanograph-lsm/src/sstable.rs` writes into a table file and reads back, and
the levels of `nanograph-lsm/src/engine.rs`. A table file holds the entries it was
created from, without their commit timestamps. The size of a file depends on the
encoding of its blocks, so the options of the engine carry it as a function of the
entries.
-/

namespace Nanograph.Lsm

open Foundation

structure SSTableMetadata where
  fileNumber : Nat
  level : Nat
  minKey : Bytes
  maxKey : Bytes
  minSequence : Nat
  maxSequence : Nat
  entryCount : Nat
  fileSize : Nat
deriving DecidableEq

/-- An entry as a table file keeps it. -/
def Entry.persisted (entry : Entry) : Entry := { entry with commitTs := none }

/-- The table files by number. -/
abbrev TableFiles := AList fun _ : Nat => List Entry

namespace SSTable

/-- The metadata of a table with at least one entry. -/
def describe (fileSize : List Entry → Nat) (first : Entry) (rest : List Entry)
    (fileNumber level : Nat) : SSTableMetadata where
  fileNumber := fileNumber
  level := level
  minKey := first.key
  maxKey := (rest.getLast?.getD first).key
  minSequence := rest.foldl (fun least entry => min least entry.sequence) first.sequence
  maxSequence := rest.foldl (fun most entry => max most entry.sequence) first.sequence
  entryCount := rest.length + 1
  fileSize := fileSize (first :: rest)

def create (fileSize : List Entry → Nat) (entries : List Entry) (fileNumber level : Nat) :
    Except String SSTableMetadata :=
  match entries with
  | [] => .error "Cannot create SSTable from empty entries"
  | first :: rest => .ok (describe fileSize first rest fileNumber level)

theorem fileNumber_of_create {fileSize : List Entry → Nat} {entries : List Entry}
    {fileNumber level : Nat} {table : SSTableMetadata}
    (created : create fileSize entries fileNumber level = .ok table) :
    table.fileNumber = fileNumber := by
  cases entries with
  | nil => cases created
  | cons first rest =>
    cases created
    rfl

/-- Read an entry from a table file, if there is such a file. -/
def get (files : TableFiles) (fileNumber : Nat) (key : Bytes) : Option Entry :=
  (files.lookup fileNumber).bind (entryAt · key)

end SSTable

/-- Whether a key is in the range of a table. -/
def SSTableMetadata.covers (table : SSTableMetadata) (key : Bytes) : Bool :=
  decide (table.minKey ≤ key ∧ key ≤ table.maxKey)

/-- Level information for the tree. -/
structure Level where
  levelNumber : Nat
  sstables : List SSTableMetadata
  totalSize : Nat

namespace Level

/-- A level without tables. -/
def new (levelNumber : Nat) : Level := ⟨levelNumber, [], 0⟩

/-- Add a table behind the others. -/
def addSstable (level : Level) (table : SSTableMetadata) : Level :=
  { level with
    sstables := level.sstables ++ [table]
    totalSize := level.totalSize + table.fileSize }

/-- Remove the first table with a file number. -/
def removeSstable (level : Level) (fileNumber : Nat) : Level :=
  match level.sstables.find? (·.fileNumber = fileNumber) with
  | some table =>
    { level with
      sstables := level.sstables.eraseP (·.fileNumber = fileNumber)
      totalSize := level.totalSize - table.fileSize }
  | none => level

/-- Add tables one after the other. -/
def addSstables (level : Level) (tables : List SSTableMetadata) : Level :=
  tables.foldl addSstable level

/-- Remove tables one after the other. -/
def removeSstables (level : Level) (tables : List SSTableMetadata) : Level :=
  tables.foldl (fun level table => level.removeSstable table.fileNumber) level

/-- Whether a level needs compaction: level 0 by its number of tables, the others by
their size. -/
def needsCompaction (level : Level) (maxSize : Nat) : Bool :=
  if level.levelNumber = 0 then decide (level.sstables.length ≥ 4)
  else decide (level.totalSize > maxSize)

/-- How the range of a table lies to a key. -/
def compareRange (key : Bytes) (table : SSTableMetadata) : Ordering :=
  if key < table.minKey then .gt else if table.maxKey < key then .lt else .eq

/-- The table that a binary search over the key ranges finds. -/
def search (level : Level) (key : Bytes) : Option SSTableMetadata :=
  match binarySearchBy (compareRange key) level.sstables with
  | .ok idx => level.sstables[idx]?
  | .error _ => none

end Level

end Nanograph.Lsm
