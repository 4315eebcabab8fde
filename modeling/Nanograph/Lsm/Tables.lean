import Nanograph.Lsm.Engine

/-!
# What the levels hold

A read asks the tables of level 0 from the newest to the oldest and then one table
of every other level. When the tables of those levels are in order, this amounts to
asking all tables one after the other, and the first one that has the key answers.
-/

namespace Nanograph.Lsm

open List Foundation

/-- What the file of a table holds. -/
def contents (files : TableFiles) (table : SSTableMetadata) : List Entry :=
  (files.lookup table.fileNumber).getD []

/-- The range of a table ends before the range of another one begins. -/
def Below (first second : SSTableMetadata) : Prop := first.maxKey < second.minKey

instance : DecidableRel Below := fun first second =>
  inferInstanceAs (Decidable (first.maxKey < second.minKey))

/-- Two tables have disjoint ranges. -/
def Apart (first second : SSTableMetadata) : Prop := Below first second ∨ Below second first

instance : Std.Symm Apart := ⟨fun _ _ => Or.symm⟩

/-- A table whose file holds entries in order, all in the range of the table. -/
structure Written (files : TableFiles) (table : SSTableMetadata) : Prop where
  nonempty : contents files table ≠ []
  ascending : Ascending (contents files table)
  within : ∀ entry ∈ contents files table, table.minKey ≤ entry.key ∧ entry.key ≤ table.maxKey

/-- The tables in the order in which a read asks them. -/
def readOrder : List Level → List SSTableMetadata
  | [] => []
  | level0 :: deeper => level0.sstables.reverse ++ deeper.flatMap (·.sstables)

/-- The value of a key in the tables: that of the first one that has the key. -/
def readTables (levels : List Level) (files : TableFiles) (key : Bytes) : Option Bytes :=
  (firstHit Entry.key ((readOrder levels).map (contents files)) key).bind (·.value)

def InTables (levels : List Level) (files : TableFiles) (key : Bytes) : Prop :=
  ∃ table ∈ levels.flatMap (·.sstables), ∃ entry ∈ contents files table, entry.key = key

/-- The invariant of the levels and the table files. -/
structure Stored (levels : List Level) (files : TableFiles) (nextFileNumber : Nat) : Prop where
  numbered : levels.map (·.levelNumber) = List.range 7
  written : ∀ table ∈ levels.flatMap (·.sstables), Written files table
  issued : ∀ table ∈ levels.flatMap (·.sstables), table.fileNumber < nextFileNumber
  distinct : ((levels.flatMap (·.sstables)).map (·.fileNumber)).Nodup
  apart : ∀ level ∈ levels.tail, level.sstables.Pairwise Apart

/-- The tables of all levels but level 0 are in order of their ranges, which are disjoint. -/
def Ordered (levels : List Level) : Prop :=
  ∀ level ∈ levels.tail, level.sstables.Pairwise Below

instance (levels : List Level) : Decidable (Ordered levels) :=
  inferInstanceAs (Decidable (∀ level ∈ levels.tail, level.sstables.Pairwise Below))

theorem SSTable.get_eq (files : TableFiles) (table : SSTableMetadata) (key : Bytes) :
    SSTable.get files table.fileNumber key = entryAt (contents files table) key := by
  rw [SSTable.get, contents]
  cases files.lookup table.fileNumber <;> rfl

variable {table : SSTableMetadata}

theorem mem_readOrder {levels : List Level} :
    table ∈ readOrder levels ↔ table ∈ levels.flatMap (·.sstables) := by
  cases levels <;> simp [readOrder]

section

variable {files : TableFiles} {table other : SSTableMetadata} {key : Bytes}

theorem Written.present (written : Written files table) :
    files.lookup table.fileNumber = some (contents files table) := by
  have nonempty := written.nonempty
  rw [contents] at nonempty ⊢
  cases found : files.lookup table.fileNumber with
  | none => simp [found] at nonempty
  | some entries => rfl

theorem Written.of_contents_eq {later : TableFiles} (written : Written files table)
    (same : contents later table = contents files table) : Written later table :=
  ⟨same ▸ written.nonempty, same ▸ written.ascending, same ▸ written.within⟩

section

variable (written : Written files table)

include written

theorem Written.range_le : table.minKey ≤ table.maxKey := by
  obtain ⟨entry, mem⟩ := exists_mem_of_ne_nil _ written.nonempty
  obtain ⟨lower, upper⟩ := written.within entry mem
  exact lower.trans upper

/-- A table has no entry for a key outside its range. -/
theorem Written.entryAt_uncovered (uncovered : ¬(table.minKey ≤ key ∧ key ≤ table.maxKey)) :
    entryAt (contents files table) key = none := by
  refine itemAt_eq_none.mpr fun entry mem same => uncovered ?_
  exact same ▸ written.within entry mem

/-- Tables with disjoint ranges have no key in common. -/
theorem entryAt_apart (otherWritten : Written files other) (apart : Apart table other)
    (key : Bytes) :
    entryAt (contents files table) key = none ∨ entryAt (contents files other) key = none := by
  by_cases covered : table.minKey ≤ key ∧ key ≤ table.maxKey
  · refine .inr (otherWritten.entryAt_uncovered fun otherCovered => ?_)
    rcases apart with below | below
    · exact absurd (covered.2.trans_lt below) (not_lt.mpr otherCovered.1)
    · exact absurd (otherCovered.2.trans_lt below) (not_lt.mpr covered.1)
  · exact .inl (written.entryAt_uncovered covered)

/-- Outside the range of a table nothing is missed. -/
theorem covered_get_eq :
    (if table.covers key then SSTable.get files table.fileNumber key else none) =
      entryAt (contents files table) key := by
  split
  next => exact SSTable.get_eq files table key
  next uncovered =>
    exact (written.entryAt_uncovered fun covered =>
      uncovered (by simpa [SSTableMetadata.covers] using covered)).symm

end

theorem compareRange_eq_iff :
    Level.compareRange key table = .eq ↔ table.minKey ≤ key ∧ key ≤ table.maxKey := by
  rw [Level.compareRange]
  split
  next before => simp [before]
  next notBefore =>
    split
    next behind => simp [behind]
    next notBehind => simp [not_lt.mp notBefore, not_lt.mp notBehind]

/-- Of two tables in order, one lies to the side of a key that its place says. -/
theorem compareRange_of_below {first second : SSTableMetadata}
    (written : Written files first) (below : Below first second) :
    Level.compareRange key first = .lt ∨ Level.compareRange key second = .gt := by
  by_cases behind : first.maxKey < key
  · left
    rw [Level.compareRange, if_neg, if_pos behind]
    exact not_lt.mpr (written.range_le.trans behind.le)
  · right
    rw [Level.compareRange, if_pos ((not_lt.mp behind).trans_lt below)]

/-- The search in a level with its tables in order finds what asking all of them does. -/
theorem search_eq {level : Level} (written : ∀ table ∈ level.sstables, Written files table)
    (ordered : level.sstables.Pairwise Below) :
    ((level.search key).bind fun table => SSTable.get files table.fileNumber key) =
      firstHit Entry.key (level.sstables.map (contents files)) key := by
  have sides : level.sstables.Pairwise fun first second =>
      Level.compareRange key first = .lt ∨ Level.compareRange key second = .gt :=
    ordered.imp_of_mem fun mem _ below => compareRange_of_below (written _ mem) below
  rcases binarySearchBy_ordered sides with
    ⟨before, table, after, split, equal, found⟩ | ⟨missing, index, missed⟩
  · have covered := compareRange_eq_iff.mp equal
    have others : ∀ other ∈ before ++ after, Apart table other := by
      rw [split, pairwise_append, pairwise_cons] at ordered
      obtain ⟨-, ⟨behind, -⟩, across⟩ := ordered
      intro other mem
      rcases mem_append.mp mem with inFront | inBack
      · exact .inr (across other inFront table (by simp))
      · exact .inl (behind other inBack)
    have silent : ∀ other ∈ before ++ after, entryAt (contents files other) key = none := by
      intro other mem
      have otherWritten : Written files other := written other (by
        rw [split]
        exact (perm_middle.mem_iff).mpr (mem_cons_of_mem _ mem))
      refine otherWritten.entryAt_uncovered fun otherCovered => ?_
      rcases others other mem with below | below
      · exact absurd (covered.2.trans_lt below) (not_lt.mpr otherCovered.1)
      · exact absurd (otherCovered.2.trans_lt below) (not_lt.mpr covered.1)
    have front : firstHit Entry.key (before.map (contents files)) key = none :=
      firstHit_eq_none.mpr (by simpa using fun other mem => silent other (by simp [mem]))
    have back : firstHit Entry.key (after.map (contents files)) key = none :=
      firstHit_eq_none.mpr (by simpa using fun other mem => silent other (by simp [mem]))
    have searched : level.search key = some table := by
      rw [Level.search, found, split]
      simp
    rw [searched, split, map_append, firstHit_append, front, map_cons, firstHit_cons,
      back, Option.none_or, Option.or_none]
    exact SSTable.get_eq files table key
  · have searched : level.search key = none := by
      simp only [Level.search, missed]
    rw [searched, Option.bind_none, eq_comm, firstHit_eq_none]
    simp only [forall_mem_map]
    intro table mem
    refine (written table mem).entryAt_uncovered fun covered => ?_
    exact missing table mem (compareRange_eq_iff.mpr covered)

/-- Asking levels one after the other is asking all their tables. -/
theorem firstHit_levels (levels : List Level) :
    firstHit Entry.key ((levels.flatMap (·.sstables)).map (contents files)) key =
      levels.findSome? fun level => firstHit Entry.key (level.sstables.map (contents files)) key := by
  induction levels with
  | nil => rfl
  | cons level rest ih =>
    rw [flatMap_cons, map_append, firstHit_append, ih, findSome?_cons]
    cases firstHit Entry.key (level.sstables.map (contents files)) key <;> rfl

end

namespace LSMTreeEngine

variable {engine : LSMTreeEngine}

/-- A read of the levels asks all tables in order. -/
theorem findInLevels_eq (key : Bytes)
    (written : ∀ table ∈ engine.levels.flatMap (·.sstables), Written engine.files table)
    (ordered : Ordered engine.levels) :
    engine.findInLevels key =
      firstHit Entry.key ((readOrder engine.levels).map (contents engine.files)) key := by
  rw [findInLevels, findInLevel0]
  cases isLevels : engine.levels with
  | nil => rfl
  | cons level0 deeper =>
    rw [isLevels] at written ordered
    rw [readOrder, map_append, firstHit_append, firstHit_levels]
    congr 1
    · rw [firstHit, findSome?_map]
      refine findSome?_of_agree fun table mem => covered_get_eq ?_
      exact written table (mem_append_left _ (mem_reverse.mp mem))
    · refine findSome?_of_agree fun level mem => search_eq ?_ (ordered level mem)
      exact fun table inLevel => written table (mem_flatMap.mpr
        ⟨level, mem_cons_of_mem _ mem, inLevel⟩)

end LSMTreeEngine

end Nanograph.Lsm
