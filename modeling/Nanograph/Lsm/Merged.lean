import Nanograph.Lsm.Tables

/-!
# What a compaction writes

The executor merges tables, keeps the first entry of every key unless it is a
deletion, and writes the rest into tables with ascending ranges. Which entry of a
key comes first is decided by the order of the heap alone.
-/

namespace Nanograph.Lsm

open List Foundation

/-- Entries come out of the heap in the order of their keys. -/
theorem key_le_of_poppedBefore {first second : MergeEntry} (before : PoppedBefore first second) :
    first.1.key ≤ second.1.key :=
  Prod.Lex.monotone_fst _ _ before

theorem poppedBefore_of_key_lt {first second : MergeEntry} (before : first.1.key < second.1.key) :
    PoppedBefore first second :=
  Prod.Lex.toLex_le_toLex.mpr (.inl before)

theorem entryAt_persisted (entries : List Entry) (key : Bytes) :
    entryAt (entries.map Entry.persisted) key = (entryAt entries key).map Entry.persisted :=
  find?_map

namespace CompactionExecutor

/-- A merge has the entries of its tables. -/
theorem mergeSstables_perm (tables : List (List Entry)) :
    (mergeSstables tables).Perm tables.flatten := by
  refine ((mergeLists_perm _).map Prod.fst).trans (List.Perm.of_eq ?_)
  simp only [map_flatten, map_map, Function.comp_def, map_id']
  exact (congrArg List.flatten (zipIdx_map_fst 0 _)).trans flatten_filter_not_isEmpty

/-- The keys of a merge ascend, with repetitions. -/
theorem mergeSstables_ascending {tables : List (List Entry)}
    (ascending : ∀ entries ∈ tables, Ascending entries) :
    (mergeSstables tables).Pairwise (·.key ≤ ·.key) := by
  refine pairwise_map.mpr ((mergeLists_sorted fun list mem => ?_).imp
    key_le_of_poppedBefore)
  obtain ⟨⟨entries, idx⟩, inIterators, rfl⟩ := mem_map.mp mem
  have inTables : entries ∈ tables :=
    (mem_filter.mp (fst_mem_of_mem_zipIdx inIterators)).1
  refine pairwise_map.mpr ((ascending entries inTables).imp fun before => ?_)
  exact poppedBefore_of_key_lt before

section

variable {entries : List Entry} {prevKey : Option Bytes}

theorem deduplicateAndFilter_sublist : (deduplicateAndFilter prevKey entries).Sublist entries := by
  induction entries generalizing prevKey with
  | nil => exact List.Sublist.slnil
  | cons entry rest ih =>
    rw [deduplicateAndFilter]
    split
    · exact ih.cons entry
    · split
      · exact ih.cons_cons entry
      · exact ih.cons entry

/-- What is kept ascends strictly, from above the previous key on. -/
theorem deduplicateAndFilter_ascending (sorted : entries.Pairwise (·.key ≤ ·.key))
    (floor : ∀ previous ∈ prevKey, ∀ entry ∈ entries, previous ≤ entry.key) :
    Ascending (deduplicateAndFilter prevKey entries) ∧
      ∀ previous ∈ prevKey, ∀ entry ∈ deduplicateAndFilter prevKey entries,
        previous < entry.key := by
  induction entries generalizing prevKey with
  | nil => exact ⟨List.Pairwise.nil, by simp [deduplicateAndFilter]⟩
  | cons entry rest ih =>
    obtain ⟨least, restSorted⟩ := pairwise_cons.mp sorted
    have fromEntry : ∀ previous ∈ some entry.key, ∀ other ∈ rest, previous ≤ other.key := by
      simpa using least
    rw [deduplicateAndFilter]
    split
    next =>
      refine ih restSorted fun previous isPrevious other mem => ?_
      exact floor previous isPrevious other (mem_cons_of_mem _ mem)
    next different =>
      obtain ⟨restAscending, above⟩ := ih restSorted fromEntry
      have exceeds : ∀ previous ∈ prevKey, previous < entry.key := fun previous isPrevious =>
        (floor previous isPrevious entry (by simp)).lt_of_ne fun same =>
          different (same ▸ isPrevious)
      have exceedsRest : ∀ previous ∈ prevKey,
          ∀ other ∈ deduplicateAndFilter (some entry.key) rest, previous < other.key :=
        fun previous isPrevious other mem =>
          (exceeds previous isPrevious).trans (above entry.key rfl other mem)
      split
      · refine ⟨pairwise_cons.mpr ⟨above entry.key rfl, restAscending⟩,
          fun previous isPrevious => forall_mem_cons.mpr ⟨exceeds previous isPrevious, ?_⟩⟩
        exact exceedsRest previous isPrevious
      · exact ⟨restAscending, exceedsRest⟩

/-- The first entry of a key is kept, unless it is a deletion. -/
theorem entryAt_deduplicateAndFilter (sorted : entries.Pairwise (·.key ≤ ·.key))
    (floor : ∀ previous ∈ prevKey, ∀ entry ∈ entries, previous ≤ entry.key) (key : Bytes) :
    entryAt (deduplicateAndFilter prevKey entries) key =
      if prevKey = some key then none else (entryAt entries key).filter (·.value.isSome) := by
  induction entries generalizing prevKey with
  | nil => simp [deduplicateAndFilter, itemAt]
  | cons entry rest ih =>
    obtain ⟨least, restSorted⟩ := pairwise_cons.mp sorted
    have fromEntry : ∀ previous ∈ some entry.key, ∀ other ∈ rest, previous ≤ other.key := by
      simpa using least
    -- A key below the first one is in none of the entries.
    have absent : prevKey = some key → entry.key ≠ key → entryAt rest key = none := by
      refine fun isPrevious different => itemAt_eq_none.mpr fun other mem same => ?_
      have lower : key < entry.key :=
        (floor key isPrevious entry (by simp)).lt_of_ne (Ne.symm different)
      exact (lower.trans_le (least other mem)).ne' same
    rw [deduplicateAndFilter, entryAt_cons]
    split
    next same =>
      rw [ih restSorted fun previous isPrevious other mem =>
        floor previous isPrevious other (mem_cons_of_mem _ mem)]
      by_cases hit : entry.key = key
      · simp [same, hit]
      · simp [hit]
    next different =>
      have kept := ih restSorted fromEntry
      by_cases hit : entry.key = key
      · subst hit
        rw [if_neg different, if_pos rfl]
        by_cases live : entry.value.isSome
        · simp [live, entryAt_cons, Option.filter]
        · simp [live, kept, Option.filter]
      · have dropped : entryAt (deduplicateAndFilter (some entry.key) rest) key =
            if prevKey = some key then none
            else (entryAt rest key).filter (·.value.isSome) := by
          rw [kept, if_neg (by simpa using hit)]
          split
          next isPrevious => rw [absent isPrevious hit]; rfl
          next => rfl
        split
        · rw [entryAt_cons, if_neg hit, dropped]
        · exact dropped

end

/-- The batches are the entries, cut into pieces that are not empty. -/
theorem splitBatches_spec (maxSize size : Nat) (batch entries : List Entry) :
    (splitBatches maxSize batch size entries).flatten = batch ++ entries ∧
      ∀ piece ∈ splitBatches maxSize batch size entries, piece ≠ [] := by
  induction entries generalizing batch size with
  | nil =>
    rw [splitBatches]
    split
    next empty => simp [isEmpty_iff.mp empty]
    next full => simpa using full
  | cons entry rest ih =>
    rw [splitBatches]
    split
    next full =>
      obtain ⟨flattened, nonempty⟩ := ih entry.size [entry]
      exact ⟨by rw [flatten_cons, flattened]; rfl, forall_mem_cons.mpr ⟨full.2, nonempty⟩⟩
    next =>
      obtain ⟨flattened, nonempty⟩ := ih (size + entry.size) (batch ++ [entry])
      exact ⟨by rw [flattened, append_assoc]; rfl, nonempty⟩

end CompactionExecutor

structure Holding (files : TableFiles) (table : SSTableMetadata) (entries : List Entry) :
    Prop where
  contents_eq : contents files table = entries.map Entry.persisted
  first : ∃ first, entries.head? = some first ∧ table.minKey = first.key
  last : ∃ last, entries.getLast? = some last ∧ table.maxKey = last.key

section

variable {files : TableFiles} {table other : SSTableMetadata} {entries others : List Entry}

section

variable (holding : Holding files table entries)

include holding

theorem Holding.written (ascending : Ascending entries) : Written files table := by
  obtain ⟨first, isFirst, minKey⟩ := holding.first
  obtain ⟨last, isLast, maxKey⟩ := holding.last
  refine ⟨?_, holding.contents_eq ▸ pairwise_map.mpr ascending, fun entry mem => ?_⟩
  · rw [holding.contents_eq]
    rintro empty
    rw [map_eq_nil_iff.mp empty] at isFirst
    cases isFirst
  · rw [holding.contents_eq] at mem
    obtain ⟨kept, inEntries, rfl⟩ := mem_map.mp mem
    obtain ⟨rest, rfl⟩ := head?_eq_some_iff.mp isFirst
    rw [minKey, maxKey]
    change first.key ≤ kept.key ∧ kept.key ≤ last.key
    exact ⟨ascending.first_le inEntries, ascending.le_last isLast inEntries⟩

/-- All keys of a table are in its entries, the ends of its range included. -/
theorem Holding.below_iff (ascending : Ascending entries) (bound : Bytes) :
    bound < table.minKey ↔ ∀ entry ∈ entries, bound < entry.key := by
  obtain ⟨first, isFirst, minKey⟩ := holding.first
  obtain ⟨rest, rfl⟩ := head?_eq_some_iff.mp isFirst
  rw [minKey]
  exact ⟨fun lower entry mem => lower.trans_le (ascending.first_le mem),
    fun lower => lower first (by simp)⟩

theorem Holding.maxKey_lt {bound : Bytes} (upper : ∀ entry ∈ entries, entry.key < bound) :
    table.maxKey < bound := by
  obtain ⟨last, isLast, maxKey⟩ := holding.last
  exact maxKey ▸ upper last (mem_of_getLast? isLast)

end

/-- The tables of a row of batches. -/
abbrev Holdings (files : TableFiles) : List SSTableMetadata → List (List Entry) → Prop :=
  List.Forall₂ (Holding files)

namespace Holdings

variable {tables : List SSTableMetadata} {batches : List (List Entry)}

variable (holdings : Holdings files tables batches)

include holdings

theorem contents_eq : tables.map (contents files) = batches.map (·.map Entry.persisted) := by
  induction holdings with
  | nil => rfl
  | cons first _ ih =>
    rw [map_cons, map_cons, first.contents_eq, ih]

theorem written (ascending : Ascending batches.flatten) :
    ∀ table ∈ tables, Written files table := by
  induction holdings with
  | nil => simp
  | cons first _ ih =>
    obtain ⟨firstAscending, restAscending, -⟩ := pairwise_append.mp ascending
    exact forall_mem_cons.mpr
      ⟨first.written firstAscending, ih restAscending⟩

theorem below_iff (ascending : Ascending batches.flatten) (bound : Bytes) :
    (∀ table ∈ tables, bound < table.minKey) ↔ ∀ entry ∈ batches.flatten, bound < entry.key := by
  induction holdings with
  | nil => simp
  | cons first _ ih =>
    obtain ⟨firstAscending, restAscending, -⟩ := pairwise_append.mp ascending
    rw [forall_mem_cons, flatten_cons, forall_mem_append,
      first.below_iff firstAscending, ih restAscending]

theorem maxKey_lt {bound : Bytes} (upper : ∀ entry ∈ batches.flatten, entry.key < bound) :
    ∀ table ∈ tables, table.maxKey < bound := by
  induction holdings with
  | nil => simp
  | cons first _ ih =>
    rw [flatten_cons, forall_mem_append] at upper
    exact forall_mem_cons.mpr ⟨first.maxKey_lt upper.1, ih upper.2⟩

/-- The tables are in the order of the batches. -/
theorem pairwise_below (ascending : Ascending batches.flatten) : tables.Pairwise Below := by
  induction holdings with
  | nil => exact List.Pairwise.nil
  | cons first rest ih =>
    obtain ⟨-, restAscending, across⟩ := pairwise_append.mp ascending
    refine pairwise_cons.mpr ⟨?_, ih restAscending⟩
    refine (below_iff rest restAscending _).mpr fun entry mem => first.maxKey_lt ?_
    exact fun earlier inFirst => across earlier inFirst entry mem

end Holdings

end

variable {files : TableFiles} {fileSize : List Entry → Nat} {table : SSTableMetadata}

theorem holding_describe {first : Entry} {rest : List Entry} {fileNumber level : Nat}
    (found : files.lookup fileNumber = some ((first :: rest).map Entry.persisted)) :
    Holding files (SSTable.describe fileSize first rest fileNumber level) (first :: rest) where
  contents_eq := by rw [contents, SSTable.describe, found]; rfl
  first := ⟨first, rfl, rfl⟩
  last := ⟨_, getLast?_cons, rfl⟩

theorem holding_create {entries : List Entry} {fileNumber level : Nat}
    (created : SSTable.create fileSize entries fileNumber level = .ok table)
    (found : files.lookup fileNumber = some (entries.map Entry.persisted)) :
    Holding files table entries := by
  cases entries with
  | nil => cases created
  | cons first rest =>
    cases created
    exact holding_describe found

/-- The tables are numbered on, hold the batches, and leave the files before them alone. -/
theorem CompactionExecutor.writeSstables_spec (fileSize : List Entry → Nat) (level : Nat)
    {batches : List (List Entry)} (nonempty : ∀ batch ∈ batches, batch ≠ []) (files : TableFiles)
    (next : Nat) :
    ∃ tables written, writeSstables fileSize level files next batches =
        .ok (tables, written, next + batches.length) ∧
      tables.map (·.fileNumber) = List.range' next batches.length ∧
      Holdings written tables batches ∧
      ∀ number, number < next → written.lookup number = files.lookup number := by
  induction batches generalizing files next with
  | nil => exact ⟨[], files, rfl, rfl, List.Forall₂.nil, fun _ _ => rfl⟩
  | cons batch rest ih =>
    obtain ⟨batchFull, restFull⟩ := forall_mem_cons.mp nonempty
    obtain ⟨first, others, rfl⟩ := exists_cons_of_ne_nil batchFull
    obtain ⟨tables, written, wrote, numbers, holding, untouched⟩ :=
      ih restFull
        (files.insert next ((first :: others).map Entry.persisted)) (next + 1)
    refine ⟨SSTable.describe fileSize first others next level :: tables, written, ?_, ?_, ?_, ?_⟩
    · simp only [writeSstables, SSTable.create, wrote, length_cons]
      congr 3
      omega
    · rw [map_cons, numbers]
      rfl
    · refine List.Forall₂.cons (holding_describe ?_) holding
      rw [untouched next (Nat.lt_succ_self next), AList.lookup_insert]
    · intro number earlier
      rw [untouched number (by omega), AList.lookup_insert_ne (by omega)]

/-- A new table in level 0 is the first one that a read asks. -/
theorem Stored.flushed {levels : List Level} {next : Nat} {memtable : MemTable}
    (stored : Stored levels files next) (number : table.fileNumber = next)
    (holding : Holding (files.insert next (memtable.data.map Entry.persisted)) table
      memtable.data) :
    Stored (levels.modify 0 (·.addSstable table))
        (files.insert next (memtable.data.map Entry.persisted)) (next + 1) ∧
      readOrder (levels.modify 0 (·.addSstable table)) = table :: readOrder levels ∧
      (levels.modify 0 (·.addSstable table)).tail = levels.tail := by
  obtain ⟨level0, deeper, rfl⟩ : ∃ level0 deeper, levels = level0 :: deeper := by
    cases levels with
    | nil => exact absurd stored.numbered (by decide)
    | cons level0 deeper => exact ⟨level0, deeper, rfl⟩
  have members : ∀ other, other ∈ ((level0.addSstable table) :: deeper).flatMap (·.sstables) ↔
      other = table ∨ other ∈ (level0 :: deeper).flatMap (·.sstables) := by
    simp only [Level.addSstable, flatMap_cons, mem_append, mem_singleton]
    tauto
  refine ⟨⟨stored.numbered, ?_, ?_, ?_, stored.apart⟩, ?_, rfl⟩
  · intro other mem
    rcases (members other).mp mem with rfl | old
    · exact holding.written memtable.ascending
    · refine (stored.written other old).of_contents_eq ?_
      have earlier := stored.issued other old
      rw [contents, AList.lookup_insert_ne (by omega), contents]
  · intro other mem
    rcases (members other).mp mem with rfl | old
    · omega
    · have earlier := stored.issued other old
      omega
  · have fresh : table.fileNumber ∉
        ((level0 :: deeper).flatMap (·.sstables)).map (·.fileNumber) := by
      rintro used
      obtain ⟨other, old, same⟩ := mem_map.mp used
      have earlier := stored.issued other old
      omega
    have perm : (((level0.addSstable table) :: deeper).flatMap (·.sstables)).Perm
        (table :: (level0 :: deeper).flatMap (·.sstables)) := by
      simp only [Level.addSstable, flatMap_cons, append_assoc]
      exact perm_middle
    exact ((perm.map _).nodup_iff).mpr (nodup_cons.mpr ⟨fresh, stored.distinct⟩)
  · simp [readOrder, Level.addSstable]

end Nanograph.Lsm
