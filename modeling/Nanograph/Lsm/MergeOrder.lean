import Nanograph.Lsm.Compacted

/-!
# Which entry of a key a merge emits

The heap of a merge compares sequence numbers, and of the entries of a key the one
with the lowest number comes out first and is the one that is kept. Every memtable
counts its entries from zero, so the numbers of two tables say nothing about their
ages either. The module says when the entry that is kept is nevertheless that of the
newest table.
-/

namespace Nanograph.Lsm

open List Foundation CompactionExecutor

variable {files : TableFiles} {task : CompactionTask}

/-- The entries of a task with the positions of their tables. -/
def heapEntries (files : TableFiles) (task : CompactionTask) : List MergeEntry :=
  (task.inputs.map (contents files)).zipIdx.flatMap fun (entries, position) =>
    entries.map (·, position)

/-- An entry has the lowest sequence number of all entries of its key, and stands in the
last table that has it with this number. -/
@[mk_iff]
structure LowestOfKey (files : TableFiles) (task : CompactionTask) (item : MergeEntry) : Prop where
  listed : item ∈ heapEntries files task
  lowest : ∀ other ∈ heapEntries files task, other.1.key = item.1.key →
    item.1.sequence < other.1.sequence ∨ (item.1.sequence = other.1.sequence ∧ other.2 ≤ item.2)

/-- A merge emits the newest entry of every key unless that is a deletion, nothing else,
and in strictly increasing order of the keys. -/
structure EmitsNewest (files : TableFiles) (task : CompactionTask) : Prop where
  ascending : Ascending (keptEntries files task)
  newest : ∀ key, entryAt (keptEntries files task) key =
    (newestEntry files task key).filter (·.value.isSome)

/-- The entry of a key with the lowest sequence number is the newest one, or both are
deletions. -/
def LowestIsNewest (files : TableFiles) (task : CompactionTask) : Prop :=
  ∀ item, LowestOfKey files task item → newestEntry files task item.1.key = some item.1 ∨
      (item.1.value = none ∧ ∀ newest ∈ newestEntry files task item.1.key, newest.value = none)

instance (item : MergeEntry) : Decidable (LowestOfKey files task item) :=
  decidable_of_iff _ (lowestOfKey_iff files task item).symm

instance : Decidable (LowestIsNewest files task) :=
  decidable_of_iff
    (∀ item ∈ heapEntries files task, LowestOfKey files task item →
      newestEntry files task item.1.key = some item.1 ∨
        (item.1.value = none ∧ ∀ newest ∈ newestEntry files task item.1.key, newest.value = none))
    ⟨fun holds item lowest => holds item lowest.listed lowest,
      fun holds item _ lowest => holds item lowest⟩

theorem poppedBefore_iff_of_key_eq {first second : MergeEntry} (same : second.1.key = first.1.key) :
    PoppedBefore first second ↔ first.1.sequence < second.1.sequence ∨
      (first.1.sequence = second.1.sequence ∧ second.2 ≤ first.2) := by
  simp only [PoppedBefore, MergeEntry.rank, same, Prod.Lex.toLex_le_toLex, lt_self_iff_false,
    true_and, false_or, OrderDual.toDual_le_toDual]

theorem mem_heapEntries {item : MergeEntry} :
    item ∈ heapEntries files task ↔
      ∃ table, task.inputs[item.2]? = some table ∧ item.1 ∈ contents files table := by
  simp only [heapEntries, mem_flatMap, mem_map, Prod.exists, mem_zipIdx_iff_getElem?,
    getElem?_map, Option.map_eq_some_iff]
  constructor
  · rintro ⟨_, position, ⟨table, found, rfl⟩, entry, mem, rfl⟩
    exact ⟨table, found, mem⟩
  · rintro ⟨table, found, mem⟩
    exact ⟨_, item.2, ⟨table, found, rfl⟩, item.1, mem, rfl⟩

section

variable (written : ∀ table ∈ task.inputs, Written files table)

include written

/-- The merged entries are those of the heap, in the order in which they come out. -/
theorem exists_merge :
    ∃ items : List MergeEntry, items.Perm (heapEntries files task) ∧
      items.Pairwise PoppedBefore ∧ items.map Prod.fst = mergedEntries files task := by
  have full : (task.inputs.map (contents files)).filter (fun entries => !entries.isEmpty) =
      task.inputs.map (contents files) := by
    rw [filter_eq_self, forall_mem_map]
    intro table mem
    simpa using (written table mem).nonempty
  refine ⟨mergeLists PoppedBefore ((task.inputs.map (contents files)).zipIdx.map
    fun (entries, idx) => entries.map (·, idx)), mergeLists_perm _, mergeLists_sorted ?_, ?_⟩
  · intro list mem
    obtain ⟨⟨entries, idx⟩, inIterators, rfl⟩ := mem_map.mp mem
    obtain ⟨table, isInput, rfl⟩ := mem_map.mp (fst_mem_of_mem_zipIdx inIterators)
    refine pairwise_map.mpr ((show (contents files table).Pairwise (·.key < ·.key) from
      (written table isInput).ascending).imp fun before => poppedBefore_of_key_lt before)
  · rw [mergedEntries, mergeSstables, full]

/-- The entry of a key that comes out of the heap first. -/
theorem lowestOfKey_of_merged {key : Bytes} {entry : Entry}
    (found : entryAt (mergedEntries files task) key = some entry) :
    ∃ position, LowestOfKey files task (entry, position) := by
  obtain ⟨items, perm, sorted, merged⟩ := exists_merge written
  rw [← merged, entryAt, itemAt, find?_map, Option.map_eq_some_iff] at found
  obtain ⟨item, isFirst, rfl⟩ := found
  have same : item.1.key = key := by simpa using find?_some isFirst
  refine ⟨item.2, perm.mem_iff.mp (mem_of_find?_eq_some isFirst), fun other mem hit => ?_⟩
  rw [← poppedBefore_iff_of_key_eq hit]
  rcases find?_first sorted isFirst (perm.mem_iff.mpr mem)
    (by simpa using hit.trans same) with rfl | before
  · exact Std.Total.total item item |>.elim id id
  · exact before

theorem LowestOfKey.unique {item other : MergeEntry} (lowest : LowestOfKey files task item)
    (again : LowestOfKey files task other) (same : other.1.key = item.1.key) :
    item.1 = other.1 := by
  have positions : item.2 = other.2 := by
    have first := lowest.lowest other again.listed same
    have second := again.lowest item lowest.listed same.symm
    omega
  obtain ⟨table, found, mem⟩ := mem_heapEntries.mp lowest.listed
  obtain ⟨_, foundAgain, otherMember⟩ := mem_heapEntries.mp again.listed
  obtain rfl := Option.some.inj (found.symm.trans (positions ▸ foundAgain))
  have ascending := (written table (mem_of_getElem? found)).ascending
  have one := ascending.itemAt_eq mem
  rw [← same, ascending.itemAt_eq otherMember, Option.some.injEq] at one
  exact one.symm

theorem entryAt_mergedEntries_of_lowest {item : MergeEntry} (lowest : LowestOfKey files task item) :
    entryAt (mergedEntries files task) item.1.key = some item.1 := by
  obtain ⟨table, found, mem⟩ := mem_heapEntries.mp lowest.listed
  have merged : item.1 ∈ mergedEntries files task :=
    mem_mergedEntries.mpr ⟨table, mem_of_getElem? found, mem⟩
  cases isFirst : entryAt (mergedEntries files task) item.1.key with
  | none => exact absurd rfl (itemAt_eq_none.mp isFirst item.1 merged)
  | some entry =>
    obtain ⟨position, again⟩ := lowestOfKey_of_merged written isFirst
    rw [lowest.unique written again (mem_of_itemAt isFirst).2]

/-- A merge emits the newest entry of every key if and only if the newest entry is always
the one with the lowest sequence number. -/
theorem emits_newest_iff : EmitsNewest files task ↔ LowestIsNewest files task := by
  constructor
  · intro emits item lowest
    have kept := emits.newest item.1.key
    rw [entryAt_keptEntries written, entryAt_mergedEntries_of_lowest written lowest] at kept
    cases live : item.1.value with
    | some value =>
      rw [Option.filter_some, if_pos (by simp [live])] at kept
      exact .inl (Option.filter_eq_some_iff.mp kept.symm).1
    | none =>
      rw [Option.filter_some, if_neg (by simp [live])] at kept
      refine .inr ⟨rfl, fun newest isNewest => ?_⟩
      simpa using Option.filter_eq_none_iff.mp kept.symm newest isNewest
  · intro lowestIsNewest
    refine ⟨keptEntries_ascending written, fun key => ?_⟩
    rw [entryAt_keptEntries written]
    cases isFirst : entryAt (mergedEntries files task) key with
    | none => rw [newestEntry_eq_none_iff.mpr isFirst]
    | some entry =>
      obtain rfl := (mem_of_itemAt isFirst).2
      obtain ⟨position, lowest⟩ := lowestOfKey_of_merged written isFirst
      rcases lowestIsNewest _ lowest with newest | ⟨deleted, newestDeleted⟩
      · rw [newest]
      · rw [Option.filter_some, if_neg (by simpa using deleted), eq_comm, Option.filter_eq_none_iff]
        intro newest isNewest
        simpa using newestDeleted newest isNewest

end

/-- A task of two tables of level 0, flushed one after the other. -/
def flushedTask (older newer : List Entry) : CompactionTask where
  sourceLevel := 0
  targetLevel := 1
  sourceSstables := [older, newer].zipIdx.filterMap fun (entries, position) =>
    (SSTable.create List.length entries position 0).toOption
  targetSstables := []

def flushedFiles (older newer : List Entry) : TableFiles :=
  (AList.singleton 0 older).insert 1 newer

/-- The newer table overwrites a key that the older one has with a higher number. -/
theorem newest_emitted :
    let older : List Entry := [⟨[1], some [7], 1, none⟩, ⟨[2], some [9], 0, none⟩]
    let newer : List Entry := [⟨[1], some [8], 0, none⟩]
    EmitsNewest (flushedFiles older newer) (flushedTask older newer) := by
  intro older newer
  refine (emits_newest_iff ?_).mpr (by decide +kernel)
  have tables : (flushedTask older newer).inputs =
      [SSTable.describe List.length ⟨[1], some [7], 1, none⟩ [⟨[2], some [9], 0, none⟩] 0 0,
        SSTable.describe List.length ⟨[1], some [8], 0, none⟩ [] 1 0] := rfl
  rw [tables, forall_mem_cons, forall_mem_singleton]
  exact ⟨⟨by decide, show List.Pairwise _ _ by decide, by decide⟩,
    ⟨by decide, show List.Pairwise _ _ by decide, by decide⟩⟩

/-- The newer table has its value of the key under a higher number, and the older value
is emitted. -/
theorem older_emitted :
    let older : List Entry := [⟨[1], some [7], 0, none⟩]
    let newer : List Entry := [⟨[1], some [8], 1, none⟩, ⟨[2], some [0], 0, none⟩]
    keptEntries (flushedFiles older newer) (flushedTask older newer) =
        [⟨[1], some [7], 0, none⟩, ⟨[2], some [0], 0, none⟩] ∧
      ¬EmitsNewest (flushedFiles older newer) (flushedTask older newer) := by
  refine ⟨by decide +kernel, fun emits => ?_⟩
  exact absurd (emits.newest [1]) (by decide +kernel)

end Nanograph.Lsm
