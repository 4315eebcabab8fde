import Nanograph.Lsm.Map

/-!
# Tables that cannot be read

A read of the engine goes on to the next table when opening or reading a table fails,
as if the table did not have the key. The module says when what it returns is still
newer than what an unreadable table holds.
-/

namespace Nanograph.Lsm

open List Foundation

/-- Which table files cannot be opened or read, and with which text. -/
abbrev ReadFailures := Nat → Option String

namespace SSTable

def readEntry (fails : ReadFailures) (files : TableFiles) (fileNumber : Nat) (key : Bytes) :
    Except String (Option Entry) :=
  match fails fileNumber with
  | some message => .error message
  | none => .ok (get files fileNumber key)

end SSTable

namespace LSMTreeEngine

variable (fails : ReadFailures) (engine : LSMTreeEngine) (key : Bytes)

/-- The entry of a key in a table, if it can be read and is there. -/
def entryRead (table : SSTableMetadata) : Option Entry :=
  match SSTable.readEntry fails engine.files table.fileNumber key with
  | .ok (some entry) => some entry
  | _ => none

/-- The entry of a key in level 0, the newest table first. -/
def findReadable0 : Option Entry :=
  ((engine.levels.head?.map (·.sstables)).getD []).reverse.findSome? fun table =>
    if table.covers key then engine.entryRead fails key table else none

/-- The entry of a key in another level. -/
def findReadable (level : Level) : Option Entry :=
  (level.search key).bind (engine.entryRead fails key)

/-- Get a value by key while some tables cannot be read. -/
def getReadable : EngineM (Option Bytes) := do
  let engine ← MonadState.get
  match engine.memtable.get key with
  | some entry => pure entry.value
  | none =>
    match engine.immutableMemtable.bind (·.get key) with
    | some entry => pure entry.value
    | none =>
      lockLevels
      pure (((engine.findReadable0 fails key).or
        (engine.levels.tail.findSome? (engine.findReadable fails key))).bind (·.value))

/-- The tables that a read of a key looks into, in this order. -/
def consulted : List SSTableMetadata :=
  ((engine.levels.head?.map (·.sstables)).getD []).reverse.filter (·.covers key) ++
    engine.levels.tail.filterMap (·.search key)

/-- Where a read finds an entry. -/
inductive Source where
  | memtable
  | immutableMemtable
  | table (table : SSTableMetadata)
deriving DecidableEq

/-- The entry that a read of a key ends with, and its source. -/
def foundIn : Option (Source × Entry) :=
  ((engine.memtable.get key).map (Source.memtable, ·)).or
    (((engine.immutableMemtable.bind (·.get key)).map (Source.immutableMemtable, ·)).or
      ((engine.consulted key).findSome? fun table =>
        (engine.entryRead fails key table).map (Source.table table, ·)))

/-- A source is newer than a table: a memtable, or a table that a read asks before it. -/
def NewerThan (table : SSTableMetadata) : Source → Prop
  | .memtable | .immutableMemtable => True
  | .table other => (readOrder engine.levels).idxOf other < (readOrder engine.levels).idxOf table

instance (table : SSTableMetadata) : DecidablePred (engine.NewerThan table)
  | .memtable | .immutableMemtable => isTrue trivial
  | .table _ => inferInstanceAs (Decidable (_ < _))

/-- A table has an entry for a key, but cannot be read. -/
structure Lost (table : SSTableMetadata) : Prop where
  listed : table ∈ engine.levels.flatMap (·.sstables)
  unreadable : fails table.fileNumber ≠ none
  held : entryAt (contents engine.files table) key ≠ none

/-- A read that returns gives the value of a source that is newer than every table lost
for the key. -/
def ReadsNewer : Prop :=
  ∀ table, engine.Lost fails key table → ∀ value next,
    getReadable fails key engine = .ok value next →
      ∃ source entry, engine.foundIn fails key = some (source, entry) ∧
        engine.NewerThan table source ∧ value = entry.value

/-- The key of a lost table is in a memtable, or in a table that can be read and that a read
looks into before it gets to the lost one. -/
def Covered (table : SSTableMetadata) : Prop :=
  engine.findInMemtables key ≠ none ∨
    ∃ other ∈ engine.consulted key, engine.NewerThan table (.table other) ∧
      fails other.fileNumber = none ∧ entryAt (contents engine.files other) key ≠ none

instance (table : SSTableMetadata) : Decidable (engine.Covered fails key table) :=
  inferInstanceAs (Decidable (_ ∨ _))

variable {fails engine key}

theorem entryRead_eq_some {table : SSTableMetadata} {entry : Entry} :
    engine.entryRead fails key table = some entry ↔
      fails table.fileNumber = none ∧ entryAt (contents engine.files table) key = some entry := by
  rw [entryRead, SSTable.readEntry, ← SSTable.get_eq]
  cases fails table.fileNumber with
  | some message => simp
  | none => cases SSTable.get engine.files table.fileNumber key <;> simp

/-- When all tables can be read, a value is read as the engine reads it. -/
theorem getReadable_noFailures (key : Bytes) : getReadable (fun _ => none) key = get key := by
  have read : ∀ engine : LSMTreeEngine, engine.entryRead (fun _ => none) key =
      fun table => SSTable.get engine.files table.fileNumber key := by
    intro engine
    funext table
    rw [entryRead, SSTable.readEntry]
    cases SSTable.get engine.files table.fileNumber key <;> rfl
  have level : ∀ engine : LSMTreeEngine,
      engine.findReadable (fun _ => none) key = engine.findInLevel key := by
    intro engine
    funext level
    rw [findReadable, read, findInLevel]
  simp only [getReadable, findReadable0, read, level]
  rfl

/-- The tables are asked one after the other. -/
theorem findSome?_consulted :
    (engine.findReadable0 fails key).or
        (engine.levels.tail.findSome? (engine.findReadable fails key)) =
      (engine.consulted key).findSome? (engine.entryRead fails key) := by
  rw [consulted, findSome?_append, findReadable0, findSome?_filter, findSome?_filterMap]
  rfl

theorem map_foundIn :
    (engine.foundIn fails key).map Prod.snd = (engine.findInMemtables key).or
      ((engine.consulted key).findSome? (engine.entryRead fails key)) := by
  rw [foundIn, findInMemtables, Option.map_or, Option.map_or, Option.map_map, Option.map_map,
    map_findSome?, Option.or_assoc]
  simp [Function.comp_def]

/-- What a read returns: the value of the entry it ends with, or nothing. -/
theorem getReadable_eq :
    getReadable fails key engine =
      if engine.findInMemtables key = none ∧ engine.poisoned then .error .panicked engine
      else .ok ((engine.foundIn fails key).bind (·.2.value)) engine := by
  have value : (engine.foundIn fails key).bind (·.2.value) =
      ((engine.foundIn fails key).map Prod.snd).bind (·.value) := by
    rw [Option.bind_map]
    rfl
  rw [value, map_foundIn, getReadable, get_bind, findInMemtables]
  cases engine.memtable.get key with
  | some entry => rfl
  | none =>
    cases engine.immutableMemtable.bind (·.get key) with
    | some entry => rfl
    | none =>
      rw [← findSome?_consulted]
      cases poisoned : engine.poisoned with
      | true => simp only; rw [bind_error (run_lockLevels_poisoned poisoned)]; rfl
      | false => simp only; rw [bind_ok (run_lockLevels poisoned)]; rfl

theorem foundIn_of_memtables (fails : ReadFailures) (held : engine.findInMemtables key ≠ none) :
    ∃ source entry, engine.foundIn fails key = some (source, entry) ∧
      ∀ table, engine.NewerThan table source := by
  rw [findInMemtables] at held
  rw [foundIn]
  cases inMemtable : engine.memtable.get key with
  | some entry => exact ⟨.memtable, entry, rfl, fun _ => trivial⟩
  | none =>
    cases inImmutable : engine.immutableMemtable.bind (·.get key) with
    | some entry => exact ⟨.immutableMemtable, entry, rfl, fun _ => trivial⟩
    | none => simp [inMemtable, inImmutable] at held

theorem foundIn_of_missed (missed : engine.findInMemtables key = none) :
    engine.foundIn fails key = (engine.consulted key).findSome? fun table =>
      (engine.entryRead fails key table).map (Source.table table, ·) := by
  rw [findInMemtables, Option.or_eq_none_iff] at missed
  rw [foundIn, missed.1, missed.2]
  rfl

theorem search_sublist (level : Level) (key : Bytes) :
    (level.search key).toList.Sublist level.sstables := by
  rw [Level.search]
  split
  next index _ =>
    cases found : level.sstables[index]? with
    | none => simp
    | some table => simpa using mem_of_getElem? found
  next => simp

/-- Tables are looked into in the order in which a read asks them. -/
theorem consulted_sublist : (engine.consulted key).Sublist (readOrder engine.levels) := by
  rw [consulted]
  cases engine.levels with
  | nil => simp [readOrder]
  | cons level0 deeper =>
    refine filter_sublist.append ?_
    induction deeper with
    | nil => simp
    | cons level rest ih =>
      rw [tail_cons] at ih ⊢
      rw [flatMap_cons, filterMap_cons]
      have first := search_sublist level key
      cases found : level.search key with
      | none => exact ih.trans (sublist_append_right _ _)
      | some table =>
        rw [found] at first
        exact first.append ih

theorem readOrder_nodup {levels : List Level} (distinct : (levels.flatMap (·.sstables)).Nodup) :
    (readOrder levels).Nodup := by
  cases levels with
  | nil => exact nodup_nil
  | cons level0 deeper =>
    exact ((reverse_perm _).append_right _).nodup_iff.mpr distinct

/-- The first table that a read looks into with success is not newer than another such table. -/
theorem first_readable_le (distinct : (engine.levels.flatMap (·.sstables)).Nodup)
    {front back : List SSTableMetadata} {first other : SSTableMetadata}
    (looked : engine.consulted key = front ++ first :: back)
    (skipped : ∀ table ∈ front, engine.entryRead fails key table = none)
    (consults : other ∈ engine.consulted key) (readable : engine.entryRead fails key other ≠ none) :
    (readOrder engine.levels).idxOf first ≤ (readOrder engine.levels).idxOf other := by
  have inOrder : (engine.consulted key).Pairwise fun first second =>
      (readOrder engine.levels).idxOf first < (readOrder engine.levels).idxOf second := by
    refine List.Pairwise.sublist consulted_sublist (pairwise_iff_getElem.mpr ?_)
    intro i j iLt jLt less
    rwa [(readOrder_nodup distinct).idxOf_getElem, (readOrder_nodup distinct).idxOf_getElem]
  rw [looked] at consults inOrder
  rcases mem_append.mp consults with inFront | inRest
  · exact absurd (skipped other inFront) readable
  · rcases mem_cons.mp inRest with rfl | inBack
    · exact le_rfl
    · exact ((pairwise_cons.mp (pairwise_append.mp inOrder).2.1).1 other inBack).le

/-- What a read returns is newer than all that is lost for the key if and only if, for every
lost table, a memtable or a readable table that comes before it has the key. The exception is
an engine whose lock is poisoned: there a read that gets to the tables does not return. -/
theorem reads_newer_iff (distinct : (engine.levels.flatMap (·.sstables)).Nodup) :
    engine.ReadsNewer fails key ↔ engine.poisoned = true ∨
      ∀ table, engine.Lost fails key table → engine.Covered fails key table := by
  have fromMemtables (held : engine.findInMemtables key ≠ none) : engine.ReadsNewer fails key := by
    intro table lost value next ran
    obtain ⟨source, entry, found, newer⟩ := foundIn_of_memtables fails held
    rw [getReadable_eq, if_neg fun panics => held panics.1, found] at ran
    cases ran
    exact ⟨source, entry, found, newer table, rfl⟩
  by_cases held : engine.findInMemtables key = none
  · cases poisoned : engine.poisoned with
    | true =>
      refine iff_of_true (fun table lost value next ran => ?_) (.inl rfl)
      rw [getReadable_eq, if_pos ⟨held, poisoned⟩] at ran
      cases ran
    | false =>
      have ran : getReadable fails key engine =
          .ok ((engine.foundIn fails key).bind (·.2.value)) engine := by
        rw [getReadable_eq, if_neg (by simp [poisoned])]
      simp only [Bool.false_eq_true, false_or]
      refine forall_congr' fun table => imp_congr_right fun lost => ?_
      constructor
      · intro newest
        obtain ⟨source, entry, found, newer, -⟩ := newest _ _ ran
        rw [foundIn_of_missed held] at found
        obtain ⟨other, consults, isRead⟩ := exists_of_findSome?_eq_some found
        obtain ⟨read, reads, same⟩ := Option.map_eq_some_iff.mp isRead
        cases same
        have readable := entryRead_eq_some.mp reads
        exact .inr ⟨other, consults, newer, readable.1, by simp [readable.2]⟩
      · rintro (inMemory | ⟨other, consults, newer, readable, holds⟩) value next returned
        · exact absurd held inMemory
        · rw [ran] at returned
          cases returned
          obtain ⟨entry, isEntry⟩ := Option.ne_none_iff_exists'.mp holds
          have reads := Option.ne_none_iff_exists'.mpr
            ⟨entry, entryRead_eq_some.mpr ⟨readable, isEntry⟩⟩
          rw [foundIn_of_missed held]
          cases found : (engine.consulted key).findSome? fun table =>
              (engine.entryRead fails key table).map (Source.table table, ·) with
          | none =>
            have missed := findSome?_eq_none_iff.mp found other consults
            exact absurd (Option.map_eq_none_iff.mp missed) reads
          | some result =>
            obtain ⟨front, first, back, looked, isRead, skipped⟩ :=
              findSome?_eq_some_iff.mp found
            obtain ⟨entry, -, rfl⟩ := Option.map_eq_some_iff.mp isRead
            refine ⟨_, entry, rfl, lt_of_le_of_lt ?_ newer, rfl⟩
            exact first_readable_le distinct looked
              (fun table inFront => Option.map_eq_none_iff.mp (skipped table inFront))
              consults reads
  · exact iff_of_true (fromMemtables held) (.inr fun table _ => .inl held)

/-- Two tables of level 0, with an older and a newer value of a key. -/
def twoVersions : LSMTreeEngine :=
  call.final (fresh { memtableSize := 100, blockSize := 4, fileSize := List.length })
    [.put [1] [7], .flush, .put [1] [8], .flush]

/-- The file of one table is damaged. -/
def damaged (number : Nat) : ReadFailures :=
  fun fileNumber => if fileNumber = number then some "Block checksum mismatch" else none

/-- With the older table lost, the newer value is read. -/
theorem newer_read_of_older_lost :
    (∃ table, twoVersions.Lost (damaged 1) [1] table) ∧ twoVersions.ReadsNewer (damaged 1) [1] := by
  have covered : ∀ table ∈ twoVersions.levels.flatMap (·.sstables),
      damaged 1 table.fileNumber ≠ none → twoVersions.Covered (damaged 1) [1] table := by
    decide +kernel
  exact ⟨⟨⟨1, 0, [1], [1], 0, 0, 1, 1⟩, by decide +kernel, by decide +kernel, by decide +kernel⟩,
    (reads_newer_iff (by decide +kernel)).mpr
      (.inr fun table lost => covered table lost.listed lost.unreadable)⟩

/-- With the newer table lost, the older value is returned as if it were current. -/
theorem older_read_of_newer_lost :
    get [1] twoVersions = .ok (some [8]) twoVersions ∧
      getReadable (damaged 2) [1] twoVersions = .ok (some [7]) twoVersions ∧
      ¬twoVersions.ReadsNewer (damaged 2) [1] := by
  have ran : getReadable (damaged 2) [1] twoVersions = .ok (some [7]) twoVersions := by
    rfl
  refine ⟨rfl, ran, fun newest => ?_⟩
  obtain ⟨source, entry, isFound, newer, -⟩ :=
    newest ⟨2, 0, [1], [1], 0, 0, 1, 1⟩
      ⟨by decide +kernel, by decide +kernel, by decide +kernel⟩ _ _ ran
  cases isFound
  exact absurd newer (by decide +kernel)

end LSMTreeEngine

end Nanograph.Lsm
