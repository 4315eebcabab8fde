import Nanograph.Foundation.Machine
import Nanograph.Idx.Persistence

/-!
# B-tree and hash indexes

Both indexes keep their entries in the storage of an index and differ in the queries they
accept and in whether indexed values are unique. What the storage holds is seen as the list of
the entries, ordered by their texts: the indexed value followed by the primary key.
-/

namespace Nanograph.Idx

open List Foundation Kvt PersistentIndexStore IndexEntry

/-- What is known about an entry from its key: the indexed value followed by the primary
key. -/
def IndexEntry.text (entry : IndexEntry) : Bytes := entry.indexedValue ++ entry.primaryKey

/-- A query over indexed values. -/
structure IndexQuery where
  start : Bound Bytes
  last : Bound Bytes
  limit : Option Nat
  reverse : Bool

namespace IndexQuery

def exact (value : Bytes) : IndexQuery := ⟨.included value, .included value, none, false⟩

def all : IndexQuery := ⟨.unbounded, .unbounded, none, false⟩

/-- At most so many entries. -/
def withLimit (query : IndexQuery) (limit : Nat) : IndexQuery := { query with limit := some limit }

end IndexQuery

/-- How entries are written and read back. The version and the times in a serialized entry are
not read by an index. -/
abbrev EntryFormat := Format IndexEntry

/-- Bytes with a mark before each and another mark at the end. -/
def marked : Bytes → Bytes
  | [] => [0]
  | byte :: rest => 1 :: byte :: marked rest

/-- Marked bytes and what follows them. -/
def unmarked : Bytes → Bytes × Bytes
  | 1 :: byte :: rest => (byte :: (unmarked rest).1, (unmarked rest).2)
  | _ :: rest => ([], rest)
  | [] => ([], [])

theorem unmarked_marked (bytes rest : Bytes) : unmarked (marked bytes ++ rest) = (bytes, rest) := by
  induction bytes with
  | nil => rfl
  | cons byte bytes ih =>
    rw [marked, cons_append, cons_append, unmarked, ih]

/-- Entries written as marked bytes. -/
def EntryFormat.ofMarked : EntryFormat where
  serialize entry :=
    marked entry.indexedValue ++ (marked entry.primaryKey ++ match entry.includedColumns with
      | some columns => 1 :: (marked columns ++ [])
      | none => [])
  deserialize bytes :=
    let value := unmarked bytes
    let key := unmarked value.2
    .ok ⟨value.1, key.1, match key.2 with
      | _ :: columns => some (unmarked columns).1
      | [] => none⟩
  deserialize_serialize entry := by
    rcases entry with ⟨value, key, _ | columns⟩ <;> simp only [unmarked_marked]

/-- Bytes as they are printed in messages. -/
def debugBytes (bytes : Bytes) : String :=
  "[" ++ ", ".intercalate (bytes.map fun byte => toString byte.toNat) ++ "]"

variable {Cache : Type} [LruCache Cache]

namespace PersistentIndexStore

variable (format : EntryFormat) (storage : PersistentIndexStore Cache)

/-- Serialize an entry and write it. -/
def storeEntry (entry : IndexEntry) : PersistentIndexStore Cache :=
  storage.writeEntry entry.indexedValue entry.primaryKey (format.serialize entry)

/-- Scan a range and deserialize what is found. -/
def scanEntries (query : IndexQuery) : Except IndexError (List IndexEntry) :=
  (storage.scanRange query.start query.last query.limit query.reverse).mapM fun result =>
    format.deserialize result.2

/-- The entries that the storage holds. -/
def heldEntries : List IndexEntry :=
  storage.store.entries.filterMap fun stored => (format.deserialize stored.2).toOption

/-- Refuse an entry when the first one found has another primary key. -/
def refuseOther (message : String) (entry : IndexEntry) (existing : List IndexEntry) :
    Except IndexError Unit :=
  match existing.head? with
  | some existingEntry =>
    if existingEntry.primaryKey ≠ entry.primaryKey then
      .error (.uniqueViolation (message ++ debugBytes entry.indexedValue))
    else .ok ()
  | none => .ok ()

def deleteFirst (primaryKey : Bytes) (entries : List IndexEntry) : PersistentIndexStore Cache :=
  match entries.find? (·.primaryKey = primaryKey) with
  | some entry => storage.deleteEntry entry.indexedValue primaryKey
  | none => storage

def extractIndexedValue (rowData : Bytes) : Bytes := rowData

/-- Add the rows of a table, given by primary key and content; where values are unique, an
entry with the same key ends it. -/
def buildRows (unique : Bool) :
    PersistentIndexStore Cache → List (Bytes × Bytes) →
      Except IndexError Unit × PersistentIndexStore Cache
  | storage, [] => (.ok (), storage)
  | storage, (primaryKey, rowData) :: rest =>
    let indexedValue := extractIndexedValue rowData
    if unique && storage.hasEntry indexedValue primaryKey then
      (.error (.uniqueViolation
        ("Duplicate value during index build: " ++ debugBytes indexedValue)), storage)
    else
      buildRows unique (storage.storeEntry format ⟨indexedValue, primaryKey, none⟩) rest

end PersistentIndexStore

variable (Cache) in
/-- An index in the order of the indexed values. -/
structure BTreeIndex where
  storage : PersistentIndexStore Cache
  isUnique : Bool

namespace BTreeIndex

variable (format : EntryFormat) (index : BTreeIndex Cache)

variable (Cache) in
def new (config : PersistenceConfig) (store : Shard) (isUnique : Bool) : BTreeIndex Cache :=
  ⟨PersistentIndexStore.new Cache config store, isUnique⟩

/-- The entries a query asks for. -/
def query (query : IndexQuery) : Except IndexError (List IndexEntry) :=
  index.storage.scanEntries format query

def insert (entry : IndexEntry) : Except IndexError Unit × BTreeIndex Cache :=
  let checked := do
    if index.isUnique then
      let existing ← index.query format ((IndexQuery.exact entry.indexedValue).withLimit 1)
      refuseOther "Duplicate indexed value: " entry existing
  match checked with
  | .ok () => (.ok (), { index with storage := index.storage.storeEntry format entry })
  | .error error => (.error error, index)

def delete (primaryKey : Bytes) : Except IndexError Unit × BTreeIndex Cache :=
  match index.query format .all with
  | .ok entries => (.ok (), { index with storage := index.storage.deleteFirst primaryKey entries })
  | .error error => (.error error, index)

/-- Add the rows of a table. -/
def build (tableData : List (Bytes × Bytes)) : Except IndexError Unit × BTreeIndex Cache :=
  let built := buildRows format index.isUnique index.storage tableData
  (built.1, { index with storage := built.2 })

/-- The entries with indexed values in a range. -/
def rangeScan (start last : Bound Bytes) (limit : Option Nat) (reverse : Bool) :
    Except IndexError (List IndexEntry) :=
  index.query format ⟨start, last, limit, reverse⟩

/-- The end of the range of the values that start with some bytes: the last byte is raised, or a
zero added if it is the highest. -/
def endPrefix (bytes : Bytes) : Bytes :=
  match bytes.getLast? with
  | some last => if last < 255 then bytes.dropLast ++ [last + 1] else bytes ++ [0]
  | none => bytes

/-- The entries with indexed values that start with some bytes. -/
def prefixScan (bytes : Bytes) (limit : Option Nat) : Except IndexError (List IndexEntry) :=
  index.query format ⟨.included bytes, .excluded (endPrefix bytes), limit, false⟩

end BTreeIndex

variable (Cache) in
/-- An index for lookups of single values, which are unique. -/
structure HashIndex where
  storage : PersistentIndexStore Cache

namespace HashIndex

variable (format : EntryFormat) (index : HashIndex Cache)

variable (Cache) in
def new (config : PersistenceConfig) (store : Shard) : HashIndex Cache :=
  ⟨PersistentIndexStore.new Cache config store⟩

/-- The entries a query for one value asks for; other queries fail. -/
def query (query : IndexQuery) : Except IndexError (List IndexEntry) :=
  match query.start, query.last with
  | .included start, .included last =>
    if start = last then
      index.storage.scanEntries format ⟨.included start, .included last, query.limit, false⟩
    else .error (.queryFailed "Hash indexes only support exact match queries")
  | _, _ => .error (.queryFailed "Hash indexes only support exact match queries")

def insert (entry : IndexEntry) : Except IndexError Unit × HashIndex Cache :=
  let checked := do
    let existing ← index.query format ((IndexQuery.exact entry.indexedValue).withLimit 1)
    refuseOther "Value already exists in unique index: " entry existing
  match checked with
  | .ok () => (.ok (), ⟨index.storage.storeEntry format entry⟩)
  | .error error => (.error error, index)

def delete (primaryKey : Bytes) : Except IndexError Unit × HashIndex Cache :=
  match index.query format .all with
  | .ok entries => (.ok (), ⟨index.storage.deleteFirst primaryKey entries⟩)
  | .error error => (.error error, index)

/-- Add the rows of a table. -/
def build (tableData : List (Bytes × Bytes)) : Except IndexError Unit × HashIndex Cache :=
  let built := buildRows format true index.storage tableData
  (built.1, ⟨built.2⟩)

end HashIndex

/-- The texts of the keys that are scanned for two bounds. -/
def Scanned (config : PersistenceConfig) (start last : Bound Bytes) (text : Bytes) : Prop :=
  start.fromStart text = true ∧ scansTo config last text

instance (config : PersistenceConfig) (start last : Bound Bytes) (text : Bytes) :
    Decidable (Scanned config start last text) :=
  inferInstanceAs (Decidable (_ ∧ _))

/-- What the store holds for an entry. -/
def IndexEntry.stored (format : EntryFormat) (config : PersistenceConfig) (entry : IndexEntry) :
    Bytes × Bytes :=
  (buildKey config entry.indexedValue entry.primaryKey, format.serialize entry)

theorem IndexEntry.stored_fst {format : EntryFormat} {config : PersistenceConfig}
    (entry : IndexEntry) :
    (entry.stored format config).1 = indexBytes config.indexId ++ entry.text :=
  append_assoc _ _ _

/-- The storage holds some entries, which are listed in the order of their texts, and nothing
else. -/
structure Holds (format : EntryFormat) (storage : PersistentIndexStore Cache)
    (held : List IndexEntry) : Prop where
  entries_eq : storage.store.entries = held.map (stored format storage.config)

namespace Holds

variable {format : EntryFormat} {storage : PersistentIndexStore Cache} {held : List IndexEntry}

theorem stored_lt_iff {config : PersistenceConfig} (first second : IndexEntry) :
    (first.stored format config).1 < (second.stored format config).1 ↔
      first.text < second.text := by
  rw [stored_fst, stored_fst, append_lt_append_left]

theorem new (config : PersistenceConfig) :
    Holds format (PersistentIndexStore.new Cache config Shard.empty) [] :=
  ⟨rfl⟩

section

variable (holds : Holds format storage held)

include holds

theorem sorted : KeySorted text held := by
  have stored := storage.store.sorted
  rw [holds.entries_eq, KeySorted, pairwise_map] at stored
  exact stored.imp fun less => (stored_lt_iff _ _).mp less

/-- An entry that is written replaces the one with the same text. -/
theorem storeEntry (entry : IndexEntry) :
    Holds format (storage.storeEntry format entry) (insertItem text entry held) := by
  have inserted : (storage.storeEntry format entry).store.entries =
      insertItem Prod.fst (entry.stored format storage.config) storage.store.entries := rfl
  refine ⟨?_⟩
  rw [inserted, holds.entries_eq, insertItem_map stored_lt_iff]
  rfl

theorem deleteFirst (primaryKey : Bytes) :
    Holds format (storage.deleteFirst primaryKey held)
      (held.eraseP (·.primaryKey = primaryKey)) := by
  rw [PersistentIndexStore.deleteFirst]
  split
  next entry found =>
    obtain ⟨hasKey, front, back, rfl, others⟩ := find?_eq_some_iff_append.mp found
    have sameKey : entry.primaryKey = primaryKey := of_decide_eq_true hasKey
    have sorted := pairwise_append.mp holds.sorted
    have different : ∀ other ∈ front ++ back, other.text ≠ entry.text := by
      intro other mem
      rcases mem_append.mp mem with before | behind
      · exact (sorted.2.2 other before entry (by simp)).ne
      · exact ((pairwise_cons.mp sorted.2.1).1 other behind).ne'
    refine ⟨?_⟩
    rw [eraseP_append_right _ (by simpa using others), eraseP_cons, hasKey, cond_true]
    change storage.store.entries.filter _ = _
    rw [holds.entries_eq, filter_map, filter_append, filter_cons_of_neg]
    · rw [← filter_append, filter_eq_self.mpr]
      · rfl
      · intro other mem
        rw [Function.comp_apply, stored_fst, ← sameKey, buildKey, append_assoc]
        simpa [text] using different other mem
    · simp [stored, sameKey]
  next missing =>
    rw [eraseP_of_forall_not (by simpa using missing)]
    exact holds

theorem heldEntries_eq : storage.heldEntries format = held := by
  rw [heldEntries, holds.entries_eq, filterMap_map]
  refine (filterMap_congr fun entry _ => ?_).trans filterMap_some
  simp [stored, format.deserialize_serialize, Except.toOption]

/-- There is an entry with a key when one with the text is held. -/
theorem hasEntry_iff {indexedValue primaryKey : Bytes} :
    storage.hasEntry indexedValue primaryKey = true ↔
      ∃ entry ∈ held, entry.text = indexedValue ++ primaryKey := by
  rw [hasEntry_eq, Shard.get, Option.isSome_map, holds.entries_eq, itemAt, find?_isSome]
  simp only [mem_map, exists_exists_and_eq_and, decide_eq_true_eq, stored_fst,
    buildKey, append_assoc, append_cancel_left_eq]

end

/-- Entries that are read are deserialized to what was written. -/
theorem mapM_deserialize (config : PersistenceConfig) (entries : List IndexEntry) :
    (entries.map (stored format config)).mapM
      (fun result => format.deserialize result.2) = .ok entries := by
  induction entries with
  | nil => rfl
  | cons entry rest ih =>
    rw [map_cons, mapM_cons, ih]
    simp [stored, format.deserialize_serialize]
    rfl

section

variable (holds : Holds format storage held) (start last : Bound Bytes)

include holds start last

/-- The entries between two bounds are those with a text that is scanned. -/
theorem inRange_eq :
    inRange (startBound storage.config start) (endBound storage.config last)
        storage.store.entries =
      (held.filter fun entry => Scanned storage.config start last entry.text).map
        (stored format storage.config) := by
  rw [inRange, holds.entries_eq, filter_map]
  congr 2
  funext entry
  rw [Function.comp_apply, stored_fst, Bool.eq_iff_iff, Bool.and_eq_true,
    fromStart_startBound, upToEnd_endBound, decide_eq_true_iff]
  exact Iff.rfl

/-- A scan without limit finds the entries whose texts are scanned. -/
theorem scanEntries_all :
    storage.scanEntries format ⟨start, last, none, false⟩ =
      .ok (held.filter fun entry => Scanned storage.config start last entry.text) := by
  rw [scanEntries, scanRange, Shard.scan]
  simp only [upToLimit, holds.inRange_eq]
  exact mapM_deserialize _ _

/-- A scan with a limit finds the first of them. -/
theorem scanEntries_limit (count : Nat) :
    storage.scanEntries format ⟨start, last, some count, false⟩ =
      .ok ((held.filter fun entry => Scanned storage.config start last entry.text).take count) := by
  rw [scanEntries, scanRange, Shard.scan]
  simp only [upToLimit, holds.inRange_eq, Bool.false_eq_true, if_false, ← map_take]
  exact mapM_deserialize _ _

end

end Holds

end Nanograph.Idx
