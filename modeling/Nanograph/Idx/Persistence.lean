import Nanograph.Core.Object
import Nanograph.Kvt.Prefixes

/-!
# Persistent storage of an index

The entries of an index are kept in a shard of a key-value store. The key of an entry is the
number of the index, the indexed value and the primary key, one behind the other, and a scan
over indexed values is a scan over such keys. A cache of recent entries stands in front of the
shard; it never holds anything but what the shard holds.

The shard returns what was written to it. The records an index adds to its write-ahead log are
not read by it and are left out.
-/

namespace Nanograph.Idx

open List Nanograph.Core Foundation Kvt

/-- Identifier of an index. -/
structure IndexId where
  object : ObjectId
deriving DecidableEq

structure IndexEntry where
  indexedValue : Bytes
  primaryKey : Bytes
  includedColumns : Option Bytes
deriving DecidableEq

/-- The errors of an index that the modelled calls return. -/
inductive IndexError where
  | uniqueViolation (message : String)
  | queryFailed (message : String)
  | serialization (message : String)
  | storage (message : String)
deriving DecidableEq

/-- How values of a type are written to the store and read back. -/
structure Format (α : Type) where
  serialize : α → Bytes
  deserialize : Bytes → Except IndexError α
  deserialize_serialize : ∀ value, deserialize (serialize value) = .ok value

/-- The settings of the storage of an index. -/
structure PersistenceConfig where
  indexId : IndexId
  cacheSize : Nat

/-- What is relied on of a cache of the `lru` crate. It is told by the entries the cache holds;
which of them are evicted, and when, is left to the cache. -/
class LruCache (Cache : Type) where
  new (capacity : Nat) : Cache
  put (cache : Cache) (key value : Bytes) : Cache
  /-- Look a key up, which can change what is evicted next. -/
  get (cache : Cache) (key : Bytes) : Option Bytes × Cache
  contains (cache : Cache) (key : Bytes) : Bool
  pop (cache : Cache) (key : Bytes) : Cache
  clear (cache : Cache) : Cache
  entries (cache : Cache) : List (Bytes × Bytes)
  entries_new (capacity : Nat) : entries (new capacity) = []
  mem_put {cache : Cache} {key value : Bytes} {entry : Bytes × Bytes} :
    entry ∈ entries (put cache key value) →
      entry = (key, value) ∨ entry ∈ entries cache ∧ entry.1 ≠ key
  mem_of_get {cache : Cache} {key value : Bytes} :
    (get cache key).1 = some value → (key, value) ∈ entries cache
  mem_get {cache : Cache} {key : Bytes} {entry : Bytes × Bytes} :
    entry ∈ entries (get cache key).2 → entry ∈ entries cache
  mem_of_contains {cache : Cache} {key : Bytes} :
    contains cache key = true → ∃ value, (key, value) ∈ entries cache
  mem_pop {cache : Cache} {key : Bytes} {entry : Bytes × Bytes} :
    entry ∈ entries (pop cache key) → entry ∈ entries cache ∧ entry.1 ≠ key
  entries_clear (cache : Cache) : entries (clear cache) = []

/-- A cache that drops what was used least recently; the entry used last stands first. -/
structure RecentEntries where
  capacity : Nat
  entries : List (Bytes × Bytes)

instance RecentEntries.lruCache : LruCache RecentEntries where
  new capacity := ⟨capacity, []⟩
  put cache key value :=
    ⟨cache.capacity, ((key, value) :: cache.entries.filter (·.1 ≠ key)).take cache.capacity⟩
  get cache key :=
    match itemAt Prod.fst cache.entries key with
    | some entry => (some entry.2, ⟨cache.capacity, entry :: cache.entries.filter (·.1 ≠ key)⟩)
    | none => (none, cache)
  contains cache key := (itemAt Prod.fst cache.entries key).isSome
  pop cache key := ⟨cache.capacity, cache.entries.filter (·.1 ≠ key)⟩
  clear cache := ⟨cache.capacity, []⟩
  entries := RecentEntries.entries
  entries_new _ := rfl
  mem_put mem := by simpa using mem_of_mem_take mem
  mem_of_get {cache key value} found := by
    split at found
    next entry hit =>
      obtain ⟨mem, rfl⟩ := mem_of_itemAt hit
      cases found
      exact mem
    next => cases found
  mem_get {cache key entry} mem := by
    split at mem
    next first hit =>
      rcases mem_cons.mp mem with rfl | old
      · exact (mem_of_itemAt hit).1
      · exact mem_of_mem_filter old
    next => exact mem
  mem_of_contains {cache key} has := by
    obtain ⟨entry, hit⟩ := Option.isSome_iff_exists.mp has
    obtain ⟨mem, rfl⟩ := mem_of_itemAt hit
    exact ⟨entry.2, mem⟩
  mem_pop mem := by simpa using mem
  entries_clear _ := rfl

variable {Cache : Type} [LruCache Cache]

variable (Cache) in
/-- The storage of an index: its shard and a cache that agrees with it. -/
structure PersistentIndexStore where
  config : PersistenceConfig
  store : Shard
  cache : Cache
  coherent : ∀ entry ∈ LruCache.entries cache, store.get entry.1 = some entry.2

namespace PersistentIndexStore

variable (Cache) in
/-- The storage of a new index over a shard. -/
def new (config : PersistenceConfig) (store : Shard) : PersistentIndexStore Cache where
  config := config
  store := store
  cache := LruCache.new (max config.cacheSize 1)
  coherent := by simp [LruCache.entries_new]

section

variable (config : PersistenceConfig)

/-- The bytes every key of an index starts with. -/
def indexBytes (indexId : IndexId) : Bytes := beBytes 4 indexId.object.raw.toNat

def buildKey (indexedValue primaryKey : Bytes) : Bytes :=
  indexBytes config.indexId ++ indexedValue ++ primaryKey

/-- What the keys of an indexed value start with. -/
def buildPrefix (indexedValue : Bytes) : Bytes :=
  indexBytes config.indexId ++ indexedValue

/-- The start of a range of indexed values as a bound for keys. -/
def startBound : Bound Bytes → Bound Bytes
  | .included value => .included (buildPrefix config value)
  | .excluded value => .excluded (buildPrefix config value)
  | .unbounded => .included (indexBytes config.indexId)

/-- The end of a range of indexed values as a bound for keys. The number behind the last one is
the first one. -/
def endBound : Bound Bytes → Bound Bytes
  | .included value => .included (buildPrefix config value ++ [0xFF])
  | .excluded value => .excluded (buildPrefix config value)
  | .unbounded => .excluded (indexBytes ⟨⟨config.indexId.object.raw + 1⟩⟩)

end

variable (storage : PersistentIndexStore Cache) (indexedValue primaryKey value : Bytes)

/-- Write an entry to the shard and the cache. -/
def writeEntry : PersistentIndexStore Cache where
  config := storage.config
  store := storage.store.put (buildKey storage.config indexedValue primaryKey) value
  cache := LruCache.put storage.cache (buildKey storage.config indexedValue primaryKey) value
  coherent := by
    intro entry mem
    rw [Shard.get_put]
    rcases LruCache.mem_put mem with rfl | ⟨old, differs⟩
    · rw [if_pos rfl]
    · rw [if_neg differs.symm, storage.coherent entry old]

/-- Look a key up in the cache. -/
def lookUp (key : Bytes) : Option Bytes × PersistentIndexStore Cache :=
  ((LruCache.get storage.cache key).1, { storage with
    cache := (LruCache.get storage.cache key).2
    coherent := fun entry mem => storage.coherent entry (LruCache.mem_get mem) })

/-- Read an entry, from the cache if it is there. -/
def readEntry : Option Bytes × PersistentIndexStore Cache :=
  let key := buildKey storage.config indexedValue primaryKey
  let looked := storage.lookUp key
  match looked.1 with
  | some value => (some value, looked.2)
  | none =>
    match stored : storage.store.get key with
    | some value => (some value, { looked.2 with
        cache := LruCache.put looked.2.cache key value
        coherent := by
          intro other mem
          rcases LruCache.mem_put mem with rfl | old
          · exact stored
          · exact looked.2.coherent other old.1 })
    | none => (none, looked.2)

/-- Remove an entry from the cache and the shard. -/
def deleteEntry : PersistentIndexStore Cache where
  config := storage.config
  store := storage.store.delete (buildKey storage.config indexedValue primaryKey)
  cache := LruCache.pop storage.cache (buildKey storage.config indexedValue primaryKey)
  coherent := by
    intro entry mem
    obtain ⟨old, differs⟩ := LruCache.mem_pop mem
    rw [Shard.get_delete, if_neg differs.symm, storage.coherent entry old]

/-- Whether there is an entry, in the cache or in the shard. -/
def hasEntry : Bool :=
  let key := buildKey storage.config indexedValue primaryKey
  LruCache.contains storage.cache key || (storage.store.get key).isSome

/-- The entries with indexed values in a range. -/
def scanRange (start last : Bound Bytes) (limit : Option Nat) (reverse : Bool) :
    List (Bytes × Bytes) :=
  storage.store.scan
    ⟨startBound storage.config start, endBound storage.config last, limit, reverse⟩

variable {storage indexedValue primaryKey value}

/-- An entry is read as the shard holds it. -/
@[simp] theorem readEntry_fst :
    (storage.readEntry indexedValue primaryKey).1 =
      storage.store.get (buildKey storage.config indexedValue primaryKey) := by
  simp only [readEntry]
  split
  next value cached => exact (storage.coherent _ (LruCache.mem_of_get cached)).symm
  next =>
    split
    next value stored => exact stored.symm
    next missing => exact missing.symm

@[simp] theorem readEntry_store :
    (storage.readEntry indexedValue primaryKey).2.store = storage.store := by
  simp only [readEntry]
  split
  · rfl
  · split <;> rfl

@[simp] theorem readEntry_config :
    (storage.readEntry indexedValue primaryKey).2.config = storage.config := by
  simp only [readEntry]
  split
  · rfl
  · split <;> rfl

/-- An entry is there when the shard holds it. -/
@[simp] theorem hasEntry_eq :
    storage.hasEntry indexedValue primaryKey =
      (storage.store.get (buildKey storage.config indexedValue primaryKey)).isSome := by
  rw [hasEntry]
  by_cases cached :
      LruCache.contains storage.cache (buildKey storage.config indexedValue primaryKey) = true
  · obtain ⟨value, mem⟩ := LruCache.mem_of_contains cached
    rw [cached, storage.coherent _ mem]
    rfl
  · rw [Bool.not_eq_true] at cached
    rw [cached, Bool.false_or]

section

variable {config : PersistenceConfig} {start last : Bound Bytes} {text : Bytes}

/-- The keys a start bound admits, told by what follows the number of the index. -/
theorem fromStart_startBound :
    (startBound config start).fromStart (indexBytes config.indexId ++ text) =
      start.fromStart text := by
  cases start with
  | included value => simp [startBound, Bound.fromStart, buildPrefix]
  | excluded value => simp [startBound, Bound.fromStart, buildPrefix]
  | unbounded =>
    have atLeast : indexBytes config.indexId ++ [] ≤ indexBytes config.indexId ++ text := by
      rw [append_le_append_left]
      exact nil_le text
    simpa [startBound, Bound.fromStart] using atLeast

/-- What follows the number of the index in the keys an end bound admits. -/
def scansTo (config : PersistenceConfig) (last : Bound Bytes) (text : Bytes) : Prop :=
  match last with
  | .included value => text ≤ value ++ [0xFF]
  | .excluded value => text < value
  | .unbounded => config.indexId.object.raw ≠ 0xFFFFFFFF

instance (config : PersistenceConfig) (last : Bound Bytes) (text : Bytes) :
    Decidable (scansTo config last text) :=
  match last with
  | .included value => inferInstanceAs (Decidable (text ≤ value ++ [0xFF]))
  | .excluded value => inferInstanceAs (Decidable (text < value))
  | .unbounded => inferInstanceAs (Decidable (config.indexId.object.raw ≠ 0xFFFFFFFF))

theorem indexBytes_lt_iff {raw next : UInt32} :
    indexBytes ⟨⟨raw⟩⟩ ++ text < indexBytes ⟨⟨next⟩⟩ ↔ raw < next := by
  have numbers : indexBytes ⟨⟨raw⟩⟩ < indexBytes ⟨⟨next⟩⟩ ↔ raw < next := by
    rw [lt_iff_ofBeBytes_lt (by simp [indexBytes]), indexBytes, indexBytes, ofBeBytes_toNat32,
      ofBeBytes_toNat32, UInt32.lt_iff_toNat_lt]
  have parts : indexBytes ⟨⟨raw⟩⟩ ++ text < indexBytes ⟨⟨next⟩⟩ ++ [] ↔ _ :=
    append_lt_append_iff (by simp [indexBytes])
  rw [append_nil] at parts
  rw [parts, numbers]
  simp

theorem upToEnd_endBound :
    (endBound config last).upToEnd (indexBytes config.indexId ++ text) = true ↔
      scansTo config last text := by
  cases last with
  | included value => simp [endBound, Bound.upToEnd, buildPrefix, scansTo]
  | excluded value => simp [endBound, Bound.upToEnd, buildPrefix, scansTo]
  | unbounded =>
    have next : config.indexId.object.raw < config.indexId.object.raw + 1 ↔
        config.indexId.object.raw ≠ 0xFFFFFFFF := by
      rw [UInt32.lt_iff_toNat_lt, UInt32.toNat_add, Ne, ← UInt32.toNat_inj]
      have inBounds := config.indexId.object.raw.toNat_lt
      simp
      omega
    simp only [endBound, Bound.upToEnd, scansTo, decide_eq_true_eq]
    exact indexBytes_lt_iff.trans next

end

end PersistentIndexStore

end Nanograph.Idx
