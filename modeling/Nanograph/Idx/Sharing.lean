import Nanograph.Foundation.Machine
import Nanograph.Idx.Persistence

/-!
# Storage that fails and is shared

Each call on the storage of an index may find the write-ahead log or the store failing. The cache
then still agrees with the store, so that every answer is the store's. Several indexes can share
a shard: their keys start with their numbers, and no call on one changes an answer of another.
-/

namespace Nanograph.Idx

open List Foundation Kvt

/-- Calls on the storage of an index. -/
inductive StorageCall where
  | writeEntry (indexedValue primaryKey value : Bytes)
  | readEntry (indexedValue primaryKey : Bytes)
  | deleteEntry (indexedValue primaryKey : Bytes)
  | hasEntry (indexedValue primaryKey : Bytes)
  | clearCache

/-- The messages of what fails during a call; nothing fails with an effect. -/
structure Faults where
  wal : Option String
  store : Option String
deriving DecidableEq

/-- Nothing fails. -/
def Faults.none : Faults := ⟨.none, .none⟩

inductive StorageAnswer where
  | done
  | found (value : Option Bytes)
  | deleted (existed : Bool)
  | has (isThere : Bool)

namespace PersistentIndexStore

variable {Cache : Type} [LruCache Cache]

/-- Drop a key from the cache. -/
def uncache (storage : PersistentIndexStore Cache) (key : Bytes) : PersistentIndexStore Cache :=
  { storage with
    cache := LruCache.pop storage.cache key
    coherent := fun entry mem => storage.coherent entry (LruCache.mem_pop mem).1 }

def clearCache (storage : PersistentIndexStore Cache) : PersistentIndexStore Cache :=
  { storage with
    cache := LruCache.clear storage.cache
    coherent := by simp [LruCache.entries_clear] }

/-- A call while something may fail. Writes change nothing before both the log and the store have
succeeded, a deletion drops the key from the cache first, and reads that hit the cache do not ask
the store. -/
def step :
    Machine (PersistentIndexStore Cache) (StorageCall × Faults) (Except IndexError StorageAnswer)
  | storage, (.writeEntry indexedValue primaryKey value, faults) =>
    match faults.wal.or faults.store with
    | some message => (.error (.storage message), storage)
    | none => (.ok .done, storage.writeEntry indexedValue primaryKey value)
  | storage, (.readEntry indexedValue primaryKey, faults) =>
    let looked := storage.lookUp (buildKey storage.config indexedValue primaryKey)
    match looked.1, faults.store with
    | none, some message => (.error (.storage message), looked.2)
    | _, _ => (storage.readEntry indexedValue primaryKey).map (.ok ∘ .found) id
  | storage, (.deleteEntry indexedValue primaryKey, faults) =>
    let key := buildKey storage.config indexedValue primaryKey
    match faults.wal, faults.store with
    | some message, _ => (.error (.storage message), storage)
    | none, some message => (.error (.storage message), storage.uncache key)
    | none, none =>
      (.ok (.deleted (storage.store.get key).isSome), storage.deleteEntry indexedValue primaryKey)
  | storage, (.hasEntry indexedValue primaryKey, faults) =>
    let key := buildKey storage.config indexedValue primaryKey
    match LruCache.contains storage.cache key, faults.store with
    | false, some message => (.error (.storage message), storage)
    | _, _ => (.ok (.has (storage.hasEntry indexedValue primaryKey)), storage)
  | storage, (.clearCache, _) => (.ok .done, storage.clearCache)

/-- What a call that reads reports is what the store holds behind it. -/
def Reports (storage : PersistentIndexStore Cache) (input : StorageCall × Faults) : Prop :=
  let after := step storage input
  match input.1 with
  | .readEntry indexedValue primaryKey => ∀ value, after.1 = .ok (.found value) →
      value = after.2.store.get (buildKey storage.config indexedValue primaryKey)
  | .hasEntry indexedValue primaryKey => ∀ isThere, after.1 = .ok (.has isThere) →
      isThere = (after.2.store.get (buildKey storage.config indexedValue primaryKey)).isSome
  | _ => True

theorem reports (storage : PersistentIndexStore Cache) (input : StorageCall × Faults) :
    storage.Reports input := by
  obtain ⟨call, faults⟩ := input
  cases call with
  | readEntry indexedValue primaryKey =>
    intro value
    rw [step]
    split
    next => simp
    next =>
      intro answered
      rw [← show (storage.readEntry indexedValue primaryKey).1 = value from
        StorageAnswer.found.inj (Except.ok.inj answered)]
      simp
  | hasEntry indexedValue primaryKey =>
    intro isThere
    rw [step]
    split
    next => simp
    next =>
      intro answered
      cases answered
      simp
  | _ => trivial

/-- In every sequence of calls, for every size of the cache and whatever fails, each answer is
what the store holds. -/
theorem reports_along (config : PersistenceConfig) (shard : Shard)
    (inputs : List (StorageCall × Faults)) : step.Along Reports (.new Cache config shard) inputs :=
  Machine.along_of_forall reports

section

/-- The entries in the cache. -/
abbrev cached (storage : PersistentIndexStore Cache) : List (Bytes × Bytes) :=
  LruCache.entries storage.cache

/-- Only keys of the index are in the cache. -/
def CachesOwn (storage : PersistentIndexStore Cache) : Prop :=
  ∀ entry ∈ storage.cached, indexBytes storage.config.indexId <+: entry.1

variable {storage : PersistentIndexStore Cache} {first second : IndexId}
  {config : PersistenceConfig} {text other : Bytes}

theorem isPrefix_buildKey (indexedValue primaryKey : Bytes) :
    indexBytes config.indexId <+: buildKey config indexedValue primaryKey :=
  ⟨indexedValue ++ primaryKey, (append_assoc _ _ _).symm⟩

theorem mem_cache_readEntry {indexedValue primaryKey : Bytes} {entry : Bytes × Bytes}
    (mem : entry ∈ (storage.readEntry indexedValue primaryKey).2.cached) :
    entry ∈ storage.cached ∨ entry.1 = buildKey storage.config indexedValue primaryKey := by
  simp only [readEntry] at mem
  split at mem
  next => exact .inl (LruCache.mem_get mem)
  next =>
    split at mem
    · rcases LruCache.mem_put mem with rfl | old
      · exact .inr rfl
      · exact .inl (LruCache.mem_get old.1)
    · exact .inl (LruCache.mem_get mem)

/-- A call puts only keys of the index into the cache and changes the store only there. -/
theorem step_own (storage : PersistentIndexStore Cache) (input : StorageCall × Faults) :
    (storage.step input).2.config = storage.config ∧
      (∀ entry ∈ (storage.step input).2.cached,
        entry ∈ storage.cached ∨ indexBytes storage.config.indexId <+: entry.1) ∧
      ∀ key, ¬indexBytes storage.config.indexId <+: key →
        (storage.step input).2.store.get key = storage.store.get key := by
  obtain ⟨call, faults⟩ := input
  cases call with
  | writeEntry indexedValue primaryKey value =>
    rw [step]
    split
    next => exact ⟨rfl, fun entry => .inl, fun _ _ => rfl⟩
    next =>
      refine ⟨rfl, fun entry mem => ?_, fun key foreign => ?_⟩
      · exact (LruCache.mem_put mem).elim
          (fun new => .inr (new ▸ isPrefix_buildKey indexedValue primaryKey)) fun old => .inl old.1
      · rw [writeEntry, Shard.get_put, if_neg]
        rintro rfl
        exact foreign (isPrefix_buildKey indexedValue primaryKey)
  | readEntry indexedValue primaryKey =>
    rw [step]
    split
    next => exact ⟨rfl, fun entry mem => .inl (LruCache.mem_get mem), fun _ _ => rfl⟩
    next =>
      refine ⟨readEntry_config, fun entry mem => ?_, fun key _ => ?_⟩
      · refine (mem_cache_readEntry mem).imp_right fun new => ?_
        rw [new]
        exact isPrefix_buildKey indexedValue primaryKey
      · simp
  | deleteEntry indexedValue primaryKey =>
    rw [step]
    split
    next => exact ⟨rfl, fun entry => .inl, fun _ _ => rfl⟩
    next => exact ⟨rfl, fun entry mem => .inl (LruCache.mem_pop mem).1, fun _ _ => rfl⟩
    next =>
      refine ⟨rfl, fun entry mem => .inl (LruCache.mem_pop mem).1, fun key foreign => ?_⟩
      rw [deleteEntry, Shard.get_delete, if_neg]
      rintro rfl
      exact foreign (isPrefix_buildKey indexedValue primaryKey)
  | hasEntry indexedValue primaryKey =>
    rw [step]
    split <;> exact ⟨rfl, fun entry => .inl, fun _ _ => rfl⟩
  | clearCache =>
    refine ⟨rfl, fun entry mem => ?_, fun _ _ => rfl⟩
    rw [step, cached, clearCache, LruCache.entries_clear] at mem
    cases mem

/-- Along every sequence of calls only keys of the index are in the cache. -/
theorem cachesOwn_final (config : PersistenceConfig) (shard : Shard)
    (inputs : List (StorageCall × Faults)) :
    (step.final (.new Cache config shard) inputs).CachesOwn := by
  refine Machine.invariant CachesOwn (fun storage input own entry mem => ?_) (by
    simp [CachesOwn, cached, new, LruCache.entries_new]) inputs
  obtain ⟨sameConfig, cached, _⟩ := storage.step_own input
  rw [sameConfig]
  exact (cached entry mem).elim (own entry) id

theorem le_of_keys_le (less : indexBytes first ++ text ≤ indexBytes second ++ other) :
    first.object.raw.toNat ≤ second.object.raw.toNat := by
  by_contra greater
  rw [not_le, ← UInt32.lt_iff_toNat_lt] at greater
  have before : indexBytes second ++ other < indexBytes first ++ [] := by
    exact indexBytes_lt_iff.mpr greater
  have upTo : indexBytes first ++ [] ≤ indexBytes first ++ text :=
    (append_le_append_left _).mpr (nil_le text)
  exact (before.trans_le upTo).not_ge less

/-- The keys between the bounds of an index are its own. -/
theorem eq_of_between {start last : Bound Bytes}
    (fromStart : (startBound config start).fromStart (indexBytes first ++ text) = true)
    (upToEnd : (endBound config last).upToEnd (indexBytes first ++ text) = true) :
    first = config.indexId := by
  have least : config.indexId.object.raw.toNat ≤ first.object.raw.toNat := by
    cases start with
    | included value =>
      simp only [startBound, Bound.fromStart, decide_eq_true_eq] at fromStart
      exact le_of_keys_le fromStart
    | excluded value =>
      simp only [startBound, Bound.fromStart, decide_eq_true_eq] at fromStart
      exact le_of_keys_le fromStart.le
    | unbounded =>
      simp only [startBound, Bound.fromStart, decide_eq_true_eq] at fromStart
      exact le_of_keys_le fromStart
  have most : first.object.raw.toNat ≤ config.indexId.object.raw.toNat := by
    cases last with
    | included value =>
      simp only [endBound, Bound.upToEnd, decide_eq_true_eq, buildPrefix, append_assoc] at upToEnd
      exact le_of_keys_le upToEnd
    | excluded value =>
      simp only [endBound, Bound.upToEnd, decide_eq_true_eq] at upToEnd
      exact le_of_keys_le upToEnd.le
    | unbounded =>
      simp only [endBound, Bound.upToEnd, decide_eq_true_eq] at upToEnd
      have before : first.object.raw.toNat < (config.indexId.object.raw + 1).toNat :=
        UInt32.lt_iff_toNat_lt.mp (indexBytes_lt_iff.mp upToEnd)
      exact Nat.lt_succ_iff.mp (before.trans_le (Nat.mod_le _ _))
  exact congrArg (IndexId.mk ∘ Core.ObjectId.mk) (UInt32.toNat_inj.mp (most.antisymm least))

/-- A scan sees only what is between its bounds. -/
theorem scan_congr {shard changed : Shard} {range : KeyRange}
    (same : ∀ key, range.start.fromStart key = true → range.last.upToEnd key = true →
      changed.get key = shard.get key) : changed.scan range = shard.scan range := by
  have sameEntries : inRange range.start range.last changed.entries =
      inRange range.start range.last shard.entries := by
    let within : Shard → Shard := fun shard =>
      ⟨inRange range.start range.last shard.entries, shard.sorted.filter _⟩
    suffices within changed = within shard from congrArg Shard.entries this
    refine Shard.ext_get fun key => Option.ext fun value => ?_
    simp only [Shard.get_eq_some_iff, within, inRange, mem_filter, Bool.and_eq_true]
    refine and_congr_left fun inside => ?_
    rw [← Shard.get_eq_some_iff, ← Shard.get_eq_some_iff, same key inside.1 inside.2]
  rw [Shard.scan, Shard.scan, sameEntries]

/-- Two indexes with different numbers share a shard. Behind any call on one the other still
agrees with the shard, and reads and scans as before. -/
theorem other_index_unchanged (changed reader : PersistentIndexStore Cache)
    (shared : changed.store = reader.store) (own : reader.CachesOwn)
    (different : changed.config.indexId ≠ reader.config.indexId) (input : StorageCall × Faults) :
    ∃ next : PersistentIndexStore Cache, next.config = reader.config ∧ next.cache = reader.cache ∧
      next.store = (changed.step input).2.store ∧
      (∀ indexedValue primaryKey,
        (next.readEntry indexedValue primaryKey).1 = (reader.readEntry indexedValue primaryKey).1 ∧
        next.hasEntry indexedValue primaryKey = reader.hasEntry indexedValue primaryKey) ∧
      ∀ start last limit reverse,
        next.scanRange start last limit reverse = reader.scanRange start last limit reverse := by
  obtain ⟨-, -, unchanged⟩ := changed.step_own input
  have foreign : ∀ key, indexBytes reader.config.indexId <+: key →
      ¬indexBytes changed.config.indexId <+: key := by
    rintro _ ⟨text, rfl⟩ ⟨other, same⟩
    refine different (congrArg (IndexId.mk ∘ Core.ObjectId.mk) (UInt32.toNat_inj.mp ?_))
    exact (le_of_keys_le same.le).antisymm (le_of_keys_le same.ge)
  have sameGet : ∀ key, indexBytes reader.config.indexId <+: key →
      (changed.step input).2.store.get key = reader.store.get key := by
    intro key isOwn
    rw [unchanged key (foreign key isOwn), shared]
  refine ⟨⟨reader.config, (changed.step input).2.store, reader.cache, fun entry mem =>
    (sameGet entry.1 (own entry mem)).trans (reader.coherent entry mem)⟩, rfl, rfl, rfl,
    fun indexedValue primaryKey => ?_, fun start last limit reverse => scan_congr ?_⟩
  · have sameKey := sameGet _ (isPrefix_buildKey indexedValue primaryKey)
    simp [sameKey]
  · intro key fromStart upToEnd
    refine (unchanged key ?_).trans (congrArg (·.get key) shared)
    rintro ⟨text, rfl⟩
    exact different (eq_of_between fromStart upToEnd)

/-- The index with the number behind another one has an entry, in the shard and in its cache. -/
theorem next_index_unchanged :
    let reader := (PersistentIndexStore.new RecentEntries ⟨⟨⟨2⟩⟩, 10⟩ Shard.empty).writeEntry
      [1] [5] [7]
    let changed := PersistentIndexStore.new RecentEntries ⟨⟨⟨1⟩⟩, 10⟩ reader.store
    reader.cached = [([0, 0, 0, 2, 1, 5], [7])] ∧
      ∃ next : PersistentIndexStore RecentEntries, next.config = reader.config ∧
        next.store = (changed.step (.writeEntry [1] [2] [3], ⟨none, none⟩)).2.store ∧
        (next.readEntry [1] [5]).1 = some [7] ∧
        next.scanRange .unbounded .unbounded none false = [([0, 0, 0, 2, 1, 5], [7])] := by
  intro reader changed
  obtain ⟨next, sameConfig, -, store, reads, scans⟩ := other_index_unchanged changed reader rfl
    (cachesOwn_final ⟨⟨⟨2⟩⟩, 10⟩ Shard.empty [(.writeEntry [1] [5] [7], ⟨none, none⟩)])
    (by decide) (.writeEntry [1] [2] [3], ⟨none, none⟩)
  refine ⟨by decide, next, sameConfig, store, (reads [1] [5]).1.trans ?_, (scans _ _ _ _).trans ?_⟩
  · decide +kernel
  · decide +kernel

end

end PersistentIndexStore

end Nanograph.Idx
