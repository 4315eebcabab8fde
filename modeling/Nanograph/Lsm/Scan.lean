import Nanograph.Lsm.Calls
import Nanograph.Lsm.Iterator

/-!
# Scans of a shard

The scan of `nanograph-lsm/src/kvstore.rs`. It merges the memtable and the immutable
memtable, so it yields what reads of single keys give for the keys that one of them
has, and it misses the keys that are in tables only.
-/

namespace Nanograph.Lsm

open Foundation Kvt

namespace LSMTreeEngine

/-- The entries of the memtables in a range, the memtable first. -/
def scanSources (engine : LSMTreeEngine) (range : KeyRange) : List (List Entry) :=
  (engine.memtable :: engine.immutableMemtable.toList).map fun memtable =>
    memtable.entries.filter fun entry => range.contains entry.key

def scan (engine : LSMTreeEngine) (range : KeyRange) : LSMIterator :=
  let iterator := LSMIterator.merge (engine.scanSources range) range.reverse
  match range.limit with
  | some limit => iterator.setLimit limit
  | none => iterator

section

variable (engine : LSMTreeEngine) (range : KeyRange)

theorem ascending_scanSources : ∀ entries ∈ engine.scanSources range, Ascending entries := by
  intro entries mem
  obtain ⟨memtable, -, rfl⟩ := List.mem_map.mp mem
  exact memtable.ascending.filter _

/-- The sources have the entries of the memtables in the range. -/
theorem firstHit_scanSources (key : Bytes) :
    firstHit Entry.key (engine.scanSources range) key =
      if range.contains key then engine.findInMemtables key else none := by
  have filtered (memtable : MemTable) :
      itemAt Entry.key (memtable.entries.filter fun entry => range.contains entry.key) key =
        if range.contains key then memtable.get key else none := by
    rw [itemAt, List.find?_filter, MemTable.get, entryAt, itemAt]
    split
    next inside =>
      refine congrArg (List.find? · _) (funext fun entry => ?_)
      by_cases hit : entry.key = key
      · simp [hit, inside]
      · simp [hit]
    next outside =>
      refine List.find?_eq_none.mpr fun entry _ => ?_
      by_cases hit : entry.key = key
      · simp [hit, outside]
      · simp [hit]
  rw [scanSources, List.map_cons, firstHit_cons, filtered, findInMemtables]
  cases engine.immutableMemtable with
  | none => split <;> simp
  | some memtable =>
    rw [Option.toList_some, List.map_singleton, firstHit_cons, filtered]
    split <;> simp

end

/-- A forward scan without limit yields exactly what reads give for the keys in its range,
each once and in order, if and only if no key in the range has its value from a table. -/
theorem scan_eq_reads_iff (engine : LSMTreeEngine) (start last : Bound Bytes) :
    (∃ found, (∀ polls, found.length ≤ polls →
        (engine.scan (.new start last)).pollItems polls = found) ∧
      KeySorted Prod.fst found ∧
      ∀ key value, (key, value) ∈ found ↔ (KeyRange.new start last).contains key = true ∧
        (engine.call (.get key)).1 = .ok (.found (some value))) ↔
      ∀ key value, (KeyRange.new start last).contains key = true →
        (engine.call (.get key)).1 = .ok (.found (some value)) →
        (engine.findInMemtables key).isSome := by
  let range := KeyRange.new start last
  obtain ⟨sorted, members⟩ := LSMIterator.merge_spec (engine.ascending_scanSources range)
  have yields (polls : Nat) (enough : (LSMIterator.merge (engine.scanSources range)
      false).entries.length ≤ polls) : (engine.scan range).pollItems polls =
        (LSMIterator.merge (engine.scanSources range) false).entries :=
    LSMIterator.pollItems_eq enough
  generalize (LSMIterator.merge (engine.scanSources range) false).entries = pairs
    at sorted members yields
  constructor
  · rintro ⟨found, polled, -, exactly⟩ key value inside live
    have same : found = pairs := by
      rw [← polled (max found.length pairs.length) (le_max_left _ _), yields _ (le_max_right _ _)]
    have hit := (members key value).mp (same ▸ (exactly key value).mpr ⟨inside, live⟩)
    rw [firstHit_scanSources, if_pos inside] at hit
    cases found : engine.findInMemtables key with
    | none => simp [found] at hit
    | some entry => rfl
  · intro inMemtables
    refine ⟨pairs, yields, sorted, fun key value => (members key value).trans ?_⟩
    rw [firstHit_scanSources]
    by_cases inside : range.contains key = true
    · rw [if_pos inside]
      have here := inMemtables key value inside
      rw [call_get] at here ⊢
      cases found : engine.findInMemtables key with
      | none =>
        rw [found] at here
        constructor
        · intro hit
          cases hit
        · rintro ⟨-, live⟩
          cases here live
      | some entry => simp [show (KeyRange.new start last).contains key = true from inside]
    · rw [if_neg inside]
      constructor
      · intro hit
        cases hit
      · rintro ⟨isInside, -⟩
        exact absurd isInside inside

theorem scan_misses_flushed_key :
    let engine := call.final (fresh { memtableSize := 100, blockSize := 4, fileSize := List.length })
      [.put [1] [7], .flush]
    (engine.scan (.new .unbounded .unbounded)).pollItems 1 = [] ∧
      (engine.call (.get [1])).1 = .ok (.found (some [7])) := by
  decide +kernel

end LSMTreeEngine

end Nanograph.Lsm
