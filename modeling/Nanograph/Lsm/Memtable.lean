import Nanograph.Foundation.Bytes
import Nanograph.Foundation.Keyed

/-!
# The memtable

Entries and the memtable of `nanograph-lsm/src/memtable.rs`. The ordered map from
keys to entries is the list of its entries in key order, each under its own key.
Values are inline: the engine never makes a blob reference.
-/

namespace Nanograph.Lsm

open List Foundation

/-- Entry in the memtable. No value is a deletion. -/
structure Entry where
  key : Bytes
  value : Option Bytes
  sequence : Nat
  commitTs : Option Int
deriving DecidableEq

namespace Entry

/-- Whether the entry is visible at a snapshot: committed at it or before. -/
def isVisible (entry : Entry) (snapshotTs : Int) : Bool :=
  match entry.commitTs with
  | none => false
  | some ts => decide (ts ≤ snapshotTs)

/-- The size of the entry in memory. -/
def size (entry : Entry) : Nat :=
  entry.key.length + (match entry.value with | some value => value.length | none => 0) + 16

end Entry

/-- Entries in ascending order of their keys. -/
abbrev Ascending (entries : List Entry) : Prop := KeySorted Entry.key entries

abbrev entryAt (entries : List Entry) (key : Bytes) : Option Entry :=
  itemAt Entry.key entries key

theorem entryAt_cons (entry : Entry) (entries : List Entry) (key : Bytes) :
    entryAt (entry :: entries) key = if entry.key = key then some entry else entryAt entries key :=
  itemAt_cons

/-- Memtable: an ordered map of entries with its size and its next sequence number. -/
structure MemTable where
  data : List Entry
  size : Nat
  sequence : Nat
  ascending : Ascending data

namespace MemTable

/-- A memtable without entries. -/
def new : MemTable := ⟨[], 0, 0, List.Pairwise.nil⟩

/-- Store an entry and account for its size. -/
def store (table : MemTable) (entry : Entry) : MemTable where
  data := insertItem Entry.key entry table.data
  size :=
    match entryAt table.data entry.key with
    | some old =>
      if entry.size > old.size then table.size + (entry.size - old.size)
      else table.size - (old.size - entry.size)
    | none => table.size + entry.size
  sequence := table.sequence + 1
  ascending := table.ascending.insertItem entry

/-- Insert a key that is not committed yet. -/
def put (table : MemTable) (key value : Bytes) : MemTable :=
  table.store ⟨key, some value, table.sequence, none⟩

def putCommitted (table : MemTable) (key value : Bytes) (commitTs : Int) : MemTable :=
  table.store ⟨key, some value, table.sequence, some commitTs⟩

/-- Delete a key, not committed yet. -/
def delete (table : MemTable) (key : Bytes) : MemTable :=
  table.store ⟨key, none, table.sequence, none⟩

def deleteCommitted (table : MemTable) (key : Bytes) (commitTs : Int) : MemTable :=
  table.store ⟨key, none, table.sequence, some commitTs⟩

def get (table : MemTable) (key : Bytes) : Option Entry := entryAt table.data key

def getAtSnapshot (table : MemTable) (key : Bytes) (snapshotTs : Int) : Option Entry :=
  (table.get key).filter (·.isVisible snapshotTs)

/-- Whether there is no entry. -/
def isEmpty (table : MemTable) : Bool := table.data.isEmpty

/-- All entries in key order. -/
def entries (table : MemTable) : List Entry := table.data

/-- The memtable after all entries are removed. -/
def clear (_table : MemTable) : MemTable := new

@[simp] theorem get_new (key : Bytes) : new.get key = none := rfl

/-- A stored entry is read under its key, the others as before. -/
theorem get_store (table : MemTable) (entry : Entry) (key : Bytes) :
    (table.store entry).get key = if entry.key = key then some entry else table.get key :=
  table.ascending.itemAt_insertItem entry key

/-- The size is that of the entries. -/
def Counted (table : MemTable) : Prop := table.size = (table.data.map Entry.size).sum

/-- More is taken from the size than it holds when the entry is stored. -/
def Underflows (table : MemTable) (entry : Entry) : Prop :=
  ∃ old ∈ table.get entry.key, table.size < old.size - entry.size

theorem sum_insertItem {entries : List Entry} (ascending : Ascending entries) (entry : Entry) :
    ((insertItem Entry.key entry entries).map Entry.size).sum +
        ((entryAt entries entry.key).map Entry.size).getD 0 =
      (entries.map Entry.size).sum + entry.size := by
  induction entries with
  | nil => simp [insertItem, entryAt, itemAt]
  | cons first rest ih =>
    obtain ⟨least, restAscending⟩ := pairwise_cons.mp ascending
    specialize ih restAscending
    rw [insertItem, entryAt_cons]
    split
    next before =>
      rw [if_neg before.ne]
      simp only [map_cons, sum_cons]
      omega
    next notBefore =>
      split
      next behind =>
        have missing : entryAt rest entry.key = none :=
          itemAt_eq_none.mpr fun other mem => (behind.trans (least other mem)).ne'
        simp [behind.ne', missing, Nat.add_comm]
      next notBehind =>
        rw [if_pos (le_antisymm (not_lt.mp notBehind) (not_lt.mp notBefore))]
        simp only [map_cons, sum_cons, Option.map_some, Option.getD_some]
        omega

theorem Counted.store {table : MemTable} (counted : table.Counted) (entry : Entry) :
    ¬table.Underflows entry ∧ (table.store entry).Counted := by
  have sum := sum_insertItem table.ascending entry
  rw [Counted] at counted
  rw [Underflows, Counted, MemTable.store, get]
  cases found : entryAt table.data entry.key with
  | none => simp_all
  | some old =>
    simp only [found, Option.map_some, Option.getD_some] at sum
    constructor
    · simp
      omega
    · dsimp only
      split <;> omega

/-- The calls that change a memtable: puts and deletions, committed or not, and a clear. -/
inductive Call where
  | write (key : Bytes) (value : Option Bytes) (commitTs : Option Int)
  | clear

/-- A call on a memtable, with the entries that were issued since it was last cleared. -/
def step (run : MemTable × List Entry) : Call → MemTable × List Entry
  | .write key value commitTs =>
    (match value, commitTs with
      | some value, none => run.1.put key value
      | some value, some ts => run.1.putCommitted key value ts
      | none, none => run.1.delete key
      | none, some ts => run.1.deleteCommitted key ts,
    ⟨key, value, run.1.sequence, commitTs⟩ :: run.2)
  | .clear => (run.1.clear, [])

/-- A run counts its entries and holds for each key the one with the highest number. -/
def Tracked (run : MemTable × List Entry) : Prop :=
  run.1.Counted ∧ (∀ entry ∈ run.2, entry.sequence < run.1.sequence) ∧
    ∀ key, run.1.get key = (run.2.filter (·.key = key)).argmax (·.sequence)

theorem Tracked.step {run : MemTable × List Entry} (tracked : Tracked run) :
    ∀ input, Tracked (MemTable.step run input)
  | .clear => ⟨rfl, by simp [MemTable.step], fun _ => rfl⟩
  | .write key value commitTs => by
    obtain ⟨counted, earlier, newest⟩ := tracked
    obtain ⟨entry, stored, fresh⟩ : ∃ entry, MemTable.step run (.write key value commitTs) =
        (run.1.store entry, entry :: run.2) ∧ entry.sequence = run.1.sequence :=
      ⟨⟨key, value, _, commitTs⟩, by cases value <;> cases commitTs <;> rfl, rfl⟩
    rw [← fresh] at earlier
    rw [stored]
    refine ⟨(counted.store _).2, forall_mem_cons.mpr ⟨?_, fun _ mem => ?_⟩, fun other => ?_⟩
    · exact fresh.le.trans_lt (Nat.lt_succ_self _)
    · exact (earlier _ mem).trans_le (fresh.le.trans (Nat.le_succ _))
    · rw [get_store, newest, filter_cons]
      by_cases same : entry.key = other
      · simp only [same, decide_true, if_true, argmax_cons]
        cases best : argmax (·.sequence) (run.2.filter (·.key = other)) with
        | none => rfl
        | some old => simp [(earlier old (mem_of_mem_filter (argmax_mem best))).not_gt]
      · simp [same]

/-- After every run the size is that of the entries and holds what is taken from it next, and each
key has the entry with the highest number that was issued for it since the last clear. -/
theorem run_spec (calls : List Call) :
    let run := calls.foldl step (new, [])
    run.1.Counted ∧ (∀ entry, ¬run.1.Underflows entry) ∧
      ∀ key, run.1.get key = (run.2.filter (·.key = key)).argmax (·.sequence) := by
  obtain ⟨counted, -, newest⟩ : Tracked (calls.foldl step (new, [])) :=
    calls.foldlRecOn step ⟨rfl, by simp, fun _ => rfl⟩ fun _ tracked input _ => tracked.step input
  exact ⟨counted, fun entry => (counted.store entry).1, newest⟩

theorem clear_restarts : ((new.put [1] [5]).put [1] [6]).get [1] = some ⟨[1], some [6], 1, none⟩ ∧
    (((new.put [1] [5]).put [1] [6]).clear.put [1] [7]).get [1] = some ⟨[1], some [7], 0, none⟩ := by
  decide

end MemTable

end Nanograph.Lsm
