import Nanograph.Foundation.Bytes
import Nanograph.Foundation.Keyed

/-!
# The content of a shard

What a key-value store holds for one shard, as far as its callers can see: entries in the
order of their keys, no key twice. A store that returns what was written to it answers as
these operations do.
-/

namespace Nanograph.Kvt

open List Option Foundation

/-- The entries of a shard in ascending order of their keys. -/
@[ext] structure Shard where
  entries : List (Bytes × Bytes)
  sorted : KeySorted Prod.fst entries

namespace Shard

/-- A shard without entries. -/
def empty : Shard := ⟨[], List.Pairwise.nil⟩

def get (shard : Shard) (key : Bytes) : Option Bytes :=
  (itemAt Prod.fst shard.entries key).map Prod.snd

def put (shard : Shard) (key value : Bytes) : Shard :=
  ⟨insertItem Prod.fst (key, value) shard.entries, shard.sorted.insertItem _⟩

def delete (shard : Shard) (key : Bytes) : Shard :=
  ⟨shard.entries.filter (·.1 ≠ key), shard.sorted.sublist filter_sublist⟩

/-- Write entries one after the other. -/
def putAll (shard : Shard) (records : List (Bytes × Bytes)) : Shard :=
  records.foldl (fun shard record => shard.put record.1 record.2) shard

variable {shard other : Shard} {key wanted value : Bytes}

@[simp] theorem get_empty : empty.get wanted = none := rfl

@[simp] theorem get_put :
    (shard.put key value).get wanted = if key = wanted then some value else shard.get wanted := by
  rw [get, put, shard.sorted.itemAt_insertItem]
  split <;> rfl

@[simp] theorem get_delete :
    (shard.delete key).get wanted = if key = wanted then none else shard.get wanted := by
  simp only [get, delete, itemAt, find?_filter]
  split
  next same =>
    subst same
    rw [find?_eq_none.mpr (by simp)]
    rfl
  next differs =>
    congr 2
    funext entry
    by_cases hit : entry.1 = wanted
    · simp [hit, Ne.symm differs]
    · simp [hit]

theorem get_eq_some_iff : shard.get wanted = some value ↔ (wanted, value) ∈ shard.entries := by
  constructor
  · intro found
    obtain ⟨entry, hit, rfl⟩ := map_eq_some_iff.mp found
    obtain ⟨mem, rfl⟩ := mem_of_itemAt hit
    exact mem
  · intro mem
    have hit : itemAt Prod.fst shard.entries wanted = some (wanted, value) :=
      shard.sorted.itemAt_eq mem
    rw [get, hit]
    rfl

/-- A shard is determined by its values. -/
theorem ext_get (same : ∀ key, shard.get key = other.get key) : shard = other := by
  have members : ∀ entry, entry ∈ shard.entries ↔ entry ∈ other.entries := by
    intro entry
    rw [← get_eq_some_iff, ← get_eq_some_iff, same]
  have distinct : ∀ shard : Shard, shard.entries.Nodup := fun shard =>
    shard.sorted.imp fun less => ne_of_apply_ne Prod.fst less.ne
  apply Shard.ext
  apply List.Perm.eq_of_pairwise _ shard.sorted other.sorted
  · exact (perm_ext_iff_of_nodup (distinct shard) (distinct other)).mpr members
  · intro first second _ _ less greater
    exact absurd less greater.asymm

/-- The last entry written for a key decides. -/
theorem get_putAll (shard : Shard) (records : List (Bytes × Bytes)) :
    (shard.putAll records).get wanted = (lastWritten records wanted).or (shard.get wanted) := by
  induction records generalizing shard with
  | nil => rfl
  | cons record rest ih =>
    refine (ih _).trans ?_
    rw [get_put, ← singleton_append, lastWritten_append, lastWritten_singleton, Option.or_assoc]
    split <;> rfl

/-- Among the entries of a shard the only one with a key is the last one. -/
theorem lastWritten_entries : lastWritten shard.entries wanted = shard.get wanted := by
  cases found : shard.get wanted with
  | none =>
    rw [get, map_eq_none_iff, itemAt_eq_none] at found
    exact lastWritten_eq_none.mpr found
  | some value =>
    have mem := get_eq_some_iff.mp found
    obtain ⟨front, back, split⟩ := append_of_mem mem
    have behind : ∀ entry ∈ back, entry.1 ≠ wanted := by
      intro entry inBack
      have sorted := shard.sorted
      rw [split, KeySorted, pairwise_append, pairwise_cons] at sorted
      exact (sorted.2.1.1 entry inBack).ne'
    rw [split, ← singleton_append, lastWritten_append, lastWritten_append,
      lastWritten_eq_none.mpr behind, lastWritten_singleton]
    simp

/-- Writing the entries of a shard into an empty one gives the shard. -/
theorem putAll_entries (shard : Shard) : empty.putAll shard.entries = shard := by
  apply ext_get
  intro key
  rw [get_putAll, lastWritten_entries, get_empty, or_none]

end Shard

end Nanograph.Kvt
