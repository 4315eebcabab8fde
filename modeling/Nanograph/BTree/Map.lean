import Nanograph.BTree.Calls
import Nanograph.Foundation.Bytes

/-!
# The tree as a finite map

What a tree answers is determined by the calls made before: a key holds the value
of its last insert, unless a delete of the key or a clear came after it.
-/

namespace Nanograph.BTree

open List Foundation BPlusTree

variable {K V : Type} [LinearOrder K]

/-- The value under a key after a history of calls, the latest call first. -/
def valueAfter : List (TreeCall K V) → K → Option V
  | [], _ => none
  | .insert written value :: earlier, key =>
    if key = written then some value else valueAfter earlier key
  | .delete erased :: earlier, key => if key = erased then none else valueAfter earlier key
  | .get _ :: earlier, key => valueAfter earlier key
  | .clear :: _, _ => none

/-- The finite map a history of calls stands for, as a machine over histories. -/
def finiteMap : Machine (List (TreeCall K V)) (TreeCall K V) (Except Fault (TreeAnswer V))
  | history, .insert key value => (.ok .done, .insert key value :: history)
  | history, .delete key => (.ok (.deleted (valueAfter history key).isSome), .delete key :: history)
  | history, .get key => (.ok (.found (valueAfter history key)), .get key :: history)
  | history, .clear => (.ok .done, .clear :: history)

/-- A sound tree that holds what its history says. -/
def Holds (tree : BPlusTree K V) (history : List (TreeCall K V)) : Prop :=
  2 ≤ tree.config.maxKeys ∧ ∃ leaves levels, Sound tree leaves levels ∧
    ∀ key, lookup leaves.entries key = valueAfter history key

/-- One call on a tree and the same call on the map it holds. -/
theorem Holds.call {tree : BPlusTree K V} {history : List (TreeCall K V)}
    (holds : Holds tree history) (input : TreeCall K V) :
    (tree.call input).1 = (finiteMap history input).1 ∧
      Holds (tree.call input).2 (finiteMap history input).2 := by
  obtain ⟨splits, leaves, levels, sound, agrees⟩ := holds
  obtain ⟨answer, new, reshaped, answered, next, performed, config⟩ := sound.call splits input
  suffices kept : Except.ok answer = (finiteMap history input).1 ∧
      ∀ key, lookup new.entries key = valueAfter (finiteMap history input).2 key from
    ⟨answered.trans kept.1, config ▸ splits, new, reshaped, next, kept.2⟩
  cases input with
  | insert key value =>
    obtain ⟨rfl, inserted⟩ := performed
    obtain ⟨front, held, back, window, entries⟩ := inserted.window sound.segmented
    refine ⟨rfl, fun other => ?_⟩
    rw [entries, window.lookup_write, agrees]
    rfl
  | delete key =>
    obtain ⟨present, rfl, deleted⟩ := performed
    obtain ⟨front, held, back, window, entries, rfl⟩ := deleted.window sound.segmented
    refine ⟨?_, fun other => ?_⟩
    · rw [finiteMap, ← agrees, window.lookup_eq]
    · rw [entries, window.lookup_erase, agrees]
      rfl
  | get key =>
    obtain ⟨rfl, rfl⟩ := performed
    exact ⟨by rw [finiteMap, agrees], agrees⟩
  | clear =>
    obtain ⟨rfl, rfl⟩ := performed
    exact ⟨rfl, fun _ => rfl⟩

section

variable {tree : BPlusTree K V} {history : List (TreeCall K V)}

omit [LinearOrder K] in
/-- An operation whose call succeeds ran with the value of the answer. -/
theorem run_of_answer {α : Type} {run : TreeM K V α} {wrap : α → TreeAnswer V} {given : TreeAnswer V}
    (answered : (answer run wrap tree).1 = .ok given) :
    ∃ value, run tree = .ok value (answer run wrap tree).2 ∧ wrap value = given := by
  unfold answer at answered ⊢
  split at answered
  next value changed ran => exact ⟨value, by simp [ran], by simpa using answered⟩
  next => simp at answered

section

variable (holds : Holds tree history)

include holds

theorem Holds.get (key : K) : get key tree = .ok (valueAfter history key) tree := by
  obtain ⟨-, leaves, levels, sound, agrees⟩ := holds
  rw [get_spec sound.stands sound.segmented, agrees]

theorem Holds.insert (key : K) (value : V) :
    ∃ changed, insert key value tree = .ok () changed ∧
      Holds changed (.insert key value :: history) := by
  obtain ⟨answered, next⟩ := holds.call (.insert key value)
  obtain ⟨_, ran, -⟩ := run_of_answer answered
  exact ⟨_, ran, next⟩

theorem Holds.delete (key : K) :
    ∃ changed, delete key tree = .ok (valueAfter history key).isSome changed ∧
      Holds changed (.delete key :: history) := by
  obtain ⟨answered, next⟩ := holds.call (.delete key)
  obtain ⟨present, ran, same⟩ := run_of_answer answered
  injection same with same
  exact ⟨_, same ▸ ran, next⟩

theorem Holds.clear :
    ∃ changed, clear tree = .ok () changed ∧ Holds changed (.clear :: history) := by
  obtain ⟨answered, next⟩ := holds.call .clear
  obtain ⟨_, ran, -⟩ := run_of_answer answered
  exact ⟨_, ran, next⟩

end

end

/-- What the calls of a history left under a key they wrote, the latest call first. -/
def lastWrite : List (TreeCall K V) → K → Option (Option V)
  | [], _ => none
  | .insert written value :: earlier, key =>
    if key = written then some (some value) else lastWrite earlier key
  | .delete erased :: earlier, key => if key = erased then some none else lastWrite earlier key
  | .get _ :: earlier, key => lastWrite earlier key
  | .clear :: _, _ => some none

/-- Later calls decide about the keys they wrote. -/
theorem valueAfter_append (later earlier : List (TreeCall K V)) (key : K) :
    valueAfter (later ++ earlier) key = (lastWrite later key).getD (valueAfter earlier key) := by
  induction later with
  | nil => rfl
  | cons call rest ih =>
    cases call with
    | insert written value =>
      simp only [cons_append, valueAfter, lastWrite]
      split
      · rfl
      · exact ih
    | delete erased =>
      simp only [cons_append, valueAfter, lastWrite]
      split
      · rfl
      · exact ih
    | get read => exact ih
    | clear => rfl

theorem holds_new {config : BPlusTreeConfig} (splits : 2 ≤ config.maxKeys) :
    Holds (new config : BPlusTree K V) [] :=
  ⟨splits, _, _, sound_new config, fun _ => rfl⟩

theorem finiteMap_final (history calls : List (TreeCall K V)) :
    finiteMap.final history calls = calls.reverse ++ history := by
  induction calls generalizing history with
  | nil => rfl
  | cons input rest ih =>
    rw [Machine.final, ih, reverse_cons, append_assoc]
    cases input <;> rfl

/-- A tree holds what the calls made on it say. -/
theorem holds_final {config : BPlusTreeConfig} (splits : 2 ≤ config.maxKeys)
    (calls : List (TreeCall K V)) : Holds (call.final (new config) calls) calls.reverse := by
  have related := (Machine.simulates Holds (fun _ _ input holds => holds.call input)
    (holds_new splits) calls).2
  rwa [finiteMap_final, append_nil] at related

/-- No call on a tree with the configuration of a shard fails, and the tree answers
every call as the finite map does. -/
theorem tree_answers_finiteMap {config : BPlusTreeConfig} (order : 2 ≤ config.minKeys)
    (twice : config.maxKeys = 2 * config.minKeys) (calls : List (TreeCall Bytes Bytes)) :
    call.answers (new config) calls = finiteMap.answers [] calls := by
  have splits : 2 ≤ config.maxKeys := by omega
  exact (Machine.simulates Holds (fun _ _ input holds => holds.call input)
    (holds_new splits) calls).1

/-- The fourth insert splits the leaf, and the deletions join the two again. -/
theorem tree_answers_finiteMap_order_four :
    call.answers
      (new { maxKeys := 4, minKeys := 2 } : BPlusTree Bytes Bytes)
      [.insert [1] [7], .insert [2] [8], .insert [3] [], .insert [4] [9], .get [4], .delete [1],
        .delete [3], .get [1], .get [2], .clear, .get [2]] =
      [.ok .done, .ok .done, .ok .done, .ok .done, .ok (.found (some [9])), .ok (.deleted true),
        .ok (.deleted true), .ok (.found none), .ok (.found (some [8])), .ok .done,
        .ok (.found none)] :=
  tree_answers_finiteMap (by decide) (by decide) _

end Nanograph.BTree
