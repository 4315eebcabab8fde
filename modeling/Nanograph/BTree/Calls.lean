import Nanograph.BTree.Effects
import Nanograph.Foundation.Machine

/-!
# Calls on a tree

A tree as a machine: it answers inserts, deletes, gets and clears. `Sound` is the
invariant that every call keeps, and `Performed` says what a call does to the row
of leaves and what it answers.
-/

namespace Nanograph.BTree

open BPlusTree Foundation

variable {K V : Type}

inductive TreeCall (K V : Type) where
  | insert (key : K) (value : V)
  | delete (key : K)
  | get (key : K)
  | clear

/-- What the calls return. -/
inductive TreeAnswer (V : Type) where
  | done
  | deleted (present : Bool)
  | found (value : Option V)
deriving DecidableEq

namespace BPlusTree

/-- The result of a computation and the tree it leaves. -/
def answer {α : Type} (run : TreeM K V α) (wrap : α → TreeAnswer V) (tree : BPlusTree K V) :
    Except Fault (TreeAnswer V) × BPlusTree K V :=
  match run tree with
  | .ok value changed => (.ok (wrap value), changed)
  | .error fault changed => (.error fault, changed)

def call [LinearOrder K] : Machine (BPlusTree K V) (TreeCall K V) (Except Fault (TreeAnswer V))
  | tree, .insert key value => answer (insert key value) (fun _ => .done) tree
  | tree, .delete key => answer (delete key) .deleted tree
  | tree, .get key => answer (get key) .found tree
  | tree, .clear => answer clear (fun _ => .done) tree

end BPlusTree

open BPlusTree

/-- The leaf of an empty tree. -/
def rootLeaf : LeafNode K V :=
  { id := ⟨0⟩, entries := [], next := none, prev := none, parent := none }

/-- The invariant of a tree. -/
structure Sound [LinearOrder K] (tree : BPlusTree K V) (leaves : LeafRow K V)
    (levels : List (Level K)) : Prop where
  stands : Stands tree leaves levels
  segmented : Segmented leaves.segments
  linked : LinkedTo none leaves.nexts
  leftmost : tree.leftmostLeaf = leaves.ids.head?
  occupied : ∀ least most, KeyBounds tree.config least most → Occupied least most levels
  filled : (∃ least most, KeyBounds tree.config least most) →
    ∀ least most, LeafBounds tree.config least most → leaves.Filled least most

theorem Sound.entries_sorted [LinearOrder K] {tree : BPlusTree K V} {leaves : LeafRow K V}
    {levels : List (Level K)} (sound : Sound tree leaves levels) : Sorted leaves.entries := by
  have sorted := sound.segmented.entries_sorted
  rwa [LeafRow.flatMap_segments] at sorted

/-- What a call does to the row of leaves, and its answer. -/
def Performed [LinearOrder K] (config : BPlusTreeConfig) (levels : List (Level K))
    (leaves : LeafRow K V) (answer : TreeAnswer V) (new : LeafRow K V) : TreeCall K V → Prop
  | .insert key value => answer = .done ∧ Inserted config key value leaves new
  | .delete key => ∃ present, answer = .deleted present ∧
      Deleted config levels key leaves present new
  | .get key => answer = .found (lookup leaves.entries key) ∧ new = leaves
  | .clear => answer = .done ∧ new = [(⊥, rootLeaf)]

variable [LinearOrder K] {tree : BPlusTree K V} {leaves : LeafRow K V} {levels : List (Level K)}

/-- A get reads what the leaves hold under its key. -/
theorem get_spec (stands : Stands tree leaves levels) (segmented : Segmented leaves.segments)
    (key : K) : BPlusTree.get key tree = .ok (lookup leaves.entries key) tree := by
  obtain ⟨before, low, leaf, after, rfl, least, next, found⟩ :=
    stands.findLeaf (items_ordered segmented) key
  have leafStored := stands.leafNode (low, leaf) (by simp)
  obtain ⟨front, held, back, window⟩ :=
    exists_window (segmented.sorted (low, leaf.entries) (by simp)) key
  have read := LeafNode.get_window { leaf with parent := tree.parentOf leaf.id } window
  rw [BPlusTree.get, run_bind run_get, run_bind found, run_bind (run_getNode leafStored),
    (row_window _ segmented least next window).lookup_eq]
  exact congrArg (EStateM.Result.ok · tree) read

/-- All rows of a tree hold the same under every key. -/
theorem Sound.lookup_unique {other : LeafRow K V} {otherLevels : List (Level K)}
    (sound : Sound tree leaves levels) (again : Sound tree other otherLevels) (key : K) :
    lookup leaves.entries key = lookup other.entries key := by
  have read := get_spec sound.stands sound.segmented key
  rw [get_spec again.stands again.segmented key] at read
  injection read with equal
  exact equal.symm

omit [LinearOrder K] in
/-- A node without keys is out of bounds, so there is no level at all. -/
theorem Occupied.not_bare {least most : Nat} (occupied : Occupied least most levels)
    (positive : 1 ≤ least) (bare : Bare levels) : levels = [] := by
  cases levels with
  | nil => rfl
  | cons level upper =>
    obtain ⟨place, mem, empty⟩ := bare level rfl
    have fits := (occupied.1 place mem).1
    rw [empty, List.length_nil] at fits
    split at fits <;> omega

omit [LinearOrder K] in
theorem Stands.alone (stands : Stands tree leaves []) : leaves.length = 1 := by
  have lengths := congrArg List.length stands.above.1
  simpa [LeafRow.items] using lengths

omit [LinearOrder K] in
/-- The table of an empty tree. -/
theorem node?_new (config : BPlusTreeConfig) (nodeId : BTreeNodeId) :
    (new config : BPlusTree K V).node? nodeId =
      if nodeId = ⟨0⟩ then some (.leaf rootLeaf) else none := by
  split
  next equal => subst equal; rfl
  next different =>
    rw [node?, new, AList.lookup_eq_none]
    simpa [AList.mem_keys, AList.keys, AList.singleton] using different

/-- An empty tree is one leaf. -/
theorem sound_new (config : BPlusTreeConfig) :
    Sound (new config : BPlusTree K V) [(⊥, rootLeaf)] [] where
  stands :=
    { keyed := by
        intro nodeId node found
        rw [node?_new] at found
        split at found
        next equal => cases found; exact equal.symm
        next => cases found
      stored := by
        intro place mem
        obtain rfl := List.mem_singleton.mp mem
        simp [bodyOf, node?_new, rootLeaf, BPlusTreeNode.setParent]
      above := ⟨rfl, rfl⟩
      distinct := ⟨by simp, by simp [rootLeaf, new]⟩
      covered := by
        intro nodeId present
        by_contra absent
        have other : nodeId ≠ ⟨0⟩ := by simpa [rootLeaf] using absent
        simp [bodyOf, node?_new, other] at present }
  segmented := .one (by simp [rootLeaf]) (by simp [rootLeaf])
  linked := ⟨rfl, trivial⟩
  leftmost := rfl
  occupied := fun _ _ _ => trivial
  filled := fun _ _ _ _ => ⟨by simp [rootLeaf], by simp⟩

/-- The numbers of keys of the internal nodes that a call splits. -/
def BPlusTree.callSplits (tree : BPlusTree K V) : TreeCall K V → List Nat
  | .insert key value => tree.insertSplits key value
  | _ => []

/-- Every call on a sound tree succeeds and leaves a sound tree. Its merges keep the
bounds on the numbers of keys, and its splits keep those the halves of the split
nodes meet. -/
theorem Sound.call_sizes (sound : Sound tree leaves levels) (splits : 2 ≤ tree.config.maxKeys)
    (input : TreeCall K V) :
    ∃ answer new reshaped, (tree.call input).1 = .ok answer ∧
      Sound (tree.call input).2 new reshaped ∧
      Performed tree.config levels leaves answer new input ∧
      (tree.call input).2.config = tree.config ∧
      (∀ least most, MergeBounds tree.config least most →
        Occupied least most levels ∧ (∀ size ∈ tree.callSplits input, least ≤ (size - 1) / 2) →
        Occupied least most reshaped) ∧
      ∀ size ∈ tree.callSplits input,
        ∃ node : InternalNode K, (tree.call input).2.bodyOf node.id = some (.internal node) ∧
          node.id ≠ (tree.call input).2.rootId ∧ node.keys.length = (size - 1) / 2 := by
  cases input with
  | insert key value =>
    obtain ⟨changed, new, reshaped, ran, standing, inserted, config, leftmost, occupied, halves⟩ :=
      insert_spec sound.stands sound.segmented splits key value
    have callEq : tree.call (.insert key value) = (.ok .done, changed) := by
      simp only [call, answer, ran]
    rw [callEq]
    refine ⟨.done, new, reshaped, rfl, ?_, ⟨rfl, inserted⟩, config, occupied, halves⟩
    exact
      { stands := standing
        segmented := inserted.segmented sound.segmented splits
        linked := inserted.linked sound.linked
        leftmost := by rw [leftmost, sound.leftmost, inserted.first]
        occupied := by
          intro least most bounds
          rw [config] at bounds
          refine occupied least most bounds.toMergeBounds
            ⟨sound.occupied least most bounds, fun size mem => ?_⟩
          have full := maxKeys_le_of_mem_insertSplits mem
          have half := bounds.half
          omega
        filled := fun bounded least most bounds => inserted.filled (config ▸ bounds) splits
          (sound.filled (config ▸ bounded) least most (config ▸ bounds)) }
  | delete key =>
    obtain ⟨present, changed, new, reshaped, ran, standing, deleted, config, leftmost, occupied⟩ :=
      delete_spec sound.stands sound.segmented sound.linked key
    have callEq : tree.call (.delete key) = (.ok (.deleted present), changed) := by
      simp only [call, answer, ran]
    rw [callEq]
    refine ⟨.deleted present, new, reshaped, rfl, ?_, ⟨present, rfl, deleted⟩, config,
      fun least most bounds held => occupied least most bounds held.1, by simp [callSplits]⟩
    exact
      { stands := standing
        segmented := deleted.segmented sound.segmented
        linked := deleted.linked sound.linked
        leftmost := by rw [leftmost, sound.leftmost, deleted.first]
        occupied := by
          intro least most bounds
          rw [config] at bounds
          exact occupied least most bounds.toMergeBounds (sound.occupied least most bounds)
        filled := by
          rintro ⟨innerLeast, innerMost, inner⟩ least most bounds
          rw [config] at inner bounds
          refine deleted.filled bounds (fun bare => ?_)
            (sound.filled ⟨innerLeast, innerMost, inner⟩ least most bounds)
          have rootOnly := (sound.occupied _ _ inner).not_bare inner.positive bare
          exact (rootOnly ▸ sound.stands).alone }
  | get key =>
    have callEq : tree.call (.get key) = (.ok (.found (lookup leaves.entries key)), tree) := by
      simp only [call, answer, get_spec sound.stands sound.segmented]
    rw [callEq]
    exact ⟨_, leaves, levels, rfl, sound, ⟨rfl, rfl⟩, rfl, fun _ _ _ held => held.1,
      by simp [callSplits]⟩
  | clear =>
    exact ⟨.done, _, _, rfl, sound_new tree.config, ⟨rfl, rfl⟩, rfl, fun _ _ _ _ => trivial,
      by simp [callSplits]⟩

/-- Every call on a sound tree succeeds and leaves a sound tree. -/
theorem Sound.call (sound : Sound tree leaves levels) (splits : 2 ≤ tree.config.maxKeys)
    (input : TreeCall K V) :
    ∃ answer new reshaped, (tree.call input).1 = .ok answer ∧
      Sound (tree.call input).2 new reshaped ∧
      Performed tree.config levels leaves answer new input ∧
      (tree.call input).2.config = tree.config := by
  obtain ⟨answer, new, reshaped, answered, next, performed, config, -⟩ :=
    sound.call_sizes splits input
  exact ⟨answer, new, reshaped, answered, next, performed, config⟩

/-- The tree has the given configuration and is sound. -/
def Reached (config : BPlusTreeConfig) (tree : BPlusTree K V) : Prop :=
  tree.config = config ∧ ∃ leaves levels, Sound tree leaves levels

/-- Every tree reached by calls is sound. -/
theorem reached_final {config : BPlusTreeConfig} (splits : 2 ≤ config.maxKeys)
    (calls : List (TreeCall K V)) : Reached config (call.final (new config) calls) := by
  refine Machine.invariant (Reached config) ?_ ⟨rfl, _, _, sound_new config⟩ calls
  rintro tree input ⟨rfl, leaves, levels, sound⟩
  obtain ⟨_, new, reshaped, -, next, -, config⟩ := sound.call splits input
  exact ⟨config, new, reshaped, next⟩

end Nanograph.BTree
