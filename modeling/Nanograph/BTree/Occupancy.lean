import Nanograph.BTree.Calls
import Nanograph.Foundation.Bytes

/-!
# How full the nodes are

`max_keys` is twice `min_keys`, so that a full node splits into two nodes with
enough keys. This holds for leaves. An internal node gives its middle key to its
parent when it is split, and one with exactly `max_keys` keys has none to spare:
its right half is a key short. The module shows that nothing else takes a node
out of its bounds.
-/

namespace Nanograph.BTree

open List BPlusTree Foundation

variable {K V : Type}

/-- Every node but the root holds at least `min_keys` and at most `max_keys` keys. -/
def NodesFilled (tree : BPlusTree K V) : Prop :=
  ∀ nodeId node, tree.node? nodeId = some node → nodeId ≠ tree.rootId →
    tree.config.minKeys ≤ node.len ∧ node.len ≤ tree.config.maxKeys

/-- A call splits an internal node that holds exactly `max_keys` keys. -/
def SplitsAtMax [LinearOrder K] (tree : BPlusTree K V) (input : TreeCall K V) : Prop :=
  tree.config.maxKeys ∈ tree.callSplits input

instance [LinearOrder K] (tree : BPlusTree K V) (input : TreeCall K V) :
    Decidable (SplitsAtMax tree input) :=
  inferInstanceAs (Decidable (_ ∈ _))

section

variable {tree : BPlusTree K V} {items : List (Item K)} {leaves : LeafRow K V}
  {levels : List (Level K)} {least most : Nat}

theorem node?_eq_setParent {nodeId : BTreeNodeId} {node : BPlusTreeNode K V}
    (stored : tree.node? nodeId = some node) : tree.bodyOf nodeId = some (node.setParent none) := by
  rw [bodyOf, stored]
  rfl

/-- An internal node within bounds, unless it is the root. -/
theorem Above.within (above : Above tree items levels) (occupied : Occupied least most levels)
    {nodeId : BTreeNodeId} (mem : nodeId ∈ levelIds levels) (inner : nodeId ≠ tree.rootId) :
    ∃ node : InternalNode K, tree.bodyOf nodeId = some (.internal node) ∧
      least ≤ node.keys.length ∧ node.keys.length ≤ most := by
  induction levels generalizing items with
  | nil => simp at mem
  | cons level upper ih =>
    obtain ⟨rfl, placed, rest⟩ := above
    rcases mem_append.mp mem with isHere | isHigher
    · obtain ⟨place, isPlace, rfl⟩ := mem_map.mp isHere
      have fits := occupied.1 place isPlace
      cases upper with
      | nil =>
        have row : place.2.id ∈ level.items.map Prod.snd := by
          rw [Level.map_snd_items]
          exact isHere
        rw [rest.1] at row
        exact absurd (by simpa using row) inner
      | cons next higher => exact ⟨place.2, (placed place isPlace).body, by simpa using fits⟩
    · exact ih rest occupied.2 isHigher

/-- A leaf that stands alone is the root. -/
theorem Stands.root_of_single (stands : Stands tree leaves levels)
    (occupied : Occupied least most levels) (positive : 1 ≤ least)
    (single : leaves.length = 1) : ∀ nodeId ∈ leaves.ids, nodeId = tree.rootId := by
  have above := stands.above
  cases levels with
  | nil =>
    intro nodeId mem
    rw [← LeafRow.map_snd_items, above.1] at mem
    simpa using mem
  | cons level upper =>
    -- The one leaf would be the only child of a node without keys.
    obtain ⟨row, placed, -⟩ := above
    have lengths := congrArg List.length row
    have itemsLength : leaves.items.length = 1 := by simpa [LeafRow.items] using single
    cases level with
    | nil => simp [itemsLength] at lengths
    | cons place rest =>
      have fits := (occupied.1 place (by simp)).1
      have children := length_childItems place.1 (placed place (by simp)).balanced
      rw [itemsLength, Level.below_cons, length_append] at lengths
      split at fits <;> omega

/-- A sound tree whose levels are occupied has its nodes filled. -/
theorem Sound.nodesFilled [LinearOrder K] (sound : Sound tree leaves levels)
    (minimum : 2 ≤ tree.config.minKeys) (double : tree.config.maxKeys = 2 * tree.config.minKeys)
    (occupied : Occupied tree.config.minKeys tree.config.maxKeys levels) : NodesFilled tree := by
  intro nodeId node stored inner
  have body := node?_eq_setParent stored
  rcases mem_append.mp (sound.stands.covered nodeId (by simp [body])) with isLeaf | isLevel
  · obtain ⟨place, mem, rfl⟩ := mem_map.mp isLeaf
    have several : 1 < leaves.length := by
      by_contra alone
      have present := length_pos_of_mem mem
      exact inner (sound.stands.root_of_single occupied (by omega) (by omega) _ isLeaf)
    have bounds : KeyBounds tree.config 1 tree.config.maxKeys :=
      ⟨⟨le_rfl, by omega, by omega, by omega⟩, by omega⟩
    have filled := sound.filled ⟨_, _, bounds⟩ tree.config.minKeys tree.config.maxKeys
      ⟨by omega, le_rfl, by omega, by omega⟩
    have length : node.len = place.2.entries.length := by
      rw [sound.stands.stored place mem, Option.some.injEq] at body
      rw [← BPlusTreeNode.len_setParent none node, ← body]
      rfl
    rw [length]
    exact ⟨filled.atLeast several place mem, filled.atMost place mem⟩
  · obtain ⟨found, foundBody, fits⟩ := sound.stands.above.within occupied isLevel inner
    have length : node.len = found.keys.length := by
      rw [foundBody, Option.some.injEq] at body
      rw [← BPlusTreeNode.len_setParent none node, ← body]
      rfl
    rwa [length]

end

section

variable [LinearOrder K] {config : BPlusTreeConfig}

/-- A sound tree of the given configuration whose levels are occupied. -/
def ReachedFilled (config : BPlusTreeConfig) (tree : BPlusTree K V) : Prop :=
  tree.config = config ∧ ∃ leaves levels, Sound tree leaves levels ∧
    Occupied config.minKeys config.maxKeys levels

section

variable (minimum : 2 ≤ config.minKeys) (double : config.maxKeys = 2 * config.minKeys)
  {tree : BPlusTree K V} (reached : ReachedFilled config tree) (input : TreeCall K V)

include minimum double reached input

/-- A call that splits no internal node of `max_keys` keys keeps the levels occupied. -/
theorem ReachedFilled.call (even : ¬ SplitsAtMax tree input) :
    ReachedFilled config (tree.call input).2 := by
  obtain ⟨rfl, leaves, levels, sound, occupied⟩ := reached
  obtain ⟨_, new, reshaped, -, next, -, config, kept, -⟩ := sound.call_sizes (by omega) input
  refine ⟨config, new, reshaped, next, kept _ _ ⟨by omega, le_rfl, by omega, by omega⟩
    ⟨occupied, fun size mem => ?_⟩⟩
  have full : tree.config.maxKeys ≤ size := by
    cases input with
    | insert key value => exact maxKeys_le_of_mem_insertSplits mem
    | delete | get | clear => simp [callSplits] at mem
  have more : size ≠ tree.config.maxKeys := by
    rintro rfl
    exact even mem
  omega

/-- A call that splits an internal node of `max_keys` keys leaves a node a key short. -/
theorem ReachedFilled.not_splitsAtMax (filled : NodesFilled (tree.call input).2) :
    ¬ SplitsAtMax tree input := by
  obtain ⟨rfl, leaves, levels, sound, -⟩ := reached
  obtain ⟨_, new, reshaped, -, -, -, config, -, halves⟩ := sound.call_sizes (by omega) input
  intro splits
  obtain ⟨node, body, inner, length⟩ := halves _ splits
  have fits := (filled node.id _ (node?_of_bodyOf body) inner).1
  rw [config, BPlusTreeNode.len_setParent] at fits
  change tree.config.minKeys ≤ node.keys.length at fits
  omega

end

/-- All nodes but the root are within their bounds in every state of a run exactly
when no insert of it splits an internal node that holds `max_keys` keys. -/
theorem nodes_filled_iff (minimum : 2 ≤ config.minKeys)
    (double : config.maxKeys = 2 * config.minKeys) (calls : List (TreeCall K V)) :
    (∀ earlier, earlier <+: calls →
      NodesFilled (BPlusTree.call.final (BPlusTree.new config) earlier)) ↔
      BPlusTree.call.Along (fun tree input => ¬ SplitsAtMax tree input) (BPlusTree.new config)
        calls := by
  refine (Machine.along_iff_prefixes (ReachedFilled config) _ ?_ ?_ ?_ ?_).symm
  · rintro tree ⟨rfl, leaves, levels, sound, occupied⟩
    exact sound.nodesFilled minimum double occupied
  · exact fun tree input reached even => reached.call minimum double input even
  · exact fun tree input reached filled => reached.not_splitsAtMax minimum double input filled
  · exact ⟨rfl, _, _, sound_new config, trivial⟩

end

/-- The inserts of the keys `1` to `count`, in this order. -/
def ascendingInserts (count : Nat) : List (TreeCall Bytes Bytes) :=
  (List.range count).map fun index => .insert [UInt8.ofNat (index + 1)] []

/-- Eight ascending keys split leaves only. -/
theorem ascending_nodes_filled :
    BPlusTree.call.Along (fun tree input => ¬ SplitsAtMax tree input)
        (BPlusTree.new { maxKeys := 4, minKeys := 2 }) (ascendingInserts 8) ∧
      ∀ earlier, earlier <+: ascendingInserts 8 → NodesFilled
        (BPlusTree.call.final (BPlusTree.new { maxKeys := 4, minKeys := 2 }) earlier) :=
  ⟨by decide +kernel, (nodes_filled_iff (by decide) (by decide) _).mpr (by decide +kernel)⟩

/-- The tenth ascending key splits the root, an internal node of four keys, and its
right half keeps a single one. -/
theorem right_half_short : ¬ NodesFilled (BPlusTree.call.final
    (BPlusTree.new { maxKeys := 4, minKeys := 2 }) (ascendingInserts 10)) := by
  intro filled
  have fits := filled ⟨6⟩
    (.internal { id := ⟨6⟩, keys := [[9]], children := [⟨4⟩, ⟨5⟩], parent := some ⟨7⟩ })
    (by decide +kernel) (by decide +kernel)
  exact absurd fits.1 (by decide +kernel)

end Nanograph.BTree
