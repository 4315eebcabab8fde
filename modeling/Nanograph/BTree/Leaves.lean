import Nanograph.BTree.Growth
import Nanograph.BTree.Shrink
import Nanograph.Foundation.SortedEntries
import Nanograph.Foundation.Chain

/-!
# The row of leaves

The leaves of a tree form the lowest row. `Stands tree leaves levels` says that
the stored nodes are exactly these leaves and the nodes of the levels above them.
What the leaves hold and how they are linked is read off the list: its segments,
its links forward and its links backward.
-/

namespace Nanograph.BTree

open List BPlusTree Foundation

variable {K V : Type}

/-- A leaf with its parent pointer cleared. -/
@[simps id] def LeafNode.body (leaf : LeafNode K V) : LeafNode K V := { leaf with parent := none }

/-- The leaves from left to right, each with the lower bound of its keys and
without its parent pointer. -/
abbrev LeafRow (K V : Type) := List (WithBot K × LeafNode K V)

namespace LeafRow

def items (leaves : LeafRow K V) : List (Item K) := leaves.map fun place => (place.1, place.2.id)

def ids (leaves : LeafRow K V) : List BTreeNodeId := leaves.map (·.2.id)

/-- The entries of each leaf with the bound of the leaf. -/
def segments (leaves : LeafRow K V) : List (WithBot K × List (K × V)) :=
  leaves.map fun place => (place.1, place.2.entries)

/-- All entries, leaf after leaf. -/
def entries (leaves : LeafRow K V) : List (K × V) := leaves.flatMap (·.2.entries)

/-- The leaves with their `next` links. -/
def nexts (leaves : LeafRow K V) : List (BTreeNodeId × Option BTreeNodeId) :=
  leaves.map fun place => (place.2.id, place.2.next)

/-- The leaves with their `prev` links. -/
def prevs (leaves : LeafRow K V) : List (BTreeNodeId × Option BTreeNodeId) :=
  leaves.map fun place => (place.2.id, place.2.prev)

variable (left right : LeafRow K V) (place : WithBot K × LeafNode K V)

@[simp] theorem items_nil : items ([] : LeafRow K V) = [] := rfl
@[simp] theorem ids_nil : ids ([] : LeafRow K V) = [] := rfl
@[simp] theorem segments_nil : segments ([] : LeafRow K V) = [] := rfl
@[simp] theorem entries_nil : entries ([] : LeafRow K V) = [] := rfl
@[simp] theorem nexts_nil : nexts ([] : LeafRow K V) = [] := rfl
@[simp] theorem prevs_nil : prevs ([] : LeafRow K V) = [] := rfl

@[simp] theorem items_cons : items (place :: right) = (place.1, place.2.id) :: right.items := rfl
@[simp] theorem ids_cons : ids (place :: right) = place.2.id :: right.ids := rfl
@[simp] theorem segments_cons :
    segments (place :: right) = (place.1, place.2.entries) :: right.segments := rfl
@[simp] theorem entries_cons : entries (place :: right) = place.2.entries ++ right.entries := rfl
@[simp] theorem nexts_cons :
    nexts (place :: right) = (place.2.id, place.2.next) :: right.nexts := rfl
@[simp] theorem prevs_cons :
    prevs (place :: right) = (place.2.id, place.2.prev) :: right.prevs := rfl

@[simp] theorem items_append : items (left ++ right) = left.items ++ right.items := by simp [items]
@[simp] theorem ids_append : ids (left ++ right) = left.ids ++ right.ids := by simp [ids]
@[simp] theorem segments_append : segments (left ++ right) = left.segments ++ right.segments := by
  simp [segments]
@[simp] theorem entries_append : entries (left ++ right) = left.entries ++ right.entries := by
  simp [entries]
@[simp] theorem nexts_append : nexts (left ++ right) = left.nexts ++ right.nexts := by simp [nexts]
@[simp] theorem prevs_append : prevs (left ++ right) = left.prevs ++ right.prevs := by simp [prevs]

@[simp] theorem map_snd_items : left.items.map Prod.snd = left.ids := by simp [items, ids]

theorem flatMap_segments : left.segments.flatMap (·.2) = left.entries := by
  simp [segments, entries, flatMap_map]

variable {left right place}

/-- The `next` link of a leaf in a chain. -/
theorem next_eq (linked : LinkedTo none (nexts (left ++ place :: right))) :
    place.2.next = firstOf right.nexts none := by
  rw [nexts_append] at linked
  exact (linkedTo_append.mp linked).2.1

/-- The `prev` link of a leaf in a chain. -/
theorem prev_eq (linked : LinkedFrom none (prevs (left ++ place :: right))) :
    place.2.prev = lastOf left.prevs none := by
  rw [prevs_append] at linked
  exact (linkedFrom_append.mp linked).2.1

end LeafRow

/-- The stored nodes are the leaves and the nodes of the levels above them. -/
structure Stands (tree : BPlusTree K V) (leaves : LeafRow K V) (levels : List (Level K)) :
    Prop where
  keyed : tree.Keyed
  stored : ∀ place ∈ leaves, tree.bodyOf place.2.id = some (.leaf place.2)
  above : Above tree leaves.items levels
  distinct : Distinct tree (leaves.ids ++ levelIds levels)
  covered : ∀ nodeId, tree.bodyOf nodeId ≠ none → nodeId ∈ leaves.ids ++ levelIds levels

/-- A run of the levels above succeeds over new leaves and keeps bounds on the numbers of keys. -/
def SettlesLeaves (ran : EStateM.Result Fault (BPlusTree K V) Unit) (tree : BPlusTree K V)
    (new : LeafRow K V) (held : Nat → Nat → Prop) : Prop :=
  ∃ changed reshaped, ran = .ok () changed ∧ Stands changed new reshaped ∧
    changed.config = tree.config ∧ changed.leftmostLeaf = tree.leftmostLeaf ∧
    ∀ least most, MergeBounds tree.config least most → held least most →
      Occupied least most reshaped

namespace Stands

variable {tree middle : BPlusTree K V} {leaves new : LeafRow K V} {levels : List (Level K)}

section

variable (stands : Stands tree leaves levels) (place : WithBot K × LeafNode K V)
  (mem : place ∈ leaves)

include stands place mem

/-- A leaf is stored with its parent pointer. -/
theorem leafNode :
    tree.node? place.2.id = some (.leaf { place.2 with parent := tree.parentOf place.2.id }) :=
  node?_of_bodyOf (stands.stored place mem)

theorem leaf_parent : place.2.parent = none := by
  have stored := stands.stored place mem
  rw [bodyOf, stands.leafNode _ mem, Option.map_some, Option.some.injEq] at stored
  exact congrArg BPlusTreeNode.parent stored.symm

end

/-- New leaves are in place and the levels above them settle. -/
theorem settle {run : TreeM K V Unit} {held : Nat → Nat → Prop}
    (stands : Stands tree leaves levels) (lower : Reshaped tree middle [] leaves.ids new.ids)
    (stored : ∀ place ∈ new, middle.bodyOf place.2.id = some (.leaf place.2))
    (settled : Settles run middle new.items (levelIds levels) held) :
    SettlesLeaves (run middle) tree new held := by
  obtain ⟨changed, reshaped, ran, above, change, occupied⟩ := settled
  have middleDistinct : Distinct middle (new.ids ++ levelIds levels) :=
    (lower.distinct_row _ (stands.distinct.perm perm_append_comm)).perm perm_append_comm
  have changedDistinct := change.distinct_row _ middleDistinct
  refine ⟨changed, reshaped, ran, ?_, change.config.trans lower.config,
    change.leftmost.trans lower.leftmost, lower.config ▸ occupied⟩
  constructor
  · exact change.keyed
  · intro place mem
    have listed : place.2.id ∈ new.ids := mem_map_of_mem mem
    rw [change.bodies, stored place mem]
    · exact fun inLevels =>
        (nodup_append.mp middleDistinct.nodup).2.2 _ listed _ inLevels rfl
    · exact fun inLevels =>
        (nodup_append.mp changedDistinct.nodup).2.2 _ listed _ inLevels rfl
  · exact above
  · exact changedDistinct
  · intro nodeId present
    by_contra outside
    rw [mem_append, not_or] at outside
    -- Neither kept by the levels nor by the leaves, so stored before and left out then.
    by_cases inLevels : nodeId ∈ levelIds levels
    · exact present (change.gone nodeId inLevels outside.2)
    · rw [change.bodies nodeId inLevels outside.2] at present
      by_cases inLeaves : nodeId ∈ leaves.ids
      · exact present (lower.gone nodeId inLeaves outside.1)
      · rw [lower.bodies nodeId inLeaves outside.1] at present
        rcases mem_append.mp (stands.covered nodeId present) with isLeaf | isLevel
        · exact inLeaves isLeaf
        · exact inLevels isLevel

end Stands

section

variable {tree : BPlusTree K V} {items : List (Item K)} {levels : List (Level K)}
  (above : Above tree items levels)

include above

theorem Above.stored : ∀ nodeId ∈ levelIds levels, tree.bodyOf nodeId ≠ none := by
  induction levels generalizing items with
  | nil => simp
  | cons level upper ih =>
    obtain ⟨-, placed, rest⟩ := above
    intro nodeId mem
    rcases mem_append.mp mem with here | higher
    · obtain ⟨place, listed, rfl⟩ := mem_map.mp here
      simp [(placed place listed).body]
    · exact ih rest nodeId higher

/-- No row is empty, so there are at least as many nodes as levels. -/
theorem Above.length_le : items ≠ [] ∧ levels.length ≤ (levelIds levels).length := by
  induction levels generalizing items with
  | nil => simp [above.1]
  | cons level upper ih =>
    obtain ⟨rfl, placed, rest⟩ := above
    obtain ⟨nonempty, higher⟩ := ih rest
    obtain ⟨place, others, rfl⟩ := exists_cons_of_ne_nil
      (show level ≠ [] by rintro rfl; exact nonempty rfl)
    have length := length_childItems place.1 (placed place (by simp)).balanced
    refine ⟨fun empty => ?_, ?_⟩
    · simp only [Level.below_cons, append_eq_nil_iff] at empty
      simp [empty.1] at length
    · simp only [length_cons, levelIds_cons, Level.ids_cons, cons_append, length_append]
      omega

end

namespace Stands

variable {tree middle : BPlusTree K V} {leaves before mid after rebuilt : LeafRow K V}
  {levels : List (Level K)}

/-- Some leaves are exchanged for others. -/
theorem rebuild (mid : LeafRow K V) (stands : Stands tree (before ++ (mid ++ after)) levels)
    (change : Reshaped tree middle [] mid.ids rebuilt.ids)
    (stored : ∀ place ∈ rebuilt, middle.bodyOf place.2.id = some (.leaf place.2)) :
    (∀ place ∈ before ++ (rebuilt ++ after), middle.bodyOf place.2.id = some (.leaf place.2)) ∧
      Reshaped tree middle [] (LeafRow.ids (before ++ (mid ++ after)))
        (LeafRow.ids (before ++ (rebuilt ++ after))) := by
  have distinct : Distinct tree (before.ids ++ (mid.ids ++ after.ids)) := by
    refine ⟨?_, fun nodeId mem => stands.distinct.allocated nodeId ?_⟩
    · simpa using (nodup_append.mp stands.distinct.nodup).1
    · simp only [LeafRow.ids_append, mem_append] at mem ⊢
      tauto
  constructor
  · intro place mem
    have either : place ∈ rebuilt ∨ place ∈ before ++ after := by
      simp only [mem_append] at mem ⊢
      tauto
    rcases either with new | other
    · exact stored place new
    · have listed : place.2.id ∈ before.ids ++ after.ids := by
        rw [← LeafRow.ids_append]
        exact mem_map_of_mem other
      have notMid : place.2.id ∉ mid.ids := by
        have nodup := distinct.nodup
        grind
      have allocated := distinct.allocated place.2.id (by
        simp only [mem_append] at listed ⊢
        tauto)
      have notNew : place.2.id ∉ rebuilt.ids := by
        intro isNew
        rcases change.fresh _ isNew with old | ⟨above, -⟩
        · exact notMid old
        · omega
      rw [change.bodies _ notMid notNew]
      apply stands.stored
      simp only [mem_append] at other ⊢
      tauto
  · simp only [LeafRow.ids_append]
    exact change.widen distinct (by simp)

section

variable (stands : Stands tree leaves levels)

include stands

theorem leaves_ne_nil : leaves ≠ [] := by
  rintro rfl
  exact stands.above.length_le.1 rfl

/-- Every row fits into the bound on loops. -/
theorem length_le_loopBound : leaves.length + (levelIds levels).length ≤ tree.loopBound := by
  have present : leaves.ids ++ levelIds levels ⊆ tree.nodes.keys := by
    intro nodeId mem
    have stored : tree.bodyOf nodeId ≠ none := by
      rcases mem_append.mp mem with isLeaf | isLevel
      · obtain ⟨place, listed, rfl⟩ := mem_map.mp isLeaf
        simp [stands.stored place listed]
      · exact stands.above.stored nodeId isLevel
    rw [← AList.mem_keys, ← AList.lookup_isSome]
    exact Option.isSome_iff_ne_none.mpr (mt bodyOf_eq_none.mpr stored)
  have counted := (subperm_of_subset stands.distinct.nodup present).length_le
  rw [length_append, LeafRow.ids, length_map] at counted
  exact counted.trans (Nat.le_succ _)

/-- The bound on loops is more than the height of the tree. -/
theorem loopBound : levels.length + 1 ≤ tree.loopBound := by
  have counted := stands.length_le_loopBound
  have height := stands.above.length_le.2
  have some := length_pos_of_ne_nil stands.leaves_ne_nil
  omega

end

variable [LinearOrder K]

/-- The descent ends at the last leaf whose bound is at most the key. -/
theorem findLeaf (stands : Stands tree leaves levels) (ordered : leaves.items.Pairwise (·.1 < ·.1))
    (key : K) :
    ∃ before low leaf after, leaves = before ++ (low, leaf) :: after ∧ low ≤ (key : WithBot K) ∧
      (∀ place ∈ after, (key : WithBot K) < place.1) ∧
      BPlusTree.findLeaf tree.loopBound tree.rootId key tree = .ok leaf.id tree := by
  obtain ⟨rowBefore, item, rowAfter, located, descends⟩ :=
    findLeaf_descends stands.above ordered key
  obtain ⟨before, rest, leavesEq, rfl, restEq⟩ := map_eq_append_iff.mp located.cut
  obtain ⟨⟨low, leaf⟩, after, rfl, rfl, rfl⟩ := map_eq_cons_iff.mp restEq
  refine ⟨before, low, leaf, after, leavesEq, located.least, ?_, ?_⟩
  · exact fun place mem => located.next _ (mem_map_of_mem mem)
  · have enough := stands.loopBound
    obtain ⟨extra, boundEq⟩ : ∃ extra, tree.loopBound = levels.length + (extra + 1) :=
      ⟨tree.loopBound - levels.length - 1, by omega⟩
    have leafStored := stands.leafNode (low, leaf) (by simp [leavesEq])
    rw [boundEq, descends, BPlusTree.findLeaf, run_bind (run_getNode leafStored)]
    rfl

end Stands

namespace LeafNode

variable [LinearOrder K] {leaf : LeafNode K V} {key : K} {before after : List (K × V)}
  {held : Option V}

/-- The search of a leaf ends at the window of the key. -/
theorem findKeyIndex_window (window : Window leaf.entries key before held after) :
    leaf.findKeyIndex key = if held.isSome then .ok before.length else .error before.length :=
  window.searchKey_eq

section

variable (leaf) (window : Window leaf.entries key before held after)

include leaf window

theorem get_window : leaf.get key = held := by
  rw [LeafNode.get, findKeyIndex_window window]
  cases held with
  | none => rfl
  | some value => simp [window.cut]

theorem insert_window (value : V) :
    leaf.insert key value = ({ leaf with entries := before ++ (key, value) :: after }, held) := by
  rw [LeafNode.insert, findKeyIndex_window window]
  cases held with
  | none => simp [window.cut, insertIdx_cut]
  | some old => simp [window.cut, modify_cut]

theorem remove_window :
    leaf.remove key =
      ({ leaf with entries := if held.isSome then before ++ after else leaf.entries }, held) := by
  rw [LeafNode.remove, findKeyIndex_window window]
  cases held with
  | none => rfl
  | some old => simp [window.cut, eraseIdx_cut]

end

end LeafNode

end Nanograph.BTree
