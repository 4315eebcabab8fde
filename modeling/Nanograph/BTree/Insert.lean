import Nanograph.BTree.Leaves

/-!
# Inserting a key

An insert writes into the leaf the descent finds. A leaf that is full afterwards
is split at its middle entry, and the levels above take in the new leaf.
`insert_spec` states the effect on the row of leaves.
-/

namespace Nanograph.BTree

open List BPlusTree Foundation LeafRow

variable {K V : Type} [LinearOrder K]

/-- What an insert does to the row of leaves. -/
inductive Inserted (config : BPlusTreeConfig) (key : K) (value : V) :
    LeafRow K V → LeafRow K V → Prop where
  | put {before after : LeafRow K V} {low : WithBot K} {leaf : LeafNode K V}
      {front back : List (K × V)} {held : Option V}
      (least : low ≤ (key : WithBot K)) (next : ∀ place ∈ after, (key : WithBot K) < place.1)
      (window : Window leaf.entries key front held back)
      (room : (front ++ (key, value) :: back).length < config.maxKeys) :
      Inserted config key value (before ++ (low, leaf) :: after)
        (before ++ (low, { leaf with entries := front ++ (key, value) :: back }) :: after)
  | split {before after : LeafRow K V} {low : WithBot K} {leaf : LeafNode K V}
      {front back left right : List (K × V)} {held : Option V} {separator : K} {pivot : V}
      {newId : BTreeNodeId}
      (least : low ≤ (key : WithBot K)) (next : ∀ place ∈ after, (key : WithBot K) < place.1)
      (window : Window leaf.entries key front held back)
      (full : config.maxKeys ≤ (front ++ (key, value) :: back).length)
      (cut : front ++ (key, value) :: back = left ++ (separator, pivot) :: right)
      (half : left.length = (front ++ (key, value) :: back).length / 2)
      (fresh : newId ∉ ids (before ++ (low, leaf) :: after)) :
      Inserted config key value (before ++ (low, leaf) :: after)
        (before ++ (low, { leaf with entries := left, next := some newId }) ::
          ((separator : WithBot K),
            { id := newId, entries := (separator, pivot) :: right, next := leaf.next,
              prev := some leaf.id, parent := none }) :: after)

omit [LinearOrder K] in
/-- A leaf is split at its middle entry. -/
theorem LeafNode.split_eq (leaf : LeafNode K V) (nonempty : leaf.entries ≠ []) :
    ∃ left separator pivot right, leaf.entries = left ++ (separator, pivot) :: right ∧
      left.length = leaf.entries.length / 2 ∧
      leaf.split = some ({ leaf with entries := left }, separator,
        { id := leaf.id, entries := (separator, pivot) :: right, next := leaf.next, prev := none,
          parent := leaf.parent }) := by
  have positive := length_pos_of_ne_nil nonempty
  have inside : leaf.entries.length / 2 < leaf.entries.length := by omega
  obtain ⟨⟨separator, pivot⟩, right, rightEq⟩ : ∃ middle right,
      leaf.entries.drop (leaf.entries.length / 2) = middle :: right :=
    ⟨_, _, drop_eq_getElem_cons inside⟩
  refine ⟨leaf.entries.take (leaf.entries.length / 2), separator, pivot, right, ?_, ?_, ?_⟩
  · rw [← rightEq, take_append_drop]
  · rw [length_take]
    omega
  · rw [LeafNode.split, rightEq]
    rfl

/-- The tree after the two halves of a leaf are stored. -/
def putLeaves (tree : BPlusTree K V) (left right : LeafNode K V) : BPlusTree K V :=
  (tree.putNode (.leaf left)).putNode (.leaf right)

variable {tree : BPlusTree K V} {leaves : LeafRow K V}

/-- `splitLeaf` stores both halves and hands the separator up. -/
theorem splitLeaf_run {leaf left right : LeafNode K V} {separator : K}
    (cut : leaf.split = some (left, separator, right)) (bound : Nat) :
    splitLeaf bound (.leaf leaf) tree = attach bound left.id separator ⟨tree.nextNodeId⟩ left.parent
        (putLeaves tree.bumpNodeId { left with next := some ⟨tree.nextNodeId⟩ }
          { right with id := ⟨tree.nextNodeId⟩, prev := some leaf.id, parent := leaf.parent }) := by
  have lifted : (BPlusTreeNode.leaf leaf).splitLeaf ⟨tree.nextNodeId⟩ =
      .ok (.leaf { left with next := some ⟨tree.nextNodeId⟩ }, separator,
        .leaf { right with
          id := ⟨tree.nextNodeId⟩, prev := some leaf.id, parent := leaf.parent }) := by
    simp only [BPlusTreeNode.splitLeaf, cut]
  rw [splitLeaf, run_bind run_allocateNodeId, lifted]
  cases left.parent <;> rfl

section

variable {tree : BPlusTree K V} {before after : LeafRow K V} {low : WithBot K}
  {leaf : LeafNode K V} {levels : List (Level K)}

omit [LinearOrder K] in
/-- A leaf is stored again with other contents. -/
theorem Stands.putLeaf (written : LeafNode K V)
    (stands : Stands tree (before ++ (low, leaf) :: after) levels) (sameId : written.id = leaf.id)
    (sameParent : written.parent = tree.parentOf leaf.id) :
    Stands (tree.putNode (.leaf written)) (before ++ (low, written.body) :: after) levels := by
  have parents : ∀ nodeId,
      (tree.putNode (.leaf written)).parentOf nodeId = tree.parentOf nodeId := by
    intro nodeId
    rw [parentOf_putNode]
    split
    next equal => rw [equal, BPlusTreeNode.parent_leaf, sameParent, BPlusTreeNode.id_leaf, sameId]
    next => rfl
  have change : Reshaped tree (tree.putNode (.leaf written)) [] (ids [(low, leaf)])
      (ids [(low, written.body)]) := by
    simpa [sameId] using Reshaped.putNode [] [leaf.id] stands.keyed (by simp)
      (by simpa using sameId)
  have stored := (stands.rebuild [(low, leaf)] change (by
    intro place mem
    obtain rfl := mem_singleton.mp mem
    rw [bodyOf_putNode]
    exact if_pos rfl)).1
  have sameItems : items (before ++ (low, written.body) :: after) =
      items (before ++ (low, leaf) :: after) := by simp [sameId]
  have sameIds : ids (before ++ (low, written.body) :: after) =
      ids (before ++ (low, leaf) :: after) := by simp [sameId]
  constructor
  · exact stands.keyed.putNode _
  · exact stored
  · rw [sameItems]
    refine stands.above.congr rfl ?_ fun nodeId _ => parents nodeId
    intro nodeId mem
    rw [bodyOf_putNode, if_neg]
    rw [BPlusTreeNode.id_leaf, sameId]
    exact fun equal => (nodup_append.mp stands.distinct.nodup).2.2 leaf.id (by simp) nodeId
      mem equal.symm
  · rw [sameIds]
    exact ⟨stands.distinct.nodup, stands.distinct.allocated⟩
  · rw [sameIds]
    intro nodeId present
    rw [bodyOf_putNode] at present
    split at present
    next equal => simp [equal, sameId]
    next => exact stands.covered nodeId present

/-- The two halves of a leaf stand where the leaf stood, and the levels above take
in the right one. -/
theorem Stands.splitLeaf (left right : LeafNode K V) {separator : K} (bound : Nat)
    (stands : Stands tree (before ++ (low, leaf) :: after) levels)
    (leftId : left.id = leaf.id) (leftParent : left.parent = tree.parentOf leaf.id)
    (rightId : right.id = ⟨tree.nextNodeId⟩) (rightParent : right.parent = tree.parentOf leaf.id)
    (ordered : (before.items ++ (low, leaf.id) :: (↑separator, right.id) ::
      after.items).Pairwise (·.1 < ·.1)) (enough : levels.length ≤ bound) :
    ∃ changed reshaped, attach bound leaf.id separator right.id (tree.parentOf leaf.id)
        (putLeaves tree.bumpNodeId left right) = .ok () changed ∧
      Stands changed (before ++ (low, left.body) :: (↑separator, right.body) :: after) reshaped ∧
      changed.config = tree.config ∧ changed.leftmostLeaf = tree.leftmostLeaf ∧
      (∀ least most, MergeBounds tree.config least most → Occupied least most levels ∧
          (∀ size ∈ splitSizes tree bound (tree.parentOf leaf.id), least ≤ (size - 1) / 2) →
        Occupied least most reshaped) ∧
      ∀ size ∈ splitSizes tree bound (tree.parentOf leaf.id),
        ∃ node : InternalNode K, changed.bodyOf node.id = some (.internal node) ∧
          node.id ≠ changed.rootId ∧ node.keys.length = (size - 1) / 2 := by
  let middle := putLeaves tree.bumpNodeId left right
  have isOld : ∀ nodeId ∈ ids (before ++ (low, leaf) :: after) ++ levelIds levels,
      nodeId ≠ right.id := by
    intro nodeId mem equal
    have allocated := stands.distinct.allocated nodeId mem
    rw [equal, rightId] at allocated
    exact lt_irrefl _ allocated
  have leafOld : leaf.id ≠ right.id := isOld leaf.id (by simp)
  have bodies : ∀ nodeId, middle.bodyOf nodeId = if nodeId = right.id then some (.leaf right.body)
      else if nodeId = leaf.id then some (.leaf left.body)
      else tree.bodyOf nodeId := by
    intro nodeId
    simp only [middle, putLeaves, bodyOf_putNode, bodyOf_bumpNodeId, BPlusTreeNode.id_leaf, leftId]
    rfl
  have parents : ∀ nodeId, middle.parentOf nodeId =
      if nodeId = right.id then tree.parentOf leaf.id else tree.parentOf nodeId := by
    intro nodeId
    simp only [middle, putLeaves, parentOf_putNode, parentOf_bumpNodeId, BPlusTreeNode.id_leaf,
      leftId, BPlusTreeNode.parent_leaf, leftParent, rightParent]
    split
    next => rfl
    next =>
      split
      next equal => rw [equal]
      next => rfl
  have change : Reshaped tree middle [] (ids [(low, leaf)])
      (ids [(low, left.body), (↑separator, right.body)]) := by
    constructor
    · exact ((stands.keyed.bumpNodeId).putNode _).putNode _
    · rfl
    · rfl
    · simp [middle, putLeaves]
    · simp [leftId, rightId, middle, putLeaves]
    · simpa [leftId] using leafOld
    · intro nodeId notOld notNew
      simp only [ids_cons, LeafNode.body_id, ids_nil, mem_cons,
        not_mem_nil, or_false, not_or] at notOld notNew
      rw [bodies, if_neg notNew.2, if_neg notOld]
    · intro nodeId _ notNew _
      simp only [ids_cons, LeafNode.body_id, ids_nil, mem_cons,
        not_mem_nil, or_false, not_or] at notNew
      rw [parents, if_neg notNew.2]
    · simp [leftId]
  obtain ⟨stored, lower⟩ := stands.rebuild [(low, leaf)] change (by
    simp only [mem_cons, not_mem_nil, or_false, forall_eq_or_imp, forall_eq, bodies,
      LeafNode.body_id, leftId]
    exact ⟨(if_neg leafOld).trans (if_pos trivial), if_pos trivial⟩)
  have newItems : items (before ++ ([(low, left.body), (↑separator, right.body)] ++ after)) =
      before.items ++ (low, leaf.id) :: (↑separator, right.id) :: after.items := by
    simp [leftId]
  have rowKept := lower.rowKept rfl stands.distinct fun nodeId mem => by
    obtain ⟨place, listed, rfl⟩ := mem_map.mp mem
    simp [stored place listed]
  rw [← map_snd_items, newItems] at rowKept
  have rowParents : ∀ nodeId ∈ ids (before ++ (low, leaf) :: after),
      middle.parentOf nodeId = tree.parentOf nodeId := fun nodeId mem => by
    rw [parents, if_neg (isOld nodeId (mem_append_left _ mem))]
  obtain ⟨pending, sameSizes⟩ := rowKept.pending (by simpa using stands.above) ordered
    (by simpa using rowParents) (by rw [parents, if_pos rfl])
  have settled := attach_spec pending enough
  rw [← newItems] at settled
  obtain ⟨changed, reshaped, ran, standing, config, leftmost, occupied⟩ :=
    stands.settle lower stored settled
  have halves := attach_halves pending enough ran
  simp only [sameSizes] at occupied halves
  rw [rowParents leaf.id (by simp)] at ran
  exact ⟨changed, reshaped, ran, standing, config, leftmost, occupied, halves⟩

end

/-- The lower bounds of segmented leaves increase. -/
theorem items_ordered (segmented : Segmented leaves.segments) :
    leaves.items.Pairwise (·.1 < ·.1) := by
  rw [items, pairwise_map]
  exact (pairwise_map.mp segmented.bounds).imp And.left

/-- The entries of a leaf stay in its range when a key of that range is written. -/
theorem written_within {before after : LeafRow K V} {low : WithBot K} {leaf : LeafNode K V}
    {front back : List (K × V)} {held : Option V} {key : K} (value : V)
    (segmented : Segmented (segments (before ++ (low, leaf) :: after)))
    (least : low ≤ (key : WithBot K)) (next : ∀ place ∈ after, (key : WithBot K) < place.1)
    (window : Window leaf.entries key front held back) :
    ∀ entry ∈ front ++ (key, value) :: back, low ≤ (entry.1 : WithBot K) ∧
      ∀ behind ∈ segments after, (entry.1 : WithBot K) < behind.1 := by
  intro entry mem
  rcases mem_cut.mp mem with rfl | isOld
  · refine ⟨least, fun behind isAfter => ?_⟩
    obtain ⟨place, listed, rfl⟩ := mem_map.mp isAfter
    exact next place listed
  · have inLeaf : entry ∈ leaf.entries := by
      rw [window.cut]
      simp only [mem_append] at isOld ⊢
      tauto
    refine ⟨segmented.least (low, leaf.entries) (by simp) entry inLeaf, ?_⟩
    have bounds := segmented.bounds
    rw [segments_append, segments_cons, pairwise_append, pairwise_cons] at bounds
    exact fun behind isAfter => (bounds.2.1.1 behind isAfter).2 entry inLeaf

/-- An insert keeps the leaves segmented. -/
theorem Inserted.segmented {config : BPlusTreeConfig} {key : K} {value : V} {new : LeafRow K V}
    (inserted : Inserted config key value leaves new) (segmented : Segmented leaves.segments)
    (splits : 2 ≤ config.maxKeys) : Segmented new.segments := by
  cases inserted with
  | @put before after low leaf front back held least next window room =>
    have within := written_within value segmented least next window
    have sorted := window.sorted_write (segmented.sorted (low, leaf.entries) (by simp)) value
    simp only [segments_append, segments_cons] at segmented ⊢
    refine Segmented.exchange [] [(low, front ++ (key, value) :: back)]
      segmented (.one sorted fun entry mem => (within entry mem).1) ?_ ?_ ?_
    · simp
    · rw [flatMap_singleton]
      exact fun entry mem => (within entry mem).1
    · rw [flatMap_singleton]
      exact fun entry mem => (within entry mem).2
  | @split before after low leaf front back left right held separator pivot newId least next window
      full cut half fresh =>
      have within := written_within value segmented least next window
      have sorted := window.sorted_write (segmented.sorted (low, leaf.entries) (by simp)) value
      have nonempty : left ≠ [] := ne_nil_of_length_pos (by omega)
      rw [cut] at within sorted
      have divided : Segmented [(low, left), (↑separator, (separator, pivot) :: right)] :=
        .two sorted nonempty (fun entry mem => (within entry mem).1) rfl
      have all : [(low, left), (↑separator, (separator, pivot) :: right)].flatMap
          (·.2) = left ++ (separator, pivot) :: right := by simp
      simp only [segments_append, segments_cons] at segmented ⊢
      refine Segmented.exchange [] [(low, left), ((separator : WithBot K),
        (separator, pivot) :: right)] segmented divided ?_ ?_ ?_
      · refine forall_mem_cons.mpr ⟨Or.inl rfl, forall_mem_singleton.mpr (Or.inr ?_)⟩
        exact ⟨(separator, pivot), by simp, rfl⟩
      · rw [all]
        exact fun entry mem => (within entry mem).1
      · rw [all]
        exact fun entry mem => (within entry mem).2

/-- The numbers of keys of the internal nodes that an insert splits. -/
def BPlusTree.insertSplits (tree : BPlusTree K V) (key : K) (value : V) : List Nat :=
  match findLeaf tree.loopBound tree.rootId key tree with
  | .error _ _ => []
  | .ok leafId _ =>
    match tree.node? leafId with
    | none => []
    | some leaf =>
      if (leaf.insertEntry key value).1.isFull tree.config.maxKeys then
        splitSizes tree tree.loopBound leaf.parent
      else []

theorem maxKeys_le_of_mem_insertSplits {key : K} {value : V} {size : Nat}
    (mem : size ∈ tree.insertSplits key value) : tree.config.maxKeys ≤ size := by
  unfold insertSplits at mem
  split at mem
  · simp at mem
  · split at mem
    · simp at mem
    · split at mem
      · exact maxKeys_le_of_mem_splitSizes mem
      · simp at mem

/-- An insert succeeds and writes the key into the row of leaves. -/
theorem insert_spec {levels : List (Level K)} (stands : Stands tree leaves levels)
    (segmented : Segmented leaves.segments) (splits : 2 ≤ tree.config.maxKeys) (key : K) (value : V) :
    ∃ changed new reshaped, BPlusTree.insert key value tree = .ok () changed ∧
      Stands changed new reshaped ∧
      Inserted tree.config key value leaves new ∧ changed.config = tree.config ∧
      changed.leftmostLeaf = tree.leftmostLeaf ∧
      (∀ least most, MergeBounds tree.config least most → Occupied least most levels ∧
          (∀ size ∈ tree.insertSplits key value, least ≤ (size - 1) / 2) →
        Occupied least most reshaped) ∧
      ∀ size ∈ tree.insertSplits key value,
        ∃ node : InternalNode K, changed.bodyOf node.id = some (.internal node) ∧
          node.id ≠ changed.rootId ∧ node.keys.length = (size - 1) / 2 := by
  obtain ⟨before, low, leaf, after, rfl, least, next, found⟩ :=
    stands.findLeaf (items_ordered segmented) key
  have leafStored := stands.leafNode (low, leaf) (by simp)
  have sorted : Sorted leaf.entries := segmented.sorted (low, leaf.entries) (by simp)
  obtain ⟨front, held, back, window⟩ := exists_window sorted key
  let written : LeafNode K V :=
    { leaf with entries := front ++ (key, value) :: back, parent := tree.parentOf leaf.id }
  have inserted : ({ leaf with parent := tree.parentOf leaf.id } : LeafNode K V).insert key value =
      (written, held) :=
    LeafNode.insert_window { leaf with parent := tree.parentOf leaf.id } window value
  have sizes : tree.insertSplits key value = if tree.config.maxKeys ≤ written.entries.length then
        splitSizes tree tree.loopBound (tree.parentOf leaf.id)
      else [] := by
    rw [insertSplits, found]
    simp only [leafStored, BPlusTreeNode.insertEntry, inserted, BPlusTreeNode.isFull,
      BPlusTreeNode.len, BPlusTreeNode.parent_leaf, decide_eq_true_eq]
  have start : BPlusTree.insert key value tree =
      if tree.config.maxKeys ≤ written.entries.length then
        splitLeaf tree.loopBound (.leaf written) tree
      else updateNode (.leaf written) tree := by
    rw [BPlusTree.insert, run_bind run_get, run_bind found, run_bind (run_getNode leafStored),
      run_ite]
    simp only [BPlusTreeNode.insertEntry, inserted, BPlusTreeNode.isFull, BPlusTreeNode.len,
      decide_eq_true_eq]
  have orphan : leaf.parent = none := stands.leaf_parent (low, leaf) (by simp)
  by_cases full : tree.config.maxKeys ≤ written.entries.length
  · obtain ⟨left, separator, pivot, right, cut, half, splitEq⟩ :=
      LeafNode.split_eq written (by simp [written])
    let newId : BTreeNodeId := ⟨tree.nextNodeId⟩
    have fresh : newId ∉ ids (before ++ (low, leaf) :: after) := by
      intro mem
      exact lt_irrefl _ (stands.distinct.allocated newId (mem_append_left _ mem))
    have inserted : Inserted tree.config key value (before ++ (low, leaf) :: after) _ :=
      .split least next window full cut half fresh
    have ordered := items_ordered (inserted.segmented segmented splits)
    have enough := stands.loopBound
    obtain ⟨changed, reshaped, ran, standing, rest⟩ := stands.splitLeaf
      { written with entries := left, next := some newId }
      { id := newId, entries := (separator, pivot) :: right, next := leaf.next,
        prev := some leaf.id, parent := tree.parentOf leaf.id }
      tree.loopBound rfl rfl rfl rfl (by simpa using ordered) (by omega)
    rw [sizes, if_pos full]
    refine ⟨changed, _, reshaped, ?_, standing, ?_, rest⟩
    · rw [start, if_pos full, splitLeaf_run splitEq]
      exact ran
    · simpa only [written, LeafNode.body, orphan] using inserted
  · rw [start, if_neg full, sizes, if_neg full]
    refine ⟨_, _, levels, run_updateNode _, stands.putLeaf written rfl rfl, ?_, rfl,
      rfl, fun _ _ _ occupied => occupied.1, by simp⟩
    simpa only [written, LeafNode.body, orphan] using
      Inserted.put least next window (by simpa [written] using full)

end Nanograph.BTree
