import Nanograph.BTree.Insert

/-!
# Deleting a key

A delete removes the entry from the leaf the descent finds. A leaf that falls
short borrows one entry from a sibling or is merged with it; the levels above
take the new separator or let go of the merged leaf. `delete_spec` states the
effect on the row of leaves.
-/

namespace Nanograph.BTree

open List Option BPlusTree Foundation LeafRow BPlusTreeNode LeafNode

variable {K V : Type}

/-- The leaf behind a merged one points back at the leaf that stays. -/
def LeafRow.relink (prevId : BTreeNodeId) : LeafRow K V → LeafRow K V
  | [] => []
  | place :: rest => (place.1, { place.2 with prev := some prevId }) :: rest

/-- No level, or a node without keys in the lowest one: there a leaf may have no
sibling. -/
def Bare (levels : List (Level K)) : Prop :=
  ∀ level ∈ levels.head?, ∃ place ∈ level, place.2.keys = []

/-- What a delete does to the row of leaves, and the result it returns. -/
inductive Deleted [LinearOrder K] (config : BPlusTreeConfig) (levels : List (Level K)) (key : K) :
    LeafRow K V → Bool → LeafRow K V → Prop where
  | missing {before after : LeafRow K V} {low : WithBot K} {leaf : LeafNode K V}
      {front back : List (K × V)}
      (least : low ≤ (key : WithBot K)) (next : ∀ place ∈ after, (key : WithBot K) < place.1)
      (window : Window leaf.entries key front none back) :
      Deleted config levels key (before ++ (low, leaf) :: after) false
        (before ++ (low, leaf) :: after)
  | plain {before after : LeafRow K V} {low : WithBot K} {leaf : LeafNode K V}
      {front back : List (K × V)} {value : V}
      (least : low ≤ (key : WithBot K)) (next : ∀ place ∈ after, (key : WithBot K) < place.1)
      (window : Window leaf.entries key front (some value) back)
      (kept : config.minKeys ≤ (front ++ back).length ∨ Bare levels) :
      Deleted config levels key (before ++ (low, leaf) :: after) true
        (before ++ (low, { leaf with entries := front ++ back }) :: after)
  | borrowLeft {before after : LeafRow K V} {low siblingLow : WithBot K}
      {leaf sibling : LeafNode K V} {front back kept : List (K × V)} {value : V} {moved : K × V}
      (least : low ≤ (key : WithBot K)) (next : ∀ place ∈ after, (key : WithBot K) < place.1)
      (window : Window leaf.entries key front (some value) back)
      (short : (front ++ back).length < config.minKeys)
      (given : sibling.entries = kept ++ [moved]) (spare : config.minKeys ≤ kept.length) :
      Deleted config levels key (before ++ (siblingLow, sibling) :: (low, leaf) :: after) true
        (before ++ (siblingLow, { sibling with entries := kept }) ::
          ((moved.1 : WithBot K), { leaf with entries := moved :: (front ++ back) }) :: after)
  | borrowRight {before after : LeafRow K V} {low siblingLow : WithBot K}
      {leaf sibling : LeafNode K V} {front back kept : List (K × V)} {value : V}
      {moved first : K × V}
      (least : low ≤ (key : WithBot K))
      (next : ∀ place ∈ (siblingLow, sibling) :: after, (key : WithBot K) < place.1)
      (window : Window leaf.entries key front (some value) back)
      (short : (front ++ back).length < config.minKeys)
      (given : sibling.entries = moved :: first :: kept)
      (spare : config.minKeys ≤ (first :: kept).length) :
      Deleted config levels key (before ++ (low, leaf) :: (siblingLow, sibling) :: after) true
        (before ++ (low, { leaf with entries := front ++ back ++ [moved] }) ::
          ((first.1 : WithBot K), { sibling with entries := first :: kept }) :: after)
  | mergeLeft {before after : LeafRow K V} {low siblingLow : WithBot K}
      {leaf sibling : LeafNode K V} {front back : List (K × V)} {value : V}
      (least : low ≤ (key : WithBot K)) (next : ∀ place ∈ after, (key : WithBot K) < place.1)
      (window : Window leaf.entries key front (some value) back)
      (short : (front ++ back).length < config.minKeys)
      (full : sibling.entries.length ≤ config.minKeys) :
      Deleted config levels key (before ++ (siblingLow, sibling) :: (low, leaf) :: after) true
        (before ++ (siblingLow, { sibling with
            entries := sibling.entries ++ (front ++ back), next := leaf.next }) ::
          relink sibling.id after)
  | mergeRight {before after : LeafRow K V} {low siblingLow : WithBot K}
      {leaf sibling : LeafNode K V} {front back : List (K × V)} {value : V}
      (least : low ≤ (key : WithBot K))
      (next : ∀ place ∈ (siblingLow, sibling) :: after, (key : WithBot K) < place.1)
      (window : Window leaf.entries key front (some value) back)
      (short : (front ++ back).length < config.minKeys)
      (full : sibling.entries.length ≤ config.minKeys) :
      Deleted config levels key (before ++ (low, leaf) :: (siblingLow, sibling) :: after) true
        (before ++ (low, { leaf with
            entries := front ++ back ++ sibling.entries, next := sibling.next }) ::
          relink leaf.id after)

variable {levels : List (Level K)} {leaves : LeafRow K V}

section

variable {tree : BPlusTree K V} {leaf sibling : LeafNode K V} {parent : InternalNode K}
  {siblingId : BTreeNodeId}

section

variable (leaf parent) (owner : leaf.parent = some parent.id)
  (siblingStored : tree.node? siblingId = some (.leaf sibling)) {kept : List (K × V)}
  {moved : K × V}

include leaf parent owner siblingStored

theorem borrowFromLeft_leaf (given : sibling.entries = kept ++ [moved]) :
    borrowFromLeft (.leaf leaf) siblingId tree =
      updateSeparatorKey parent.id leaf.id (putLeaves tree { sibling with entries := kept }
        { leaf with entries := moved :: leaf.entries }) := by
  have ownerEq : (BPlusTreeNode.leaf leaf).parent = some parent.id := owner
  rw [borrowFromLeft, run_bind (run_getNode siblingStored), ownerEq]
  simp only [given, getLast?_append, getLast?_singleton, some_or,
    toList_some, dropLast_concat, singleton_append]
  rfl

theorem borrowFromRight_leaf (given : sibling.entries = moved :: kept) :
    borrowFromRight (.leaf leaf) siblingId tree =
      updateSeparatorKey parent.id siblingId (putLeaves tree { sibling with entries := kept }
        { leaf with entries := leaf.entries ++ [moved] }) := by
  have ownerEq : (BPlusTreeNode.leaf leaf).parent = some parent.id := owner
  rw [borrowFromRight, run_bind (run_getNode siblingStored), ownerEq]
  simp only [given, head?_cons, tail_cons, toList_some]
  rfl

end

/-- The separator before a child becomes the child's first key. -/
theorem updateSeparatorKey_run (parent : InternalNode K) {child : LeafNode K V} {pos : Nat}
    {separator : K} {first : K × V} {rest : List (K × V)}
    (parentStored : tree.node? parent.id = some (.internal parent))
    (childStored : tree.node? child.id = some (.leaf child))
    (separated : parent.separatorBefore child.id = some (pos, separator))
    (entries : child.entries = first :: rest) :
    updateSeparatorKey parent.id child.id tree = .ok ()
      (tree.putNode (.internal { parent with keys := parent.keys.set (pos - 1) first.1 })) := by
  rw [updateSeparatorKey, run_bind (run_getNode parentStored), run_bind (run_getNode childStored)]
  simp only [separated, firstKey?, entries, head?_cons, map_some]
  rfl

section

variable (leaf parent) (removeFromParent : BTreeNodeId → BTreeNodeId → TreeM K V Unit)
  {relinked : BPlusTree K V} (owner : leaf.parent = some parent.id)
  (siblingStored : tree.node? siblingId = some (.leaf sibling))

include removeFromParent leaf parent owner siblingStored

theorem mergeWithLeft_leaf (linked : relinkNext leaf.next siblingId tree = .ok () relinked) :
    mergeWithLeft removeFromParent (.leaf leaf) siblingId tree =
      removeFromParent parent.id leaf.id ((relinked.putNode (.leaf { sibling with
        entries := sibling.entries ++ leaf.entries, next := leaf.next })).dropNode leaf.id) := by
  have ownerEq : (BPlusTreeNode.leaf leaf).parent = some parent.id := owner
  rw [mergeWithLeft, run_bind (run_getNode siblingStored), ownerEq]
  simp only [BPlusTreeNode.id_leaf]
  rw [run_bind linked]
  rfl

theorem mergeWithRight_leaf (linked : relinkNext sibling.next leaf.id tree = .ok () relinked) :
    mergeWithRight removeFromParent (.leaf leaf) siblingId tree =
      removeFromParent parent.id siblingId ((relinked.putNode (.leaf { leaf with
        entries := leaf.entries ++ sibling.entries
        next := sibling.next })).dropNode siblingId) := by
  have ownerEq : (BPlusTreeNode.leaf leaf).parent = some parent.id := owner
  rw [mergeWithRight, run_bind (run_getNode siblingStored), ownerEq]
  simp only [BPlusTreeNode.id_leaf]
  rw [run_bind linked]
  rfl

end

/-- The leaf behind a merged one is stored with its new `prev` link. -/
theorem Stands.relinkNext (front after : LeafRow K V) (stands : Stands tree (front ++ after) levels)
    (prevId : BTreeNodeId) :
    ∃ relinked, BPlusTree.relinkNext (firstOf after.nexts none) prevId tree = .ok () relinked ∧
      Stands relinked (front ++ relink prevId after) levels ∧
      relinked.config = tree.config ∧ relinked.leftmostLeaf = tree.leftmostLeaf ∧
      ∀ nodeId, relinked.parentOf nodeId = tree.parentOf nodeId := by
  cases after with
  | nil => exact ⟨tree, rfl, stands, rfl, rfl, fun _ => rfl⟩
  | cons place rest =>
    obtain ⟨low, next⟩ := place
    have nextStored := stands.leafNode (low, next) (by simp)
    let written : LeafNode K V :=
      { next with prev := some prevId, parent := tree.parentOf next.id }
    refine ⟨tree.putNode (.leaf written), ?_, ?_, rfl, rfl, ?_⟩
    · simp only [BPlusTree.relinkNext, nexts_cons, firstOf_cons]
      rw [run_bind (run_getNode nextStored)]
      rfl
    · have orphan : next.parent = none := stands.leaf_parent (low, next) (by simp)
      simpa only [relink, body, orphan] using stands.putLeaf written rfl rfl
    · intro nodeId
      rw [parentOf_putNode]
      split
      next equal => rw [equal]; rfl
      next => rfl

variable {middle : BPlusTree K V} {before after : LeafRow K V} {firstLow secondLow : WithBot K}
  {first second newFirst newSecond merged : LeafNode K V} {parentBefore parentAfter : Level K}
  {low : WithBot K} {upper : List (Level K)} {front back : List (Item K)}

/-- The identifiers of two adjacent leaves and of their row. -/
theorem Stands.pair_apart
    (stands : Stands tree (before ++ (firstLow, first) :: (secondLow, second) :: after) levels) :
    first.id ≠ second.id ∧
      ((before.items ++ (firstLow, first.id) :: (secondLow, second.id) :: after.items).map
        Prod.snd).Nodup := by
  have leavesNodup := (nodup_append.mp stands.distinct.nodup).1
  refine ⟨?_, by simpa using leavesNodup⟩
  simp only [ids_append, ids_cons, nodup_append, nodup_cons, mem_cons] at leavesNodup
  grind

section

variable (stands : Stands tree (before ++ (firstLow, first) :: (secondLow, second) :: after)
    ((parentBefore ++ (low, parent) :: parentAfter) :: upper))
  (shared : Shared tree before.items (firstLow, first.id) (secondLow, second.id) after.items
    parentBefore low parent parentAfter upper front back)

include stands shared

/-- An entry moves between two leaves, and their parent takes the new separator. -/
theorem Stands.borrow (newFirst newSecond : LeafNode K V) {entry : K × V} {rest : List (K × V)}
    (firstId : newFirst.id = first.id) (secondId : newSecond.id = second.id)
    (firstParent : newFirst.parent = tree.parentOf first.id)
    (secondParent : newSecond.parent = tree.parentOf second.id)
    (starts : newSecond.entries = entry :: rest)
    (same : SameNodes middle (putLeaves tree newFirst newSecond)) :
    SettlesLeaves (updateSeparatorKey parent.id second.id middle) tree
      (before ++ (firstLow, newFirst.body) :: (↑entry.1, newSecond.body) :: after)
      (Occupied · · ((parentBefore ++ (low, parent) :: parentAfter) :: upper)) := by
  obtain ⟨apart, rowNodup⟩ := stands.pair_apart
  have bodies : ∀ nodeId, middle.bodyOf nodeId =
      if nodeId = second.id then some (.leaf newSecond.body)
      else if nodeId = first.id then some (.leaf newFirst.body)
      else tree.bodyOf nodeId := by
    intro nodeId
    simp only [same.bodyOf, putLeaves, bodyOf_putNode, BPlusTreeNode.id_leaf, firstId, secondId]
    rfl
  have parents : ∀ nodeId, middle.parentOf nodeId = tree.parentOf nodeId := by
    intro nodeId
    simp only [same.parentOf, putLeaves, parentOf_putNode, BPlusTreeNode.id_leaf,
      parent_leaf, firstId, secondId, firstParent, secondParent]
    split
    next equal => rw [equal]
    next =>
      split
      next equal => rw [equal]
      next => rfl
  have change : Reshaped tree middle [] (ids [(firstLow, first), (secondLow, second)])
      (ids [(firstLow, newFirst.body), (↑entry.1, newSecond.body)]) := by
    have sameIds :
        ids [(firstLow, newFirst.body), (↑entry.1, newSecond.body)] =
        ids [(firstLow, first), (secondLow, second)] := by simp [firstId, secondId]
    rw [sameIds]
    constructor
    · exact same.keyed ((stands.keyed.putNode _).putNode _)
    · exact same.config
    · exact same.leftmostLeaf
    · exact same.nextNodeId.ge
    · exact fun nodeId mem => Or.inl mem
    · simpa using apart
    · intro nodeId notOld _
      simp only [ids_cons, ids_nil, mem_cons, not_mem_nil, or_false, not_or] at notOld
      rw [bodies, if_neg notOld.2, if_neg notOld.1]
    · exact fun nodeId _ _ _ => parents nodeId
    · exact fun nodeId isOld notNew => absurd isOld notNew
  obtain ⟨stored, lower⟩ := stands.rebuild [(firstLow, first), (secondLow, second)] change (by
      simp only [mem_cons, not_mem_nil, or_false, forall_eq_or_imp, forall_eq, bodies,
        body_id, firstId, secondId]
      exact ⟨(if_neg apart).trans (if_pos trivial), if_pos trivial⟩)
  have rowKept := lower.rowKept same.rootId stands.distinct fun nodeId mem => by
    obtain ⟨place, listed, rfl⟩ := mem_map.mp mem
    simp [stored place listed]
  have ran : updateSeparatorKey parent.id second.id middle =
      .ok () (middle.putNode (.internal { parent with
        parent := tree.parentOf parent.id, keys := parent.keys.set front.length entry.1 })) := by
    obtain ⟨-, separator, -, separated, -⟩ := shared.separated rowNodup
    have parentStored : middle.node? parent.id =
        some (.internal { parent with parent := tree.parentOf parent.id }) := by
      rw [node?_of_bodyOf ((rowKept.bodies parent.id (by simp)).trans shared.placed.body), parents]
      rfl
    have childStored : middle.node? newSecond.id = some (.leaf newSecond) := by
      rw [same.nodes, putLeaves, node?_putNode]
      exact if_pos rfl
    have updated := updateSeparatorKey_run { parent with
      parent := tree.parentOf parent.id } parentStored childStored (secondId ▸ separated) starts
    rw [secondId] at updated
    exact updated
  have settled := shared.rewritten entry.1 (by simpa [firstId, secondId] using rowKept)
    (fun nodeId _ => parents nodeId) ran
  have newItems : before.items ++ (firstLow, first.id) :: (↑entry.1, second.id) ::
      after.items = items (before ++ ([(firstLow, newFirst.body),
        (↑entry.1, newSecond.body)] ++ after)) := by simp [firstId, secondId]
  rw [newItems] at settled
  exact stands.settle lower stored settled

/-- Two leaves become one, and the levels above let go of the second. -/
theorem Stands.merge (merged : LeafNode K V) {bound : Nat} (mergedId : merged.id = first.id)
    (mergedParent : merged.parent = tree.parentOf first.id) (enough : upper.length + 1 ≤ bound) :
    SettlesLeaves (removeFromParent bound parent.id second.id
        ((tree.putNode (.leaf merged)).dropNode second.id)) tree
      (before ++ (firstLow, merged.body) :: after)
      (Occupied · · ((parentBefore ++ (low, parent) :: parentAfter) :: upper)) := by
  let middle := (tree.putNode (.leaf merged)).dropNode second.id
  obtain ⟨apart, rowNodup⟩ := stands.pair_apart
  have bodies : ∀ nodeId, middle.bodyOf nodeId = if nodeId = second.id then none
      else if nodeId = first.id then some (.leaf merged.body)
      else tree.bodyOf nodeId := by
    intro nodeId
    simp only [middle, bodyOf_dropNode, bodyOf_putNode, BPlusTreeNode.id_leaf, mergedId]
    rfl
  have parents : ∀ nodeId, nodeId ≠ second.id → middle.parentOf nodeId = tree.parentOf nodeId := by
    intro nodeId notSecond
    simp only [middle, parentOf_dropNode, parentOf_putNode, BPlusTreeNode.id_leaf,
      parent_leaf, mergedId, mergedParent, if_neg notSecond]
    split
    next equal => rw [equal]
    next => rfl
  have change : Reshaped tree middle [] (ids [(firstLow, first), (secondLow, second)])
      (ids [(firstLow, merged.body)]) := by
    constructor
    · exact (stands.keyed.putNode _).dropNode _
    · rfl
    · rfl
    · exact le_rfl
    · simp [mergedId]
    · simp
    · intro nodeId notOld _
      simp only [ids_cons, ids_nil, mem_cons, not_mem_nil, or_false, not_or] at notOld
      rw [bodies, if_neg notOld.2, if_neg notOld.1]
    · intro nodeId notOld _ _
      simp only [ids_cons, ids_nil, mem_cons, not_mem_nil, or_false, not_or] at notOld
      exact parents nodeId notOld.2
    · intro nodeId isOld notNew
      simp only [ids_cons, body_id, ids_nil, mem_cons,
        not_mem_nil, or_false, mergedId] at isOld notNew
      rw [bodies, if_pos (isOld.resolve_left notNew)]
  obtain ⟨stored, lower⟩ := stands.rebuild [(firstLow, first), (secondLow, second)] change (by
      simp only [mem_singleton, forall_eq, bodies, body_id, mergedId]
      exact (if_neg apart).trans (if_pos trivial))
  have rowKept := lower.rowKept rfl stands.distinct fun nodeId mem => by
    obtain ⟨place, listed, rfl⟩ := mem_map.mp mem
    simp [stored place listed]
  have settled := shared.dropped (removeFromParent_spec enough) rowNodup
    (by simpa [mergedId] using rowKept) fun nodeId mem => parents nodeId (by
      grind)
  have newItems : before.items ++ (firstLow, first.id) :: after.items =
      items (before ++ ([(firstLow, merged.body)] ++ after)) := by simp [mergedId]
  rw [newItems] at settled
  exact stands.settle lower stored settled

end

end

section

variable [LinearOrder K] {tree : BPlusTree K V} {before after : LeafRow K V}
  {low siblingLow : WithBot K} {leaf sibling : LeafNode K V} {key : K} {value : V}
  {smaller greater : List (K × V)}

/-- `run` finishes the removal of `key` from a leaf. -/
def Deletes (run : TreeM K V Unit) (tree : BPlusTree K V) (key : K) (leaves : LeafRow K V)
    (levels : List (Level K)) : Prop :=
  ∃ changed new reshaped, run tree = .ok () changed ∧ Stands changed new reshaped ∧
    Deleted tree.config levels key leaves true new ∧ changed.config = tree.config ∧
    changed.leftmostLeaf = tree.leftmostLeaf ∧
    ∀ least most, MergeBounds tree.config least most → Occupied least most levels →
      Occupied least most reshaped

/-- A leaf without the entry of the deleted key, as `delete` hands it on. -/
def LeafNode.shortened (leaf : LeafNode K V) (tree : BPlusTree K V)
    (entries : List (K × V)) : LeafNode K V :=
  { leaf with entries := entries, parent := tree.parentOf leaf.id }

variable {parentBefore parentAfter : Level K} {parentLow : WithBot K} {parent : InternalNode K}
  {upper : List (Level K)} {front back : List (Item K)}

omit [LinearOrder K] in
/-- The `prev` links of the row behind two siblings do not matter to their parent. -/
theorem Shared.relinked {relinked : BPlusTree K V} (first second : WithBot K × LeafNode K V)
    {prevId : BTreeNodeId}
    (shared : Shared tree before.items (first.1, first.2.id) (second.1, second.2.id) after.items
      parentBefore parentLow parent parentAfter upper front back)
    (stands : Stands relinked (before ++ first :: second :: relink prevId after)
      ((parentBefore ++ (parentLow, parent) :: parentAfter) :: upper)) :
    Shared relinked before.items (first.1, first.2.id) (second.1, second.2.id)
      (relink prevId after).items parentBefore parentLow parent parentAfter upper front
      back where
  above := by simpa using stands.above
  cut := shared.cut
  beforeEq := shared.beforeEq
  afterEq := by
    rw [← shared.afterEq]
    cases after <;> rfl

variable {bound : Nat} {run : TreeM K V Unit}

section

variable (least : low ≤ (key : WithBot K))
  (window : Window leaf.entries key smaller (some value) greater)
  (short : (smaller ++ greater).length < tree.config.minKeys) (enough : upper.length + 1 ≤ bound)

include least window short enough

/-- A leaf that is short takes an entry from the leaf before it or is merged into it. -/
theorem deletes_left
    (stands : Stands tree (before ++ (siblingLow, sibling) :: (low, leaf) :: after)
      ((parentBefore ++ (parentLow, parent) :: parentAfter) :: upper))
    (linked : leaf.next = firstOf after.nexts none)
    (shared : Shared tree before.items (siblingLow, sibling.id) (low, leaf.id) after.items
      parentBefore parentLow parent parentAfter upper front back)
    (next : ∀ place ∈ after, (key : WithBot K) < place.1)
    (chosen : tree.config.minKeys < sibling.entries.length ∧ run tree =
        borrowFromLeft (.leaf (leaf.shortened tree (smaller ++ greater))) sibling.id tree ∨
      sibling.entries.length ≤ tree.config.minKeys ∧ run tree =
        mergeWithLeft (removeFromParent bound)
          (.leaf (leaf.shortened tree (smaller ++ greater))) sibling.id tree) :
    Deletes run tree key (before ++ (siblingLow, sibling) :: (low, leaf) :: after)
      ((parentBefore ++ (parentLow, parent) :: parentAfter) :: upper) := by
  have owner := (shared.separated stands.pair_apart.2).1.2
  have siblingStored := stands.leafNode (siblingLow, sibling) (by simp)
  have siblingOrphan : sibling.parent = none := stands.leaf_parent (siblingLow, sibling) (by simp)
  have orphan : leaf.parent = none := stands.leaf_parent (low, leaf) (by simp)
  rcases chosen with ⟨spare, chosen⟩ | ⟨full, chosen⟩
  · obtain ⟨kept, moved, given⟩ := exists_last sibling.entries (by omega)
    have ran := borrowFromLeft_leaf (leaf.shortened tree (smaller ++ greater)) parent owner
      siblingStored given
    obtain ⟨changed, reshaped, updated, standing, rest⟩ := stands.borrow shared
      { sibling with entries := kept, parent := tree.parentOf sibling.id }
      { leaf.shortened tree (smaller ++ greater) with entries := moved :: (smaller ++ greater) }
      rfl rfl rfl rfl rfl ⟨fun _ => rfl, rfl, rfl, rfl, rfl⟩
    refine ⟨changed, _, reshaped, chosen.trans (ran.trans updated), standing, ?_, rest⟩
    have spared : tree.config.minKeys ≤ kept.length := by
      simp only [given, length_append, length_singleton] at spare
      omega
    simpa only [shortened, body, siblingOrphan, orphan] using
      Deleted.borrowLeft least next window short given spared
  · obtain ⟨relinked, relinks, standing, sameConfig, sameLeftmost, sameParents⟩ :=
      Stands.relinkNext (before ++ [(siblingLow, sibling), (low, leaf)]) after
        (by simpa using stands) sibling.id
    rw [append_assoc, cons_append, cons_append, nil_append] at standing
    have ran := mergeWithLeft_leaf (leaf.shortened tree (smaller ++ greater)) parent
      (removeFromParent bound) owner siblingStored (linked ▸ relinks)
    obtain ⟨changed, reshaped, removed, merged, config, leftmost, occupied⟩ := standing.merge
      (shared.relinked (siblingLow, sibling) (low, leaf) standing)
      { sibling with
        entries := sibling.entries ++ (smaller ++ greater), next := leaf.next
        parent := tree.parentOf sibling.id } rfl (sameParents _).symm enough
    refine ⟨changed, _, reshaped, chosen.trans (ran.trans removed), merged, ?_,
      config.trans sameConfig, leftmost.trans sameLeftmost, sameConfig ▸ occupied⟩
    simpa only [shortened, body, siblingOrphan] using
      Deleted.mergeLeft least next window short full

/-- A leaf that is short takes an entry from the leaf behind it or takes it in. -/
theorem deletes_right
    (stands : Stands tree (before ++ (low, leaf) :: (siblingLow, sibling) :: after)
      ((parentBefore ++ (parentLow, parent) :: parentAfter) :: upper))
    (linked : sibling.next = firstOf after.nexts none)
    (shared : Shared tree before.items (low, leaf.id) (siblingLow, sibling.id) after.items
      parentBefore parentLow parent parentAfter upper front back)
    (next : ∀ place ∈ (siblingLow, sibling) :: after, (key : WithBot K) < place.1)
    (chosen : tree.config.minKeys < sibling.entries.length ∧ run tree =
        borrowFromRight (.leaf (leaf.shortened tree (smaller ++ greater))) sibling.id tree ∨
      sibling.entries.length ≤ tree.config.minKeys ∧ run tree =
        mergeWithRight (removeFromParent bound)
          (.leaf (leaf.shortened tree (smaller ++ greater))) sibling.id tree) :
    Deletes run tree key (before ++ (low, leaf) :: (siblingLow, sibling) :: after)
      ((parentBefore ++ (parentLow, parent) :: parentAfter) :: upper) := by
  have owner := (shared.separated stands.pair_apart.2).1.1
  have siblingStored := stands.leafNode (siblingLow, sibling) (by simp)
  have siblingOrphan : sibling.parent = none := stands.leaf_parent (siblingLow, sibling) (by simp)
  have orphan : leaf.parent = none := stands.leaf_parent (low, leaf) (by simp)
  rcases chosen with ⟨spare, chosen⟩ | ⟨full, chosen⟩
  · obtain ⟨moved, first, kept, given⟩ :
        ∃ moved first kept, sibling.entries = moved :: first :: kept := by
      match entriesEq : sibling.entries with
      | [] => simp [entriesEq] at spare
      | [_] =>
        simp only [entriesEq, length_singleton] at spare
        omega
      | moved :: first :: kept => exact ⟨moved, first, kept, rfl⟩
    have ran := borrowFromRight_leaf (leaf.shortened tree (smaller ++ greater)) parent owner
      siblingStored given
    obtain ⟨changed, reshaped, updated, standing, rest⟩ := stands.borrow shared
      { leaf.shortened tree (smaller ++ greater) with entries := smaller ++ greater ++ [moved] }
      { sibling with entries := first :: kept, parent := tree.parentOf sibling.id }
      rfl rfl rfl rfl rfl (SameNodes.putNode_comm tree (stands.pair_apart.1.symm))
    refine ⟨changed, _, reshaped, chosen.trans (ran.trans updated), standing, ?_, rest⟩
    have spared : tree.config.minKeys ≤ (first :: kept).length := by
      simp only [given, length_cons] at spare ⊢
      omega
    simpa only [shortened, body, siblingOrphan, orphan] using
      Deleted.borrowRight least next window short given spared
  · obtain ⟨relinked, relinks, standing, sameConfig, sameLeftmost, sameParents⟩ :=
      Stands.relinkNext (before ++ [(low, leaf), (siblingLow, sibling)]) after
        (by simpa using stands) leaf.id
    rw [append_assoc, cons_append, cons_append, nil_append] at standing
    have ran := mergeWithRight_leaf (leaf.shortened tree (smaller ++ greater)) parent
      (removeFromParent bound) owner siblingStored (linked ▸ relinks)
    obtain ⟨changed, reshaped, removed, merged, config, leftmost, occupied⟩ := standing.merge
      (shared.relinked (low, leaf) (siblingLow, sibling) standing)
      { leaf.shortened tree (smaller ++ greater) with
        entries := smaller ++ greater ++ sibling.entries, next := sibling.next }
      rfl (sameParents _).symm enough
    refine ⟨changed, _, reshaped, chosen.trans (ran.trans removed), merged, ?_,
      config.trans sameConfig, leftmost.trans sameLeftmost, sameConfig ▸ occupied⟩
    simpa only [shortened, body, orphan] using
      Deleted.mergeRight least next window short full

end

omit [LinearOrder K] in
theorem LeafRow.items_last {rowFront : List (Item K)} {item : Item K}
    (cut : leaves.items = rowFront ++ [item]) :
    ∃ init last leaf, leaves = init ++ [(last, leaf)] ∧ items init = rowFront ∧
      item = (last, leaf.id) := by
  obtain ⟨init, last, rfl, initEq, lastEq⟩ := map_eq_append_iff.mp cut
  obtain ⟨⟨low, leaf⟩, rest, rfl, itemEq, restEq⟩ := map_eq_cons_iff.mp lastEq
  obtain rfl := map_eq_nil_iff.mp restEq
  exact ⟨init, low, leaf, rfl, initEq, itemEq.symm⟩

omit [LinearOrder K] in
theorem LeafRow.items_first {rowBack : List (Item K)} {item : Item K}
    (cut : leaves.items = item :: rowBack) :
    ∃ first leaf rest, leaves = (first, leaf) :: rest ∧ items rest = rowBack ∧
      item = (first, leaf.id) := by
  obtain ⟨⟨low, leaf⟩, rest, rfl, itemEq, restEq⟩ := map_eq_cons_iff.mp cut
  exact ⟨low, leaf, rest, rfl, restEq, itemEq.symm⟩

/-- A leaf that falls short is repaired. -/
theorem handleUnderflow_leaf (bound : Nat) {parentLevel : Level K}
    (stands : Stands tree (before ++ (low, leaf) :: after) (parentLevel :: upper))
    (linked : LinkedTo none (nexts (before ++ (low, leaf) :: after)))
    (least : low ≤ (key : WithBot K)) (next : ∀ place ∈ after, (key : WithBot K) < place.1)
    (window : Window leaf.entries key smaller (some value) greater)
    (short : (smaller ++ greater).length < tree.config.minKeys)
    (enough : upper.length + 1 ≤ bound) :
    Deletes (handleUnderflow (removeFromParent bound)
        (.leaf (leaf.shortened tree (smaller ++ greater)))) tree key
      (before ++ (low, leaf) :: after) (parentLevel :: upper) := by
  have links := (linkedTo_append.mp (nexts_append .. ▸ linked)).2
  have rowNodup := (nodup_append.mp stands.distinct.nodup).1
  obtain ⟨parentBefore, parentLow, parent, parentAfter, front, back, rfl,
    ⟨rest, left, stored, rowEq, found, shared, chosen⟩ |
    ⟨right, rest, stored, rowEq, found, shared, chosen⟩ | ⟨keysEq, ran⟩⟩ :=
    handleUnderflow_cases (removeFromParent bound)
      (.leaf (leaf.shortened tree (smaller ++ greater)))
      (show Above tree (before.items ++ (low, leaf.id) :: after.items) _ by simpa using stands.above)
      rfl (show ((before.items ++ (low, leaf.id) :: after.items).map Prod.snd).Nodup by
        simpa using rowNodup) (by
        rw [← items_append]
        intro item listed
        obtain ⟨place, mem, rfl⟩ := mem_map.mp listed
        exact ⟨_, stands.leafNode _ (mem_cut.mpr (Or.inr mem))⟩)
  · obtain ⟨before, siblingLow, sibling, rfl, rfl, rfl⟩ := items_last rowEq
    rw [append_assoc, singleton_append] at stands ⊢
    obtain rfl := Option.some.inj (found.symm.trans
      (stands.leafNode (siblingLow, sibling) (by simp)))
    exact deletes_left least window short enough stands links.1 shared next chosen
  · obtain ⟨siblingLow, sibling, after, rfl, rfl, rfl⟩ := items_first rowEq
    obtain rfl := Option.some.inj (found.symm.trans
      (stands.leafNode (siblingLow, sibling) (by simp)))
    exact deletes_right least window short enough stands links.2.1 shared next chosen
  · have orphan : leaf.parent = none := stands.leaf_parent (low, leaf) (by simp)
    have bare : Bare ((parentBefore ++ (parentLow, parent) :: parentAfter) :: upper) := by
      intro level isHead
      obtain rfl := Option.some.inj isHead
      exact ⟨(parentLow, parent), by simp, keysEq⟩
    refine ⟨_, _, _, ran, stands.putLeaf _ rfl rfl, ?_, rfl, rfl, fun _ _ _ occupied => occupied⟩
    simpa only [shortened, body, orphan] using
      Deleted.plain least next window (Or.inr bare)

end

/-- A leaf has no parent exactly when it is the root. -/
theorem Stands.orphan_iff {tree : BPlusTree K V} {before after : LeafRow K V} {low : WithBot K}
    {leaf : LeafNode K V} (stands : Stands tree (before ++ (low, leaf) :: after) levels) :
    tree.parentOf leaf.id = none ↔ levels = [] := by
  have above : Above tree (before.items ++ (low, leaf.id) :: after.items) levels := by
    simpa using stands.above
  cases levels with
  | nil =>
    obtain ⟨alone, orphan⟩ := above
    have isRoot : (low, leaf.id) ∈ [((⊥ : WithBot K), tree.rootId)] := by simp [← alone]
    obtain ⟨-, idEq⟩ := Prod.mk.inj (mem_singleton.mp isRoot)
    simp [idEq, orphan]
  | cons level upper =>
    obtain ⟨_, parentLow, parent, _, _, _, rfl, cut, -, -⟩ := above.cut
    have placed : Placed tree parent := above.2.1 (parentLow, parent) (by simp)
    have children := (childItems_cut placed.balanced cut).1
    simp [placed.adopted leaf.id (by simp [children])]

/-- A delete succeeds, says whether the key was there, and takes it out of the row
of leaves. -/
theorem delete_spec [LinearOrder K] {tree : BPlusTree K V} (stands : Stands tree leaves levels)
    (segmented : Segmented leaves.segments) (linked : LinkedTo none leaves.nexts) (key : K) :
    ∃ result changed new reshaped, BPlusTree.delete key tree = .ok result changed ∧
      Stands changed new reshaped ∧ Deleted tree.config levels key leaves result new ∧
      changed.config = tree.config ∧ changed.leftmostLeaf = tree.leftmostLeaf ∧
      ∀ least most, MergeBounds tree.config least most → Occupied least most levels →
        Occupied least most reshaped := by
  obtain ⟨before, low, leaf, after, rfl, least, next, found⟩ :=
    stands.findLeaf (items_ordered segmented) key
  have leafStored := stands.leafNode (low, leaf) (by simp)
  have sorted : Sorted leaf.entries := segmented.sorted (low, leaf.entries) (by simp)
  obtain ⟨front, held, back, window⟩ := exists_window sorted key
  have removed := remove_window { leaf with parent := tree.parentOf leaf.id }
    window
  cases held with
  | none =>
    refine ⟨false, tree, _, levels, ?_, stands, .missing least next window, rfl, rfl,
      fun _ _ _ occupied => occupied⟩
    rw [BPlusTree.delete, run_bind run_get, run_bind found, run_bind (run_getNode leafStored)]
    simp only [deleteEntry, removed, isNone_none, if_true]
    rfl
  | some value =>
    let written := leaf.shortened tree (front ++ back)
    have start : BPlusTree.delete key tree =
        if written.entries.length < tree.config.minKeys ∧ written.parent.isSome then
          (handleUnderflow (removeFromParent tree.loopBound) (.leaf written) >>=
            fun _ => pure true) tree
        else (updateNode (.leaf written) >>= fun _ => pure true) tree := by
      rw [BPlusTree.delete, run_bind run_get, run_bind found, run_bind (run_getNode leafStored)]
      simp only [deleteEntry, removed, isNone_some, isSome_some,
        if_true, Bool.false_eq_true, if_false]
      exact run_ite _ _
    have owned : written.parent.isSome ↔ levels ≠ [] := by
      rw [isSome_iff_ne_none]
      exact not_congr stands.orphan_iff
    by_cases short : written.entries.length < tree.config.minKeys ∧ written.parent.isSome
    · obtain ⟨parentLevel, upper, rfl⟩ := exists_cons_of_ne_nil (owned.mp short.2)
      have enough := stands.loopBound
      obtain ⟨changed, new, reshaped, ran, rest⟩ := handleUnderflow_leaf
        tree.loopBound stands linked least next window short.1
        (by simp only [length_cons] at enough; omega)
      refine ⟨true, changed, new, reshaped, ?_, rest⟩
      rw [start, if_pos short]
      exact run_bind ran
    · have kept : tree.config.minKeys ≤ (front ++ back).length ∨ Bare levels := by
        by_cases root : levels = []
        · exact Or.inr (by simp [Bare, root])
        · exact Or.inl (not_lt.mp fun few => short ⟨few, owned.mpr root⟩)
      refine ⟨true, _, _, levels, ?_, stands.putLeaf written rfl rfl, ?_, rfl, rfl,
        fun _ _ _ occupied => occupied⟩
      · rw [start, if_neg short]
        rfl
      · have orphan : leaf.parent = none := stands.leaf_parent (low, leaf) (by simp)
        simpa only [written, shortened, body, orphan] using
          Deleted.plain least next window kept

end Nanograph.BTree
