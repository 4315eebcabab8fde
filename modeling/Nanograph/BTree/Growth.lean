import Nanograph.BTree.Reshape

/-!
# Propagating a split

A split adds one node to a row. `attach_spec` follows the separator of the new
node up the levels: the row above gains it, splits in turn when it is full, and
at the top a new root is made. It is proved by induction on the levels, with the
same statement for every row.
-/

namespace Nanograph.BTree

open List BPlusTree Level InternalNode

variable {K V : Type}

variable [LinearOrder K]

/-- Hand a separator and the node behind it to the parent of the node before it,
or put both under a new root. -/
def attach (bound : Nat) (leftId : BTreeNodeId) (key : K) (rightId : BTreeNodeId)
    (parent : Option BTreeNodeId) : TreeM K V Unit :=
  match parent with
  | some parentId => insertIntoParent bound parentId key rightId
  | none => createNewRoot leftId key rightId

/-- The numbers of keys of the internal nodes that are split in turn when a child of
`parent` is split, each with the separator it takes in. -/
def splitSizes (tree : BPlusTree K V) : Nat → Option BTreeNodeId → List Nat
  | 0, _ => []
  | _ + 1, none => []
  | bound + 1, some parentId =>
    match tree.node? parentId with
    | some (.internal node) =>
      if tree.config.maxKeys ≤ node.keys.length + 1 then
        (node.keys.length + 1) :: splitSizes tree bound node.parent
      else []
    | _ => []

variable {items before after : List (Item K)} {levels upper : List (Level K)}
  {rightId : BTreeNodeId} {item : Item K} {key : K}

section

variable {tree : BPlusTree K V} {node : InternalNode K}

omit [LinearOrder K]

theorem splitSizes_none (bound : Nat) : splitSizes tree bound none = [] := by
  cases bound <;> rfl

theorem splitSizes_of_body (body : tree.bodyOf node.id = some (.internal node)) (bound : Nat) :
    splitSizes tree (bound + 1) (some node.id) = if tree.config.maxKeys ≤ node.keys.length + 1 then
        (node.keys.length + 1) :: splitSizes tree bound (tree.parentOf node.id)
      else [] := by
  rw [splitSizes, node?_of_bodyOf body]
  rfl

/-- Only full nodes are split. -/
theorem maxKeys_le_of_mem_splitSizes {bound size : Nat} {parent : Option BTreeNodeId}
    (mem : size ∈ splitSizes tree bound parent) : tree.config.maxKeys ≤ size := by
  induction bound generalizing parent with
  | zero => simp [splitSizes] at mem
  | succ bound ih =>
    cases parent with
    | none => simp [splitSizes] at mem
    | some parentId =>
      rw [splitSizes] at mem
      split at mem
      · split at mem
        next full =>
          rcases mem_cons.mp mem with rfl | later
          · exact full
          · exact ih later
        next => simp at mem
      · simp at mem

/-- The splits above a row depend on the levels above it only. -/
theorem splitSizes_congr (changed : BPlusTree K V) (nodeId : BTreeNodeId)
    (above : Above tree items levels) (mem : nodeId ∈ items.map Prod.snd)
    (config : changed.config = tree.config)
    (bodies : ∀ nodeId ∈ levelIds levels, changed.bodyOf nodeId = tree.bodyOf nodeId)
    (parents : ∀ nodeId ∈ levelIds levels, changed.parentOf nodeId = tree.parentOf nodeId)
    (bound : Nat) :
    splitSizes changed bound (tree.parentOf nodeId) =
      splitSizes tree bound (tree.parentOf nodeId) := by
  induction levels generalizing items nodeId bound with
  | nil =>
    obtain ⟨rfl, orphan⟩ := above
    obtain rfl : nodeId = tree.rootId := by simpa using mem
    rw [orphan, splitSizes_none, splitSizes_none]
  | cons level upper ih =>
    obtain ⟨rfl, placed, rest⟩ := above
    obtain ⟨place, isPlace, listed⟩ :=
      (mem_below_ids fun place isPlace => (placed place isPlace).balanced).mp mem
    have here : place.2.id ∈ levelIds (level :: upper) := by
      exact mem_append_left _ (mem_map_of_mem isPlace)
    have stored := (placed place isPlace).body
    have changedStored := (bodies place.2.id here).trans stored
    rw [(placed place isPlace).adopted nodeId listed]
    cases bound with
    | zero => rfl
    | succ bound =>
      rw [splitSizes_of_body stored, splitSizes_of_body changedStored, config,
        parents place.2.id here]
      have above := ih place.2.id rest
        (by rw [map_snd_items]; exact mem_map_of_mem isPlace)
        (fun nodeId inUpper => bodies nodeId (by simp [inUpper]))
        (fun nodeId inUpper => parents nodeId (by simp [inUpper])) bound
      rw [above]

end

/-- The node `createNewRoot` stores. -/
def newRootNode (newRootId leftId : BTreeNodeId) (key : K) (rightId : BTreeNodeId) :
    InternalNode K :=
  { id := newRootId, keys := [key], children := [leftId, rightId], parent := none }

variable {tree : BPlusTree K V} {node : InternalNode K}

/-- A root that is split gets a new root above it. -/
theorem createNewRoot_spec (key : K) (keyed : tree.Keyed)
    (distinct : Distinct tree [tree.rootId, rightId]) (leftStored : tree.bodyOf tree.rootId ≠ none)
    (rightStored : tree.bodyOf rightId ≠ none) :
    ∃ changed levels, createNewRoot tree.rootId key rightId tree = .ok () changed ∧
      Above changed [(⊥, tree.rootId), (↑key, rightId)] levels ∧
      Reshaped tree changed [tree.rootId, rightId] [] (levelIds levels) ∧
      ∀ low high, MergeBounds tree.config low high → Occupied low high levels := by
  let newRootId : BTreeNodeId := ⟨tree.nextNodeId⟩
  let root := newRootNode newRootId tree.rootId key rightId
  let adopted := (tree.bumpNodeId.adopt newRootId [tree.rootId]).adopt newRootId [rightId]
  let changed := (adopted.putNode (.internal root)).setRoot newRootId
  have leftBelow := distinct.allocated tree.rootId (by simp)
  have rightBelow := distinct.allocated rightId (by simp)
  have leftNew : tree.rootId ≠ newRootId := fun equal => by simp [equal, newRootId] at leftBelow
  have rightNew : rightId ≠ newRootId := fun equal => by simp [equal, newRootId] at rightBelow
  have adoptedKeyed : (tree.bumpNodeId.adopt newRootId [tree.rootId]).Keyed :=
    keyed.bumpNodeId.adopt _ _
  have run : createNewRoot tree.rootId key rightId tree = .ok () changed := by
    have leftPresent : ∀ child ∈ [tree.rootId], tree.bumpNodeId.bodyOf child ≠ none := by
      simpa using leftStored
    have rightPresent : ∀ child ∈ [rightId],
        (tree.bumpNodeId.adopt newRootId [tree.rootId]).bodyOf child ≠ none := by
      simpa [bodyOf_adopt _ _ _ keyed.bumpNodeId] using rightStored
    rw [createNewRoot, run_bind run_allocateNodeId]
    change ((pure (BPlusTreeNode.internal root) : TreeM K V _) >>= _) _ = _
    rw [run_bind (run_pure _), run_bind (run_adoptChildren leftPresent),
      run_bind (run_adoptChildren rightPresent), run_bind (run_updateNode _), run_modify]
  have bodies : ∀ nodeId, changed.bodyOf nodeId =
      if nodeId = newRootId then some (.internal root) else tree.bodyOf nodeId := by
    intro nodeId
    simp only [changed, adopted, bodyOf_setRoot, bodyOf_putNode, bodyOf_adopt _ _ _ adoptedKeyed,
      bodyOf_adopt _ _ _ keyed.bumpNodeId, bodyOf_bumpNodeId]
    rfl
  have parents : ∀ nodeId, changed.parentOf nodeId = if nodeId = newRootId then none
      else if nodeId = tree.rootId ∨ nodeId = rightId then some newRootId
      else tree.parentOf nodeId := by
    intro nodeId
    have selfId : (BPlusTreeNode.internal (V := V) root).id = newRootId := rfl
    have selfParent : (BPlusTreeNode.internal (V := V) root).parent = none := rfl
    simp only [changed, adopted, parentOf_setRoot, parentOf_putNode, selfId, selfParent,
      parentOf_adopt _ _ _ adoptedKeyed, parentOf_adopt _ _ _ keyed.bumpNodeId,
      bodyOf_adopt _ _ _ keyed.bumpNodeId, bodyOf_bumpNodeId, parentOf_bumpNodeId, mem_singleton]
    by_cases isNew : nodeId = newRootId
    · simp [isNew]
    · by_cases isRight : nodeId = rightId
      · simp [isRight, rightNew, rightStored]
      · by_cases isLeft : nodeId = tree.rootId
        · simp [isLeft, leftNew, leftStored]
        · simp [isNew, isLeft, isRight]
  refine ⟨changed, [[(⊥, root)]], run, ⟨rfl, ?_, ?_, ?_⟩, ?_, ?_⟩
  · intro place mem
    obtain rfl : place = (⊥, root) := by simpa using mem
    refine ⟨by rw [bodies]; simp [root, newRootNode], rfl, ?_⟩
    intro child listed
    have either : child = tree.rootId ∨ child = rightId := by
      simpa [root, newRootNode] using listed
    rw [parents]
    rcases either with rfl | rfl
    · simp [leftNew, root, newRootNode]
    · simp [rightNew, root, newRootNode]
  · rfl
  · simp [parents, changed]
  · constructor
    · exact ((keyed.bumpNodeId.adopt _ _).adopt _ _).putNode _
    · simp [changed, adopted]
    · simp [changed, adopted]
    · simp [changed, adopted]
    · intro nodeId mem
      have isNew : nodeId = newRootId := by
        simpa [levelIds, Level.ids, root, newRootNode] using mem
      exact Or.inr (by simp [isNew, newRootId, changed, adopted])
    · simp [levelIds, Level.ids]
    · intro nodeId _ outside
      have notNew : nodeId ≠ newRootId := by
        simpa [levelIds, Level.ids, root, newRootNode] using outside
      simp [bodies, notNew]
    · intro nodeId _ outside offRow
      have notNew : nodeId ≠ newRootId := by
        simpa [levelIds, Level.ids, root, newRootNode] using outside
      have notRow : ¬(nodeId = tree.rootId ∨ nodeId = rightId) := by simpa using offRow
      simp [parents, notNew, notRow]
    · simp
  · intro low high bounds
    have := bounds.positive
    have := bounds.least
    have := bounds.merged
    simp [Occupied, root, newRootNode]
    omega

/-- A row with a node that stands behind `item` but has no place in the level
above yet. -/
structure Pending (tree : BPlusTree K V) (before : List (Item K)) (item : Item K) (key : K)
    (rightId : BTreeNodeId) (after : List (Item K)) (levels : List (Level K)) : Prop where
  keyed : tree.Keyed
  above : Above tree (before ++ item :: after) levels
  ordered : (before ++ item :: (↑key, rightId) :: after).Pairwise (·.1 < ·.1)
  distinct : Distinct tree
    ((before ++ item :: (↑key, rightId) :: after).map Prod.snd ++ levelIds levels)
  stored : ∀ nodeId ∈ (before ++ item :: (↑key, rightId) :: after).map Prod.snd,
    tree.bodyOf nodeId ≠ none
  sibling : tree.parentOf rightId = tree.parentOf item.2

/-- A row that gained a node has it pending, and the splits above are those of before. -/
theorem RowKept.pending {middle : BPlusTree K V} (rowKept : RowKept tree middle
      ((before ++ item :: (↑key, rightId) :: after).map Prod.snd) levels)
    (above : Above tree (before ++ item :: after) levels)
    (ordered : (before ++ item :: (↑key, rightId) :: after).Pairwise (·.1 < ·.1))
    (parents : ∀ nodeId ∈ (before ++ item :: after).map Prod.snd,
      middle.parentOf nodeId = tree.parentOf nodeId)
    (sibling : middle.parentOf rightId = tree.parentOf item.2) :
    Pending middle before item key rightId after levels ∧ ∀ bound,
      splitSizes middle bound (middle.parentOf item.2) =
        splitSizes tree bound (tree.parentOf item.2) := by
  have itemParent := parents item.2 (by simp)
  refine ⟨⟨rowKept.keyed, above.congr rowKept.root rowKept.bodies ?_, ordered, rowKept.distinct,
    rowKept.stored, by rw [sibling, itemParent]⟩, fun bound => ?_⟩
  · exact fun nodeId mem => mem.elim (parents nodeId) (rowKept.parents nodeId)
  · rw [itemParent]
    exact splitSizes_congr middle item.2 above (by simp) rowKept.config rowKept.bodies
      rowKept.parents bound

/-- The tree after the two halves of a split node are stored. -/
def putSplit (tree : BPlusTree K V) (left right : InternalNode K) : BPlusTree K V :=
  ((tree.bumpNodeId.adopt right.id right.children).putNode (.internal left)).putNode
    (.internal right)

omit [LinearOrder K] in
theorem bodyOf_putSplit (left right : InternalNode K) (keyed : tree.Keyed) (nodeId : BTreeNodeId) :
    (putSplit tree left right).bodyOf nodeId = if nodeId = right.id then some (.internal right.body)
      else if nodeId = left.id then some (.internal left.body)
      else tree.bodyOf nodeId := by
  simp only [putSplit, bodyOf_putNode, bodyOf_adopt _ _ _ keyed.bumpNodeId, bodyOf_bumpNodeId]
  rfl

omit [LinearOrder K] in
theorem parentOf_putSplit (left right : InternalNode K) (keyed : tree.Keyed)
    (present : ∀ child ∈ right.children, tree.bodyOf child ≠ none) (nodeId : BTreeNodeId) :
    (putSplit tree left right).parentOf nodeId = if nodeId = right.id then right.parent
      else if nodeId = left.id then left.parent
      else if nodeId ∈ right.children then some right.id
      else tree.parentOf nodeId := by
  have adopted : (nodeId ∈ right.children ∧ tree.bodyOf nodeId ≠ none) =
      (nodeId ∈ right.children) := by
    simpa using present nodeId
  simp only [putSplit, parentOf_putNode, parentOf_adopt _ _ _ keyed.bumpNodeId,
    bodyOf_bumpNodeId, parentOf_bumpNodeId, adopted]
  rfl

/-- `insertIntoParent` stores the grown node, or splits it when it is full. -/
theorem insertIntoParent_run {grown : InternalNode K}
    (body : tree.bodyOf node.id = some (.internal node))
    (inserted : ({ node with parent := tree.parentOf node.id } : InternalNode K).insertKeyChild
      key rightId = some grown) (bound : Nat) :
    insertIntoParent (bound + 1) node.id key rightId tree =
      if tree.config.maxKeys ≤ grown.keys.length then
        splitInternal (insertIntoParent bound) (.internal grown) tree
      else .ok () (tree.putNode (.internal grown)) := by
  have stored := node?_of_bodyOf body
  have lifted : ((BPlusTreeNode.internal node).setParent (tree.parentOf node.id)
      : BPlusTreeNode K V).insertInternalEntry key rightId = .ok (.internal grown) := by
    simp only [BPlusTreeNode.setParent, BPlusTreeNode.insertInternalEntry, inserted]
  rw [insertIntoParent, run_bind (run_getNode stored), lifted]
  change ((pure (BPlusTreeNode.internal grown) : TreeM K V _) >>= _) _ = _
  rw [run_bind (run_pure _), run_bind run_get]
  by_cases full : tree.config.maxKeys ≤ grown.keys.length
  · rw [if_pos (by simpa [BPlusTreeNode.isFull, BPlusTreeNode.len] using full), if_pos full]
  · rw [if_neg (by simpa [BPlusTreeNode.isFull, BPlusTreeNode.len] using full), if_neg full]
    rfl

/-- `splitInternal` stores both halves and hands the middle key up. -/
theorem splitInternal_run {left right : InternalNode K} {middle : K}
    (cut : node.split = some (left, middle, right))
    (present : ∀ child ∈ right.children, tree.bodyOf child ≠ none) (bound : Nat) :
    splitInternal (insertIntoParent bound) (.internal node) tree =
      attach bound left.id middle ⟨tree.nextNodeId⟩ left.parent
        (putSplit tree left { right with id := ⟨tree.nextNodeId⟩, parent := node.parent }) := by
  have lifted : (BPlusTreeNode.internal node : BPlusTreeNode K V).splitInternal
      ⟨tree.nextNodeId⟩ = .ok (.internal left, middle,
        .internal { right with id := ⟨tree.nextNodeId⟩, parent := node.parent }) := by
    simp only [BPlusTreeNode.splitInternal, cut]
  rw [splitInternal, run_bind run_allocateNodeId, lifted]
  change ((pure (_, middle, _) : TreeM K V _) >>= _) _ = _
  rw [run_bind (run_pure _)]
  have adopts : adoptChildren ⟨tree.nextNodeId⟩ right.children tree.bumpNodeId =
      .ok () (tree.bumpNodeId.adopt ⟨tree.nextNodeId⟩ right.children) :=
    run_adoptChildren present
  simp only [BPlusTreeNode.id, BPlusTreeNode.getAllChildren]
  rw [run_bind adopts, run_bind (run_updateNode _), run_bind (run_updateNode _)]
  simp only [BPlusTreeNode.parent]
  cases left.parent <;> rfl

/-- The node that takes a pending child, and what it becomes. -/
theorem Pending.insertion {level : Level K}
    (pending : Pending tree before item key rightId after (level :: upper)) :
    ∃ (levelBefore : Level K) (low : WithBot K) (node : InternalNode K) (levelAfter : Level K)
      (grown : InternalNode K),
      level = levelBefore ++ (low, node) :: levelAfter ∧
        tree.bodyOf node.id = some (.internal node) ∧ tree.parentOf item.2 = some node.id ∧
        ({ node with parent := tree.parentOf node.id } : InternalNode K).insertKeyChild
          key rightId = some grown ∧
        grown.id = node.id ∧ grown.keys.length = node.keys.length + 1 ∧
        Level.below (levelBefore ++ (low, grown) :: levelAfter) =
          before ++ item :: (↑key, rightId) :: after ∧
        Unsaved tree levelBefore [(low, grown)] levelAfter upper := by
  obtain ⟨levelBefore, low, node, levelAfter, front, back, rfl, cut, rfl, rfl⟩ :=
    pending.above.cut
  have here : Placed tree node := pending.above.2.1 (low, node) (by simp)
  have ordered : (front ++ item :: (↑key, rightId) :: back).Pairwise (·.1 < ·.1) := by
    refine List.Pairwise.sublist ?_ pending.ordered
    simp
  have oldChildren := (childItems_cut here.balanced cut).1
  have owner := here.adopted item.2 (by simp [oldChildren])
  have tail := (pairwise_append.mp ordered).2.1
  have above : item.1 < key :=
    (pairwise_cons.mp tail).1 (↑key, rightId) (by simp)
  have next : ∀ other ∈ back, (key : WithBot K) < other.1 :=
    (pairwise_cons.mp (pairwise_cons.mp tail).2).1
  obtain ⟨grown, inserted, idEq, parentEq, balanced, grownCut⟩ :=
    insertKeyChild_eq { node with parent := tree.parentOf node.id } here.balanced cut
      (List.Pairwise.sublist (by simp) ordered) above next rightId
  simp only at idEq parentEq
  have children : grown.children =
      front.map Prod.snd ++ item.2 :: rightId :: back.map Prod.snd := by
    rw [← map_snd_childItems low balanced, grownCut]
    simp
  have rowEq : Level.below (levelBefore ++ (low, grown) :: levelAfter) =
      (levelBefore.below ++ front) ++ item :: (↑key, rightId) ::
        (back ++ Level.below levelAfter) := by
    simp [grownCut]
  refine ⟨levelBefore, low, node, levelAfter, grown, rfl, here.body, owner, inserted, idEq, ?_,
    rowEq, ?_⟩
  · have oldBalanced := here.balanced
    have newBalanced := balanced
    unfold InternalNode.Balanced at oldBalanced newBalanced
    rw [oldChildren] at oldBalanced
    rw [children] at newBalanced
    simp only [length_append, length_cons] at oldBalanced newBalanced
    omega
  · constructor
    · exact pending.keyed
    · intro place mem
      apply pending.above.2.1
      simp only [mem_append, mem_cons] at mem ⊢
      tauto
    · simpa using balanced
    · intro place mem child listed
      obtain rfl := mem_singleton.mp mem
      rw [idEq]
      by_cases isRight : child = rightId
      · rw [isRight, pending.sibling, owner]
      · apply here.adopted
        rw [oldChildren]
        rw [children] at listed
        simp only [mem_append, mem_cons] at listed ⊢
        tauto
    · simp [parentEq, idEq]
    · simpa [idEq] using pending.above.2.2
    · rw [singleton_append, rowEq]
      simpa [idEq] using pending.distinct
    · rw [singleton_append, rowEq]
      exact pending.stored

/-- The two halves of a node stand where the node stood, with the right one
pending one level up. -/
theorem Unsaved.putSplit {before after : Level K} {low : WithBot K} {left : InternalNode K}
    (right : InternalNode K) {middle : K} (unsaved : Unsaved tree before [(low, node)] after upper)
    (leftId : left.id = node.id) (leftParent : left.parent = node.parent)
    (newId : right.id = ⟨tree.nextNodeId⟩) (rightParent : right.parent = node.parent)
    (leftBalanced : left.Balanced) (rightBalanced : right.Balanced)
    (itemsEq : childItems low node = childItems low left ++ childItems middle right)
    (ordered : (Level.below (before ++ (low, node) :: after)).Pairwise (·.1 < ·.1)) :
    (∀ place ∈ before ++ (low, left.body) :: (↑middle, right.body) :: after,
      Placed (putSplit tree left right) place.2) ∧
    Reshaped tree (putSplit tree left right)
      ((Level.below (before ++ (low, node) :: after)).map Prod.snd)
      (Level.ids (before ++ (low, node) :: after))
      (Level.ids (before ++ (low, left.body) :: (↑middle, right.body) :: after)) ∧
    Pending (putSplit tree left right) (Level.items before) (low, left.id) middle right.id
      (Level.items after) upper ∧
    ∀ bound, splitSizes (putSplit tree left right) bound
      ((putSplit tree left right).parentOf left.id) =
        splitSizes tree bound (tree.parentOf left.id) := by
  have own : (low, node) ∈ before ++ ([(low, node)] ++ after) := by simp
  have balanced := unsaved.all_balanced (low, node) own
  have adopted := unsaved.all_adopted (low, node) own
  have childrenEq : node.children = left.children ++ right.children := by
    rw [← map_snd_childItems low balanced, itemsEq, map_append,
      map_snd_childItems _ leftBalanced, map_snd_childItems _ rightBalanced]
  have inRow : ∀ child ∈ node.children,
      child ∈ (Level.below (before ++ ([(low, node)] ++ after))).map Prod.snd :=
    fun child listed => (mem_below_ids unsaved.all_balanced).mpr ⟨(low, node), own, listed⟩
  have stored : ∀ child ∈ right.children, tree.bodyOf child ≠ none := fun child listed =>
    unsaved.stored child (inRow child (by simp [childrenEq, listed]))
  have bodies := bodyOf_putSplit left right unsaved.keyed
  have parents := parentOf_putSplit left _ unsaved.keyed stored
  have isOld : ∀ nodeId ∈ (Level.below (before ++ ([(low, node)] ++ after))).map Prod.snd ++
      (Level.ids (before ++ ([(low, node)] ++ after)) ++ levelIds upper), nodeId ≠ right.id := by
    intro nodeId mem equal
    have allocated := unsaved.distinct.allocated nodeId mem
    rw [equal, newId] at allocated
    exact lt_irrefl _ allocated
  have leftNew : left.id ≠ right.id := by
    rw [leftId]
    exact isOld node.id (by simp)
  have rowParents : ∀ nodeId ∈ Level.ids (before ++ ([(low, node)] ++ after)),
      (BTree.putSplit tree left right).parentOf nodeId = tree.parentOf nodeId := by
    intro nodeId mem
    have notMoved : nodeId ∉ right.children := fun moved =>
      unsaved.child_ne _ own (by simp [childrenEq, moved]) (mem_append_left _ mem) rfl
    rw [parents, if_neg (isOld nodeId (by
      rw [mem_append, mem_append]
      exact Or.inr (Or.inl mem))), if_neg notMoved]
    split
    next equal => rw [equal, leftParent, unsaved.parent (low, node) (by simp), leftId]
    next => rfl
  have change : Reshaped tree (BTree.putSplit tree left right)
      ((Level.below [(low, node)]).map Prod.snd) (Level.ids [(low, node)])
      (Level.ids [(low, left.body), (↑middle, right.body)]) := by
    constructor
    · exact ((unsaved.keyed.bumpNodeId.adopt _ _).putNode _).putNode _
    · simp [BTree.putSplit]
    · simp [BTree.putSplit]
    · simp [BTree.putSplit]
    · simp [leftId, newId, BTree.putSplit]
    · simpa using leftNew
    · intro nodeId notOld notNew
      simp only [ids_cons, body_id, ids_nil, mem_cons, not_mem_nil, or_false, not_or] at notNew
      rw [bodies, if_neg notNew.2, if_neg notNew.1]
    · intro nodeId notOld notNew notRow
      simp only [ids_cons, body_id, ids_nil, mem_cons, not_mem_nil, or_false, not_or] at notNew
      have notMoved : nodeId ∉ right.children := by
        intro moved
        apply notRow
        simp [map_snd_childItems _ balanced, childrenEq, moved]
      rw [parents, if_neg notNew.2, if_neg notNew.1, if_neg notMoved]
    · simp [leftId]
  have halves : ∀ place ∈ [(low, left.body), (↑middle, right.body)],
      Placed (BTree.putSplit tree left right) place.2 := by
    have leftPlaced : Placed (BTree.putSplit tree left right) left.body := by
      refine ⟨?_, leftBalanced, ?_⟩
      · rw [bodies]
        exact (if_neg leftNew).trans (if_pos rfl)
      · intro child listed
        have isChild : child ∈ node.children := by
          rw [childrenEq]
          exact mem_append_left _ listed
        have notMoved : child ∉ right.children := by
          have nodup := unsaved.children_nodup _ own
          rw [childrenEq] at nodup
          exact fun moved => (nodup_append.mp nodup).2.2 child listed child moved rfl
        have notLeft : child ≠ left.id := leftId ▸ unsaved.child_ne _ own isChild (by simp)
        rw [parents, if_neg (isOld child (mem_append_left _ (inRow child isChild))),
          if_neg notLeft, if_neg notMoved, adopted child isChild, ← leftId]
        rfl
    have rightPlaced : Placed (BTree.putSplit tree left right) right.body := by
      refine ⟨?_, rightBalanced, ?_⟩
      · rw [bodies]
        exact if_pos rfl
      · intro child listed
        have isChild : child ∈ node.children := by
          rw [childrenEq]
          exact mem_append_right _ listed
        have notLeft : child ≠ left.id := leftId ▸ unsaved.child_ne _ own isChild (by simp)
        rw [parents, if_neg (isOld child (mem_append_left _ (inRow child isChild))), if_neg notLeft]
        exact if_pos listed
    simp only [mem_cons, not_mem_nil, or_false, forall_eq_or_imp, forall_eq]
    exact ⟨leftPlaced, rightPlaced⟩
  obtain ⟨placed, lower⟩ := unsaved.rebuild _ halves change
  have rowKept := lower.rowKept (by simp [BTree.putSplit]) unsaved.distinct fun nodeId mem => by
    obtain ⟨place, listed, rfl⟩ := mem_map.mp mem
    simp [(placed place listed).body]
  refine ⟨placed, lower, RowKept.pending (by simpa using rowKept)
    (by simpa [leftId] using unsaved.above) ?_ (by simpa [leftId] using rowParents) ?_⟩
  · have increasing := items_ordered (fun place mem => (placed place mem).balanced)
      (by simpa [itemsEq] using ordered)
    simpa using increasing
  · rw [parents, if_pos rfl, rightParent, unsaved.parent (low, node) (by simp), leftId]

/-- A full node that takes in a pending child is split, and its right half is pending
one level up. -/
theorem Pending.divide {levelBefore levelAfter : Level K} {low : WithBot K} {grown : InternalNode K}
    (pending : Pending tree before item key rightId after
      ((levelBefore ++ (low, node) :: levelAfter) :: upper))
    (body : tree.bodyOf node.id = some (.internal node))
    (owner : tree.parentOf item.2 = some node.id)
    (inserted : ({ node with parent := tree.parentOf node.id } : InternalNode K).insertKeyChild
      key rightId = some grown) (idEq : grown.id = node.id)
    (rowEq : Level.below (levelBefore ++ (low, grown) :: levelAfter) =
      before ++ item :: (↑key, rightId) :: after)
    (unsaved : Unsaved tree levelBefore [(low, grown)] levelAfter upper)
    (full : tree.config.maxKeys ≤ grown.keys.length) (some_key : 0 < grown.keys.length)
    (bound : Nat) :
    ∃ (left right : InternalNode K) (middle : K), left.keys.length = grown.keys.length / 2 ∧
        right.keys.length = grown.keys.length - grown.keys.length / 2 - 1 ∧
        attach (bound + 1) item.2 key rightId (tree.parentOf item.2) tree =
          attach bound left.id middle right.id ((putSplit tree left right).parentOf left.id)
            (putSplit tree left right) ∧
        (∀ place ∈ levelBefore ++ (low, left.body) :: (↑middle, right.body) ::
          levelAfter, Placed (putSplit tree left right) place.2) ∧
        Reshaped tree (putSplit tree left right)
          ((Level.below (levelBefore ++ (low, grown) :: levelAfter)).map Prod.snd)
          (Level.ids (levelBefore ++ (low, grown) :: levelAfter))
          (Level.ids (levelBefore ++ (low, left.body) :: (↑middle, right.body) :: levelAfter)) ∧
        Level.below (levelBefore ++ (low, grown) :: levelAfter) =
          Level.below (levelBefore ++ (low, left.body) :: (↑middle, right.body) :: levelAfter) ∧
        Pending (putSplit tree left right) (Level.items levelBefore) (low, left.id) middle
          right.id (Level.items levelAfter) upper ∧
        splitSizes (putSplit tree left right) bound ((putSplit tree left right).parentOf left.id) =
          splitSizes tree bound (tree.parentOf node.id) := by
  obtain ⟨left, middle, cutOff, cut, leftId, leftParent, leftBalanced, rightBalanced, itemsEq,
    leftLength, rightLength⟩ := split_eq low grown (unsaved.balanced (low, grown) (by simp))
      (ne_nil_of_length_pos some_key)
  let right : InternalNode K := { cutOff with id := ⟨tree.nextNodeId⟩, parent := grown.parent }
  have ordered : (Level.below (levelBefore ++ (low, grown) :: levelAfter)).Pairwise
      (·.1 < ·.1) := rowEq ▸ pending.ordered
  obtain ⟨placed, lower, pendingUp, sizes⟩ := unsaved.putSplit right leftId leftParent rfl rfl
    leftBalanced rightBalanced itemsEq ordered
  have belowEq : Level.below (levelBefore ++ (low, grown) :: levelAfter) =
      Level.below (levelBefore ++ (low, left.body) :: (↑middle, right.body) :: levelAfter) := by
    simp only [below_append, below_cons, childItems_body, itemsEq, append_assoc]
    rfl
  have stored : ∀ child ∈ right.children, tree.bodyOf child ≠ none := by
    intro child listed
    apply unsaved.stored
    rw [singleton_append, belowEq]
    exact (mem_below_ids fun place mem => (placed place mem).balanced).mpr
      ⟨(↑middle, right.body), by simp, listed⟩
  have parentUp : (putSplit tree left right).parentOf left.id = left.parent := by
    rw [← pendingUp.sibling, parentOf_putSplit _ right unsaved.keyed stored, if_pos rfl, leftParent]
  refine ⟨left, right, middle, leftLength, rightLength, ?_, placed, lower, belowEq, pendingUp, ?_⟩
  · rw [owner, attach, insertIntoParent_run body inserted, if_pos full,
      splitInternal_run cut stored, parentUp]
  · rw [sizes bound, leftId, idEq]

/-- The levels above a row take in a pending node. -/
theorem attach_spec {bound : Nat} (pending : Pending tree before item key rightId after levels)
    (enough : levels.length ≤ bound) :
    Settles (attach bound item.2 key rightId (tree.parentOf item.2)) tree
      (before ++ item :: (↑key, rightId) :: after) (levelIds levels)
      (fun least most => Occupied least most levels ∧
        ∀ size ∈ splitSizes tree bound (tree.parentOf item.2), least ≤ (size - 1) / 2) := by
  induction levels generalizing tree before after item key rightId bound with
  | nil =>
    obtain ⟨alone, orphan⟩ := pending.above
    obtain ⟨rfl, rfl, rfl⟩ : before = [] ∧ item = (⊥, tree.rootId) ∧ after = [] := by
      cases before <;> simp_all
    have stored := pending.stored
    have distinct := pending.distinct
    simp at stored distinct
    obtain ⟨changed, levels, ran, above, change, occupied⟩ :=
      createNewRoot_spec key pending.keyed distinct stored.1 stored.2
    refine ⟨changed, levels, ?_, above, change, fun low high bounds _ => occupied low high bounds⟩
    rw [orphan]
    exact ran
  | cons level upper ih =>
    obtain ⟨levelBefore, low, node, levelAfter, grown, rfl, body, owner, inserted, idEq,
      grownLength, rowEq, unsaved⟩ := pending.insertion
    obtain ⟨bound, rfl⟩ : ∃ smaller, bound = smaller + 1 :=
      ⟨bound - 1, by rw [length_cons] at enough; omega⟩
    have idsEq : levelIds ((levelBefore ++ (low, node) :: levelAfter) :: upper) =
        Level.ids (levelBefore ++ (low, grown) :: levelAfter) ++ levelIds upper := by
      simp [idEq]
    have sizes := splitSizes_of_body body bound
    rw [← owner, ← grownLength] at sizes
    rw [← rowEq, idsEq]
    by_cases full : tree.config.maxKeys ≤ grown.keys.length
    · obtain ⟨left, right, middle, leftLength, rightLength, ran, placed, lower, belowEq,
        pendingUp, sizesUp⟩ := pending.divide body owner inserted idEq rowEq unsaved full
          (by omega) bound
      have settled := ih pendingUp
        (show upper.length ≤ bound by simpa using enough)
      have itemsUp : Level.items levelBefore ++ (low, left.id) ::
          (↑middle, right.id) :: Level.items levelAfter =
          Level.items (levelBefore ++ (low, left.body) :: (↑middle, right.body) ::
            levelAfter) := by simp
      rw [belowEq] at lower ⊢
      rw [itemsUp] at settled
      refine Settles.raise ran placed lower (belowEq ▸ unsaved.distinct) settled ?_
      rintro least most bounds ⟨occupied, halves⟩
      rw [sizes, if_pos full, forall_mem_cons, ← sizesUp] at halves
      refine ⟨⟨occupied.2, halves.2⟩, ?_⟩
      have half := halves.1
      have roomy : node.keys.length ≤ most := (occupied.1 (low, node) (by simp)).2
      intro place mem
      have cases : place = (low, left.body) ∨ place = (↑middle, right.body) ∨
          place ∈ levelBefore ++ levelAfter := by
        simp only [mem_append, mem_cons] at mem ⊢
        tauto
      rcases cases with rfl | rfl | other
      · simp only [body_keys, leftLength]
        omega
      · simp only [body_keys, rightLength]
        omega
      · have inLevel : place ∈ levelBefore ++ (low, node) :: levelAfter := by
          simp only [mem_append, mem_cons] at other ⊢
          tauto
        have bounded := occupied.1 place inLevel
        cases upper with
        | nil =>
          obtain ⟨rfl, rfl⟩ := pending.above.root_alone
          simp at other
        | cons level rest => simpa using bounded
    · apply unsaved.save _
      · rw [owner, attach, insertIntoParent_run body inserted, if_neg full]
      · rintro least most bounds ⟨occupied, -⟩
        refine ⟨?_, occupied.2⟩
        intro place mem
        simp only [mem_append, mem_cons] at mem
        rcases mem with inBefore | rfl | inAfter
        · exact occupied.1 place (by simp [inBefore])
        · have old := (occupied.1 (low, node) (by simp)).1
          have room := bounds.full
          simp only [body_keys] at old ⊢
          omega
        · exact occupied.1 place (by simp [inAfter])

omit [LinearOrder K] in
/-- The root stands in the levels when there are any. -/
theorem Above.root_mem {level : Level K} (above : Above tree items (level :: upper)) :
    tree.rootId ∈ levelIds (level :: upper) := by
  induction upper generalizing items level with
  | nil =>
    have alone := congrArg (List.map Prod.snd) above.2.2.1
    rw [map_snd_items] at alone
    simp [alone]
  | cons next rest ih =>
    exact mem_append_right _ (ih above.2.2)

omit [LinearOrder K] in
/-- A node next to another one is not the root. -/
theorem Above.ne_root {nodeId : BTreeNodeId} (above : Above tree items levels)
    (several : 1 < items.length) (distinct : (items.map Prod.snd ++ levelIds levels).Nodup)
    (mem : nodeId ∈ items.map Prod.snd) : nodeId ≠ tree.rootId := by
  cases levels with
  | nil =>
    rw [above.1] at several
    simp at several
  | cons level upper =>
    exact (nodup_append.mp distinct).2.2 nodeId mem tree.rootId above.root_mem

/-- Every node that is split on the way up leaves a node with the smaller half of its
keys. -/
theorem attach_halves {changed : BPlusTree K V} {bound : Nat}
    (pending : Pending tree before item key rightId after levels) (enough : levels.length ≤ bound)
    (ran : attach bound item.2 key rightId (tree.parentOf item.2) tree = .ok () changed) :
    ∀ size ∈ splitSizes tree bound (tree.parentOf item.2),
      ∃ node : InternalNode K, changed.bodyOf node.id = some (.internal node) ∧
        node.id ≠ changed.rootId ∧ node.keys.length = (size - 1) / 2 := by
  induction levels generalizing tree before after item key rightId bound with
  | nil =>
    obtain ⟨alone, orphan⟩ := pending.above
    obtain ⟨rfl, rfl, rfl⟩ : before = [] ∧ item = (⊥, tree.rootId) ∧ after = [] := by
      cases before <;> simp_all
    simp [orphan, splitSizes_none]
  | cons level upper ih =>
    obtain ⟨levelBefore, low, node, levelAfter, grown, rfl, body, owner, inserted, idEq,
      grownLength, rowEq, unsaved⟩ := pending.insertion
    obtain ⟨bound, rfl⟩ : ∃ smaller, bound = smaller + 1 :=
      ⟨bound - 1, by rw [length_cons] at enough; omega⟩
    rw [owner, splitSizes_of_body body, ← grownLength]
    split
    next full =>
      obtain ⟨left, right, middle, -, rightLength, divided, placed, -, -, pendingUp, sizesUp⟩ :=
        pending.divide body owner inserted idEq rowEq unsaved full (by omega) bound
      have shorter : upper.length ≤ bound := by simpa using enough
      rw [divided] at ran
      rw [forall_mem_cons, ← sizesUp]
      refine ⟨⟨right.body, ?_⟩, ih pendingUp shorter ran⟩
      obtain ⟨result, reshaped, ranTo, above, change, -⟩ := attach_spec pendingUp shorter
      obtain rfl : changed = result := by
        rw [ran] at ranTo
        injection ranTo
      have mem : right.id ∈ (Level.items levelBefore ++ (low, left.id) ::
          (↑middle, right.id) :: Level.items levelAfter).map Prod.snd := by simp
      have distinct := (change.distinct_row _ pendingUp.distinct).nodup
      have several : 1 < (Level.items levelBefore ++ (low, left.id) ::
          (↑middle, right.id) :: Level.items levelAfter).length := by
        simp only [length_append, length_cons]
        omega
      refine ⟨?_, above.ne_root several distinct mem, ?_⟩
      · rw [body_id, change.bodies right.id]
        · exact (placed (↑middle, right.body) (by simp)).body
        · exact fun inUpper => (nodup_append.mp pendingUp.distinct.nodup).2.2 right.id
            mem right.id inUpper rfl
        · exact fun inUpper => (nodup_append.mp distinct).2.2 right.id mem right.id
            inUpper rfl
      · rw [body_keys, rightLength]
        omega
    next => simp

end Nanograph.BTree
