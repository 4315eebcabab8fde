import Nanograph.BTree.Underflow

/-!
# Propagating a merge

A merge takes one node out of a row. `removeFromParent_spec` follows the removal
up the levels: the parent loses a child, borrows from a sibling or merges with
one when it falls short, and a root with one child left is replaced by it. Like
the propagation of a split it is proved by induction on the levels.
-/

namespace Nanograph.BTree

open List Option BPlusTree BPlusTreeNode InternalNode Level

variable {K V : Type}

/-- The node that two siblings become, with the separator between their keys. -/
def InternalNode.joined (first : InternalNode K) (separator : K) (second : InternalNode K) :
    InternalNode K :=
  { first with
    keys := first.keys ++ separator :: second.keys
    children := first.children ++ second.children }

section

variable {tree : BPlusTree K V} {node sibling parent : InternalNode K} {siblingId : BTreeNodeId}

section

variable (parent) {keys : List K} {separator : K} {children : List BTreeNodeId}
  {child : BTreeNodeId} {pos : Nat} (owner : node.parent = some parent.id)
  (siblingStored : tree.node? siblingId = some (.internal sibling))
  (parentStored : tree.node? parent.id = some (.internal parent))

include parent owner siblingStored parentStored

theorem borrowFromLeft_internal {last : K}
    (separated : parent.separatorBefore node.id = some (pos, separator))
    (keysEq : sibling.keys = keys ++ [last]) (childrenEq : sibling.children = children ++ [child])
    (present : tree.bodyOf child ≠ none) :
    borrowFromLeft (.internal node) siblingId tree = .ok ()
      ((((tree.adopt node.id [child]).putNode
        (.internal { parent with keys := parent.keys.set (pos - 1) last })).putNode
        (.internal { sibling with keys := keys, children := children })).putNode
        (.internal { node with
          keys := separator :: node.keys, children := child :: node.children })) := by
  have adopts : adoptChildren node.id [child] tree = .ok () (tree.adopt node.id [child]) :=
    run_adoptChildren (by simpa using present)
  have rotates : rotateFromLeft parent.id node sibling tree = .ok
      ({ node with keys := separator :: node.keys, children := child :: node.children },
        { sibling with keys := keys, children := children })
      ((tree.adopt node.id [child]).putNode
        (.internal { parent with keys := parent.keys.set (pos - 1) last })) := by
    rw [rotateFromLeft, run_bind (run_getNode parentStored)]
    simp only [separated, keysEq, childrenEq, getLast?_append, getLast?_singleton, some_or,
      toList_some, elim_some, dropLast_concat, singleton_append]
    rw [run_bind adopts]
    rfl
  have ownerEq : (internal node : BPlusTreeNode K V).parent = some parent.id := owner
  rw [borrowFromLeft, run_bind (run_getNode siblingStored), ownerEq]
  simp only
  rw [run_bind rotates]
  rfl

theorem borrowFromRight_internal {next : K}
    (separated : parent.separatorAfter node.id = some (pos, separator))
    (keysEq : sibling.keys = next :: keys) (childrenEq : sibling.children = child :: children)
    (present : tree.bodyOf child ≠ none) :
    borrowFromRight (.internal node) siblingId tree = .ok ()
      ((((tree.adopt node.id [child]).putNode
        (.internal { parent with keys := parent.keys.set pos next })).putNode
        (.internal { sibling with keys := keys, children := children })).putNode
        (.internal { node with
          keys := node.keys ++ [separator], children := node.children ++ [child] })) := by
  have adopts : adoptChildren node.id [child] tree = .ok () (tree.adopt node.id [child]) :=
    run_adoptChildren (by simpa using present)
  have rotates : rotateFromRight parent.id node sibling tree = .ok
      ({ node with keys := node.keys ++ [separator], children := node.children ++ [child] },
        { sibling with keys := keys, children := children })
      ((tree.adopt node.id [child]).putNode
        (.internal { parent with keys := parent.keys.set pos next })) := by
    rw [rotateFromRight, run_bind (run_getNode parentStored)]
    simp only [separated, keysEq, childrenEq, head?_cons, tail_cons, toList_some, elim_some]
    rw [run_bind adopts]
    rfl
  have ownerEq : (internal node : BPlusTreeNode K V).parent = some parent.id := owner
  rw [borrowFromRight, run_bind (run_getNode siblingStored), ownerEq]
  simp only
  rw [run_bind rotates]
  rfl

end

/-- The tree after two nodes are merged into `merged`, before the parent of the
dropped one is told. -/
def putMerged (tree : BPlusTree K V) (merged : InternalNode K) (dropped : BTreeNodeId) :
    BPlusTree K V :=
  ((tree.adopt merged.id merged.children).putNode (.internal merged)).dropNode dropped

section

variable (parent) (removeFromParent : BTreeNodeId → BTreeNodeId → TreeM K V Unit) {separator : K}
  {pos : Nat} (owner : node.parent = some parent.id)
  (parentStored : tree.node? parent.id = some (.internal parent))

include removeFromParent parent owner parentStored

theorem mergeWithLeft_internal (siblingStored : tree.node? sibling.id = some (.internal sibling))
    (separated : parent.separatorBefore node.id = some (pos, separator))
    (present : ∀ child ∈ sibling.children ++ node.children, tree.bodyOf child ≠ none) :
    mergeWithLeft removeFromParent (.internal node) sibling.id tree =
      removeFromParent parent.id node.id
        (putMerged tree (sibling.joined separator node) node.id) := by
  have ownerEq : (internal node : BPlusTreeNode K V).parent = some parent.id := owner
  rw [mergeWithLeft, run_bind (run_getNode siblingStored), ownerEq]
  simp only [id_internal]
  rw [run_bind (run_getNode parentStored)]
  simp only [separated, map_some, toList_some, append_assoc, singleton_append]
  rw [run_bind (run_adoptChildren present)]
  rfl

theorem mergeWithRight_internal (siblingStored : tree.node? siblingId = some (.internal sibling))
    (separated : parent.separatorAfter node.id = some (pos, separator))
    (present : ∀ child ∈ node.children ++ sibling.children, tree.bodyOf child ≠ none) :
    mergeWithRight removeFromParent (.internal node) siblingId tree =
      removeFromParent parent.id siblingId
        (putMerged tree (node.joined separator sibling) siblingId) := by
  have ownerEq : (internal node : BPlusTreeNode K V).parent = some parent.id := owner
  rw [mergeWithRight, run_bind (run_getNode siblingStored), ownerEq]
  simp only [id_internal]
  rw [run_bind (run_getNode parentStored)]
  simp only [separated, map_some, toList_some, append_assoc, singleton_append]
  rw [run_bind (run_adoptChildren present)]
  rfl

end

end

variable {tree : BPlusTree K V} {upper : List (Level K)} {bound : Nat} {run : TreeM K V Unit}
  {held : Nat → Nat → Prop}

theorem bodyOf_putMerged (merged : InternalNode K) (dropped : BTreeNodeId) (keyed : tree.Keyed)
    (nodeId : BTreeNodeId) :
    (putMerged tree merged dropped).bodyOf nodeId = if nodeId = dropped then none
      else if nodeId = merged.id then some (.internal merged.body)
      else tree.bodyOf nodeId := by
  simp only [putMerged, bodyOf_dropNode, bodyOf_putNode, bodyOf_adopt _ _ _ keyed]
  rfl

theorem parentOf_putMerged (merged : InternalNode K) (dropped : BTreeNodeId) (keyed : tree.Keyed)
    (present : ∀ child ∈ merged.children, tree.bodyOf child ≠ none) (nodeId : BTreeNodeId) :
    (putMerged tree merged dropped).parentOf nodeId = if nodeId = dropped then none
      else if nodeId = merged.id then merged.parent
      else if nodeId ∈ merged.children then some merged.id
      else tree.parentOf nodeId := by
  have adopted : (nodeId ∈ merged.children ∧ tree.bodyOf nodeId ≠ none) =
      (nodeId ∈ merged.children) := by
    simpa using present nodeId
  simp only [putMerged, parentOf_dropNode, parentOf_putNode, parentOf_adopt _ _ _ keyed, adopted]
  rfl

/-- `removeFromParent` settles the levels from the parent's level up. -/
def Removes (K V : Type) (bound : Nat) (upper : List (Level K)) : Prop :=
  ∀ {tree : BPlusTree K V} {before after : Level K} {low : WithBot K}
    {parent shrunk : InternalNode K} {childId : BTreeNodeId},
    tree.bodyOf parent.id = some (.internal parent) →
    shrunk = ({ parent with parent := tree.parentOf parent.id } : InternalNode K).removeChild
      childId →
    Unsaved tree before [(low, shrunk)] after upper → shrunk.id = parent.id →
    shrunk.keys.length + 1 = parent.keys.length →
    SettlesLevel (removeFromParent bound parent.id childId) tree
      (before ++ (low, shrunk) :: after) upper
      (Occupied · · ((before ++ (low, parent) :: after) :: upper))

/-- The bounds hold but for one node, which may be one key short. -/
def OneShort (least most : Nat) (before : Level K) (node : InternalNode K) (after : Level K)
    (upper : List (Level K)) : Prop :=
  Within least most (before ++ after) ∧ least ≤ node.keys.length + 1 ∧ Occupied least most upper

section

variable {least most : Nat} {config : BPlusTreeConfig} {before after others : Level K}
  {node sibling : InternalNode K} {upper : List (Level K)}
  (oneShort : OneShort least most before node after upper)
  (among : others.Sublist (before ++ after)) (short : node.keys.length < config.minKeys)

include oneShort among short

/-- A sibling with keys to spare leaves both nodes within the bounds. -/
theorem OneShort.rotated {firstLow secondLow : WithBot K} {first second : InternalNode K}
    (beside : sibling ∈ (before ++ after).map Prod.snd)
    (spare : config.minKeys < sibling.keys.length)
    (taken : first.keys.length + 1 = sibling.keys.length ∧
        second.keys.length = node.keys.length + 1 ∨
      first.keys.length = node.keys.length + 1 ∧ second.keys.length + 1 = sibling.keys.length) :
    Occupied least most upper ∧ Within least most others ∧
      Within least most [(firstLow, first), (secondLow, second)] := by
  obtain ⟨fits, nearly, occupied⟩ := oneShort
  obtain ⟨place, mem, rfl⟩ := mem_map.mp beside
  have siblingFits := fits place mem
  refine ⟨occupied, fun place mem => fits place (among.mem mem),
    forall_mem_cons.mpr ⟨?_, forall_mem_singleton.mpr ?_⟩⟩
  · simp only
    omega
  · simp only
    omega

/-- Two nodes that are short enough fit into one. -/
theorem OneShort.merged {mergedLow : WithBot K} {merged : InternalNode K}
    (bounds : MergeBounds config least most) (full : sibling.keys.length ≤ config.minKeys)
    (length : merged.keys.length = node.keys.length + sibling.keys.length + 1) :
    Occupied least most upper ∧ Within least most others ∧
      Within least most [(mergedLow, merged)] := by
  obtain ⟨fits, nearly, occupied⟩ := oneShort
  have mergedFits := bounds.merged
  refine ⟨occupied, fun place mem => fits place (among.mem mem), forall_mem_singleton.mpr ?_⟩
  simp only [length]
  omega

end

/-- The parent lets go of the second one of two children. -/
theorem Shared.dropped {middle : BPlusTree K V} {before after : List (Item K)}
    {first second : Item K} {parentBefore parentAfter : Level K} {low : WithBot K}
    {parent : InternalNode K} {front back : List (Item K)}
    (shared : Shared tree before first second after parentBefore low parent parentAfter upper
      front back) (removes : Removes K V bound upper)
    (nodup : ((before ++ first :: second :: after).map Prod.snd).Nodup)
    (rowKept : RowKept tree middle ((before ++ first :: after).map Prod.snd)
      ((parentBefore ++ (low, parent) :: parentAfter) :: upper))
    (parents : ∀ nodeId ∈ (before ++ first :: after).map Prod.snd,
      middle.parentOf nodeId = tree.parentOf nodeId) :
    Settles (removeFromParent bound parent.id second.2) middle (before ++ first :: after)
      (levelIds ((parentBefore ++ (low, parent) :: parentAfter) :: upper))
      (Occupied · · ((parentBefore ++ (low, parent) :: parentAfter) :: upper)) := by
  obtain ⟨shrunkCut, shrunkBalanced, shrunkId, shrunkParent⟩ := removeChild_eq
    { parent with parent := tree.parentOf parent.id } shared.placed.balanced
    (shared.children_nodup nodup) shared.cut
  obtain ⟨unsaved, rowEq⟩ := shared.exchange _ [first] shrunkId shrunkParent shrunkBalanced
    (by simpa using shrunkCut) (by simp) (by simpa using rowKept) (by simpa using parents)
  have shorter : (({ parent with parent := tree.parentOf parent.id } :
      InternalNode K).removeChild second.2).keys.length + 1 = parent.keys.length := by
    have shrunkLength := length_childItems low shrunkBalanced
    have parentLength := length_childItems low shared.placed.balanced
    rw [shrunkCut] at shrunkLength
    rw [shared.cut] at parentLength
    simp only [length_append, length_cons] at shrunkLength parentLength
    omega
  have settled := removes ((rowKept.bodies parent.id (by simp)).trans shared.placed.body)
    (by rw [rowKept.parents parent.id (by simp)]) unsaved shrunkId shorter
  simpa [SettlesLevel, rowEq, shrunkId] using settled

section

variable {tree : BPlusTree K V} {before after : Level K} {firstLow secondLow : WithBot K}
  {first second : InternalNode K} {parentBefore parentAfter : Level K} {low : WithBot K}
  {parent : InternalNode K} {upper levels : List (Level K)} {front back : List (Item K)}

section

variable (unsaved : Unsaved tree before [(firstLow, first), (secondLow, second)] after levels)

include unsaved

/-- Two unsaved siblings and the levels above have different identifiers, and no child is shared
between the two. -/
theorem Unsaved.pair_apart :
    first.id ≠ second.id ∧ (∀ nodeId ∈ levelIds levels, nodeId ≠ first.id ∧ nodeId ≠ second.id) ∧
      ((before.items ++ (firstLow, first.id) :: (secondLow, second.id) :: after.items).map
        Prod.snd).Nodup ∧
      ∀ child ∈ first.children, child ∉ second.children := by
  obtain ⟨levelNodup, -, outside⟩ := nodup_append.mp unsaved.levels_nodup
  have apart : first.id ≠ second.id := by
    simp only [ids_append, ids_cons, nodup_append, nodup_cons, mem_append, mem_cons] at levelNodup
    grind
  refine ⟨apart, fun nodeId mem => ?_, by simpa using levelNodup, ?_⟩
  · exact ⟨(outside first.id (by simp) nodeId mem).symm,
      (outside second.id (by simp) nodeId mem).symm⟩
  · intro child inFirst inSecond
    have firstOwner := unsaved.adopted (firstLow, first) (by simp) child inFirst
    have secondOwner := unsaved.adopted (secondLow, second) (by simp) child inSecond
    rw [firstOwner, Option.some.injEq] at secondOwner
    exact apart secondOwner

/-- The children of two unsaved siblings are stored in the row below. -/
theorem Unsaved.pair_children :
    ∀ child ∈ first.children ++ second.children, tree.bodyOf child ≠ none ∧ ∀ nodeId ∈
      ids (before ++ ([(firstLow, first), (secondLow, second)] ++ after)) ++ levelIds levels,
        child ≠ nodeId := by
  intro child listed
  have inRow : child ∈ (below
      (before ++ ([(firstLow, first), (secondLow, second)] ++ after))).map Prod.snd := by
    rcases mem_append.mp listed with inFirst | inSecond
    · exact unsaved.mid_row (firstLow, first) (by simp) inFirst
    · exact unsaved.mid_row (secondLow, second) (by simp) inSecond
  exact ⟨unsaved.stored child inRow, (nodup_append.mp unsaved.distinct.nodup).2.2 child inRow⟩

end

/-- Two siblings become one, and the levels above let go of the second. -/
theorem Unsaved.merge {separator : K} (removes : Removes K V bound upper)
    (unsaved : Unsaved tree before [(firstLow, first), (↑separator, second)] after
      ((parentBefore ++ (low, parent) :: parentAfter) :: upper))
    (shared : Shared tree before.items (firstLow, first.id) (↑separator, second.id)
      after.items parentBefore low parent parentAfter upper front back)
    (ran : run tree = removeFromParent bound parent.id second.id
      (putMerged tree (first.joined separator second) second.id))
    (within : ∀ least most, MergeBounds tree.config least most → held least most →
      Occupied least most ((parentBefore ++ (low, parent) :: parentAfter) :: upper) ∧
      Within least most (before ++ after) ∧
      Within least most [(firstLow, (first.joined separator second).body)]) :
    SettlesLevel run tree
      (before ++ ([(firstLow, first), (↑separator, second)] ++ after))
      ((parentBefore ++ (low, parent) :: parentAfter) :: upper) held := by
  obtain ⟨apart, -, rowNodup, -⟩ := unsaved.pair_apart
  have firstBalanced := unsaved.balanced (firstLow, first) (by simp)
  have secondBalanced := unsaved.balanced (↑separator, second) (by simp)
  have balanced : (first.joined separator second).Balanced := by
    simp only [InternalNode.Balanced, joined, length_append,
      length_cons] at firstBalanced secondBalanced ⊢
    omega
  have itemsEq : childItems firstLow (first.joined separator second) =
      childItems firstLow first ++ childItems separator second :=
    childItems_join first second firstBalanced rfl rfl
  have children := unsaved.pair_children
  have bodies := bodyOf_putMerged (first.joined separator second) second.id unsaved.keyed
  have parents := parentOf_putMerged (first.joined separator second) second.id unsaved.keyed
    fun child listed => (children child listed).1
  have change : Reshaped tree (putMerged tree (first.joined separator second) second.id)
      ((below [(firstLow, first), (↑separator, second)]).map Prod.snd)
      (ids [(firstLow, first), (↑separator, second)])
      (ids [(firstLow, (first.joined separator second).body)]) := by
    constructor
    · exact ((unsaved.keyed.adopt _ _).putNode _).dropNode _
    · simp [putMerged]
    · simp [putMerged]
    · simp [putMerged]
    · simp [joined]
    · simp
    · intro nodeId notOld notNew
      simp only [ids_cons, body_id, ids_nil, mem_cons,
        not_mem_nil, or_false, not_or] at notOld notNew
      rw [bodies, if_neg notOld.2, if_neg notNew]
    · intro nodeId notOld notNew notRow
      simp only [ids_cons, body_id, ids_nil, mem_cons,
        not_mem_nil, or_false, not_or] at notOld notNew
      have notChild : nodeId ∉ (first.joined separator second).children := by
        rw [← map_snd_childItems firstLow balanced, itemsEq]
        simpa using notRow
      rw [parents, if_neg notOld.2, if_neg notNew, if_neg notChild]
    · intro nodeId isOld notNew
      simp only [ids_cons, body_id, ids_nil, mem_cons, not_mem_nil, or_false] at isOld notNew
      rw [bodies, if_pos (isOld.resolve_left notNew)]
  have whole : ∀ place ∈ [(firstLow, (first.joined separator second).body)],
      Placed (putMerged tree (first.joined separator second) second.id) place.2 := by
    intro place mem
    obtain rfl := mem_singleton.mp mem
    refine ⟨?_, balanced, ?_⟩
    · rw [bodies]
      exact (if_neg apart).trans (if_pos rfl)
    · intro child listed
      have outside := (children child listed).2
      rw [parents, if_neg (outside _ (by simp))]
      exact (if_neg (outside first.id (by simp))).trans (if_pos listed)
  refine unsaved.settles _ whole change (by simp [itemsEq]) (by simp [putMerged]) ran
    (fun rowKept => ?_) within
  have rowParents : ∀ nodeId ∈ ids
      (before ++ ([(firstLow, (first.joined separator second).body)] ++ after)),
      (putMerged tree (first.joined separator second) second.id).parentOf nodeId =
        tree.parentOf nodeId := by
    intro nodeId mem
    have listed : nodeId ∈ ids (before ++ ([(firstLow, first), (↑separator, second)] ++ after)) ∧
        nodeId ≠ second.id := by
      simp only [ids_append, ids_cons, body_id, joined, map_append, map_cons, map_snd_items,
        nodup_append, nodup_cons, mem_append, mem_cons, ids_nil, not_mem_nil, or_false]
        at mem rowNodup ⊢
      grind
    rw [parents, if_neg listed.2]
    split
    next equal =>
      rw [equal]
      exact unsaved.parent (firstLow, first) (by simp)
    next =>
      exact if_neg fun isChild =>
        (children nodeId isChild).2 nodeId (mem_append_left _ listed.1) rfl
  have settled := shared.dropped removes rowNodup
    (by simpa [joined] using rowKept) (by simpa [joined] using rowParents)
  simpa [joined] using settled

/-- A child moves between two siblings, and their parent takes the new bound. -/
theorem Unsaved.rotate (newFirst newSecond : InternalNode K) (newLow : K)
    (owner moved : BTreeNodeId) {actual : BPlusTree K V}
    (unsaved : Unsaved tree before [(firstLow, first), (secondLow, second)] after
      ((parentBefore ++ (low, parent) :: parentAfter) :: upper))
    (shared : Shared tree before.items (firstLow, first.id) (secondLow, second.id) after.items
      parentBefore low parent parentAfter upper front back) (firstId : newFirst.id = first.id)
    (secondId : newSecond.id = second.id) (firstParent : newFirst.parent = first.parent)
    (secondParent : newSecond.parent = second.parent) (firstBalanced : newFirst.Balanced)
    (secondBalanced : newSecond.Balanced)
    (itemsEq : childItems firstLow newFirst ++ childItems newLow newSecond =
      childItems firstLow first ++ childItems secondLow second)
    (isMoved : moved ∈ first.children ++ second.children) (firstKeeps : ∀ child ∈ newFirst.children,
      if child = moved then owner = first.id else child ∈ first.children)
    (secondKeeps : ∀ child ∈ newSecond.children,
      if child = moved then owner = second.id else child ∈ second.children)
    (ran : run tree = .ok () actual)
    (same : SameNodes actual ((((tree.adopt owner [moved]).putNode (.internal newFirst)).putNode
      (.internal newSecond)).putNode (.internal { parent with
        parent := tree.parentOf parent.id, keys := parent.keys.set front.length newLow })))
    (within : ∀ least most, MergeBounds tree.config least most → held least most →
      Occupied least most ((parentBefore ++ (low, parent) :: parentAfter) :: upper) ∧
      Within least most (before ++ after) ∧
      Within least most [(firstLow, newFirst.body), (↑newLow, newSecond.body)]) :
    SettlesLevel run tree (before ++ ([(firstLow, first), (secondLow, second)] ++ after))
      ((parentBefore ++ (low, parent) :: parentAfter) :: upper) held := by
  obtain ⟨apart, -, -, -⟩ := unsaved.pair_apart
  let middle := ((tree.adopt owner [moved]).putNode (.internal newFirst)).putNode
    (.internal newSecond)
  have children := unsaved.pair_children
  have stored : tree.bodyOf moved ≠ none := (children moved isMoved).1
  have bodies : ∀ nodeId, middle.bodyOf nodeId =
      if nodeId = second.id then some (.internal newSecond.body)
      else if nodeId = first.id then some (.internal newFirst.body)
      else tree.bodyOf nodeId := by
    intro nodeId
    simp only [middle, bodyOf_putNode, bodyOf_adopt _ _ _ unsaved.keyed,
      id_internal, firstId, secondId]
    rfl
  have parents : ∀ nodeId, middle.parentOf nodeId = if nodeId = second.id then second.parent
      else if nodeId = first.id then first.parent
      else if nodeId = moved then some owner
      else tree.parentOf nodeId := by
    intro nodeId
    have adopted : (nodeId ∈ [moved] ∧ tree.bodyOf nodeId ≠ none) = (nodeId = moved) := by
      rw [mem_singleton, eq_iff_iff]
      exact ⟨fun both => both.1, fun equal => ⟨equal, equal ▸ stored⟩⟩
    simp only [middle, parentOf_putNode, parentOf_adopt _ _ _ unsaved.keyed, adopted, id_internal,
      parent_internal, firstId, secondId, firstParent, secondParent]
  have sameIds : ids [(firstLow, newFirst.body), (↑newLow, newSecond.body)] =
      ids [(firstLow, first), (secondLow, second)] := by simp [firstId, secondId]
  have change : Reshaped tree middle
      ((below [(firstLow, first), (secondLow, second)]).map Prod.snd)
      (ids [(firstLow, first), (secondLow, second)])
      (ids [(firstLow, newFirst.body), (↑newLow, newSecond.body)]) := by
    rw [sameIds]
    constructor
    · exact ((unsaved.keyed.adopt _ _).putNode _).putNode _
    · simp [middle]
    · simp [middle]
    · simp [middle]
    · exact fun nodeId mem => Or.inl mem
    · simpa using apart
    · intro nodeId notOld _
      simp only [ids_cons, ids_nil, mem_cons, not_mem_nil, or_false, not_or] at notOld
      rw [bodies, if_neg notOld.2, if_neg notOld.1]
    · intro nodeId notOld _ notRow
      simp only [ids_cons, ids_nil, mem_cons, not_mem_nil, or_false, not_or] at notOld
      have notMoved : nodeId ≠ moved := by
        rintro rfl
        apply notRow
        simpa [map_snd_childItems _ (unsaved.balanced (firstLow, first) (by simp)),
          map_snd_childItems _ (unsaved.balanced (secondLow, second) (by simp))] using isMoved
      rw [parents, if_neg notOld.2, if_neg notOld.1, if_neg notMoved]
    · exact fun nodeId mem outside => absurd mem outside
  -- Each of the two new nodes has its own children and perhaps the one that moved.
  have owned : ∀ place ∈ [(firstLow, first), (secondLow, second)], ∀ child,
      (if child = moved then owner = place.2.id else child ∈ place.2.children) →
      middle.parentOf child = some place.2.id := by
    intro place mem child keeps
    have known : child ∈ first.children ++ second.children := by
      split at keeps
      next equal => exact equal ▸ isMoved
      next =>
        rcases mem_pair.mp mem with rfl | rfl
        · exact mem_append_left _ keeps
        · exact mem_append_right _ keeps
    have outside := (children child known).2
    rw [parents, if_neg (outside _ (by simp)), if_neg (outside _ (by simp))]
    split at keeps
    next equal => rw [if_pos equal, keeps]
    next different =>
      rw [if_neg different]
      exact unsaved.adopted place mem child keeps
  have both : ∀ place ∈ [(firstLow, newFirst.body), (↑newLow, newSecond.body)],
      Placed middle place.2 := by
    simp only [mem_cons, not_mem_nil, or_false, forall_eq_or_imp, forall_eq]
    refine ⟨⟨?_, firstBalanced, fun child listed => ?_⟩, ?_, secondBalanced, fun child listed => ?_⟩
    · rw [bodies, body_id, firstId, if_neg apart, if_pos rfl]
    · rw [body_id, firstId]
      exact owned (firstLow, first) (by simp) child (firstKeeps child listed)
    · rw [bodies, body_id, secondId, if_pos rfl]
    · rw [body_id, secondId]
      exact owned (secondLow, second) (by simp) child (secondKeeps child listed)
  let saved : TreeM K V Unit := fun middle => .ok () (middle.putNode (.internal { parent with
    parent := tree.parentOf parent.id, keys := parent.keys.set front.length newLow }))
  let rotated : TreeM K V Unit := fun _ => saved middle
  refine (unsaved.settles _ both change (by simpa using itemsEq) (by simp [middle])
    (show rotated tree = saved middle from rfl) (fun rowKept => ?_) within).same rfl ran same
  have rowParents : ∀ nodeId ∈ ids
      (before ++ ([(firstLow, first), (secondLow, second)] ++ after)),
      middle.parentOf nodeId = tree.parentOf nodeId := by
    intro nodeId mem
    have notMoved : nodeId ≠ moved :=
      ((children moved isMoved).2 nodeId (mem_append_left _ mem)).symm
    rw [parents, if_neg notMoved]
    split
    next equal => rw [equal, unsaved.parent (secondLow, second) (by simp)]
    next =>
      split
      next equal => rw [equal, unsaved.parent (firstLow, first) (by simp)]
      next => rfl
  have settled := shared.rewritten newLow (by simpa [firstId, secondId] using rowKept)
    (by simpa using rowParents) (show saved middle = _ from rfl)
  simpa [firstId, secondId] using settled

variable {siblingLow : WithBot K} {node sibling : InternalNode K} {parentLow : WithBot K}
  {bound : Nat} {run : TreeM K V Unit}

/-- A node that is short takes a child from the sibling before it or is merged into it. -/
theorem underflow_left (removes : Removes K V bound upper)
    (unsaved : Unsaved tree (before ++ [(siblingLow, sibling)]) [(low, node)] after
      ((parentBefore ++ (parentLow, parent) :: parentAfter) :: upper))
    (shared : Shared tree before.items (siblingLow, sibling.id) (low, node.id) after.items
      parentBefore parentLow parent parentAfter upper front back)
    (short : node.keys.length < tree.config.minKeys)
    (chosen : tree.config.minKeys < sibling.keys.length ∧
        run tree = borrowFromLeft (.internal node) sibling.id tree ∨
      sibling.keys.length ≤ tree.config.minKeys ∧
        run tree = mergeWithLeft (removeFromParent bound) (.internal node) sibling.id tree) :
    SettlesLevel run tree (before ++ [(siblingLow, sibling)] ++ (low, node) :: after)
      ((parentBefore ++ (parentLow, parent) :: parentAfter) :: upper)
      (OneShort · · (before ++ [(siblingLow, sibling)]) node after
        ((parentBefore ++ (parentLow, parent) :: parentAfter) :: upper)) := by
  let first : InternalNode K := { sibling with parent := tree.parentOf sibling.id }
  have opened : Unsaved tree before [(siblingLow, first), (low, node)] after _ :=
    unsaved.open_left
  have siblingPlaced : Placed tree sibling := unsaved.placed (siblingLow, sibling) (by simp)
  have siblingStored : tree.node? first.id = some (.internal first) :=
    node?_of_bodyOf siblingPlaced.body
  obtain ⟨-, levelsApart, rowNodup, childrenApart⟩ := opened.pair_apart
  obtain ⟨parentNotFirst, parentNotNode⟩ := levelsApart parent.id (by simp)
  obtain ⟨⟨-, owner⟩, separator, rfl, separated, -⟩ := shared.separated rowNodup
  replace owner := (unsaved.parent (↑separator, node) (by simp)).trans owner
  have siblingBalanced : sibling.children.length = sibling.keys.length + 1 :=
    siblingPlaced.balanced
  have children := opened.pair_children
  have sameLevel : SettlesLevel run tree
      (before ++ [(siblingLow, sibling)] ++ (↑separator, node) :: after) =
      SettlesLevel run tree
        (before ++ ([(siblingLow, first), (↑separator, node)] ++ after)) := by
    funext levels held
    simp [SettlesLevel, first, childItems]
  rw [sameLevel]
  rcases chosen with ⟨spare, chosen⟩ | ⟨full, chosen⟩
  · obtain ⟨keys, last, keysEq⟩ := Foundation.exists_last sibling.keys (by omega)
    obtain ⟨kept, child, childrenEq⟩ := Foundation.exists_last sibling.children (by omega)
    have isChild : child ∈ first.children := by simp [first, childrenEq]
    have ran := borrowFromLeft_internal { parent with parent := tree.parentOf parent.id } owner
      siblingStored shared.parentStored separated keysEq childrenEq
      (children child (mem_append_left _ isChild)).1
    obtain ⟨givenBalanced, given⟩ := childItems_last siblingLow first siblingPlaced.balanced
      keysEq childrenEq
    refine opened.rotate { first with keys := keys, children := kept }
      { node with keys := separator :: node.keys, children := child :: node.children } last
      node.id child shared rfl rfl rfl rfl givenBalanced ?_ ?_ (mem_append_left _ isChild)
      ?_ ?_ (chosen.trans ran) ?_ ?_
    · simpa [InternalNode.Balanced] using
        unsaved.balanced (↑separator, node) (by simp)
    · rw [given, append_assoc]
      rfl
    · intro other listed
      have nodup := opened.children_nodup (siblingLow, first) (by simp)
      simp only [first, childrenEq, nodup_append] at nodup
      have different : other ≠ child := nodup.2.2 other listed child (by simp)
      rw [if_neg different]
      simp [first, childrenEq, listed]
    · intro other listed
      rcases mem_cons.mp listed with rfl | isOld
      · rw [if_pos rfl]
      · have different : other ≠ child := fun equal => childrenApart child isChild (equal ▸ isOld)
        rw [if_neg different]
        exact isOld
    · refine ((SameNodes.putNode_comm _ ?_).putNode _).trans (SameNodes.putNode_comm _ ?_)
      · exact parentNotFirst
      · exact parentNotNode
    · exact fun least most _ oneShort => oneShort.rotated (by simp) short (by simp)
        spare (.inl ⟨by simp [keysEq], by simp⟩)
  · have ran := mergeWithLeft_internal { parent with parent := tree.parentOf parent.id }
      (removeFromParent bound) owner shared.parentStored siblingStored separated
      fun child listed => (children child listed).1
    exact opened.merge removes shared (chosen.trans ran) fun least most bounds oneShort =>
      oneShort.merged (by simp) short bounds full (by
        simp [joined, first]
        omega)

/-- A node that is short takes a child from the sibling behind it or takes it in. -/
theorem underflow_right (removes : Removes K V bound upper)
    (unsaved : Unsaved tree before [(low, node)] ((siblingLow, sibling) :: after)
      ((parentBefore ++ (parentLow, parent) :: parentAfter) :: upper))
    (shared : Shared tree before.items (low, node.id) (siblingLow, sibling.id) after.items
      parentBefore parentLow parent parentAfter upper front back)
    (short : node.keys.length < tree.config.minKeys)
    (chosen : tree.config.minKeys < sibling.keys.length ∧
        run tree = borrowFromRight (.internal node) sibling.id tree ∨
      sibling.keys.length ≤ tree.config.minKeys ∧
        run tree = mergeWithRight (removeFromParent bound) (.internal node) sibling.id tree) :
    SettlesLevel run tree (before ++ (low, node) :: (siblingLow, sibling) :: after)
      ((parentBefore ++ (parentLow, parent) :: parentAfter) :: upper)
      (OneShort · · before node ((siblingLow, sibling) :: after)
        ((parentBefore ++ (parentLow, parent) :: parentAfter) :: upper)) := by
  let second : InternalNode K := { sibling with parent := tree.parentOf sibling.id }
  have opened : Unsaved tree before [(low, node), (siblingLow, second)] after _ :=
    unsaved.open_right
  have siblingPlaced : Placed tree sibling := unsaved.placed (siblingLow, sibling) (by simp)
  have siblingStored : tree.node? second.id = some (.internal second) :=
    node?_of_bodyOf siblingPlaced.body
  obtain ⟨apart, levelsApart, rowNodup, childrenApart⟩ := opened.pair_apart
  obtain ⟨parentNotNode, parentNotSecond⟩ := levelsApart parent.id (by simp)
  obtain ⟨⟨owner, -⟩, separator, rfl, -, separated⟩ := shared.separated rowNodup
  replace owner := (unsaved.parent (low, node) (by simp)).trans owner
  have siblingBalanced : sibling.children.length = sibling.keys.length + 1 :=
    siblingPlaced.balanced
  have nodeBalanced := unsaved.balanced (low, node) (by simp)
  have children := opened.pair_children
  have sameLevel : SettlesLevel run tree
      (before ++ (low, node) :: (↑separator, sibling) :: after) =
      SettlesLevel run tree
        (before ++ ([(low, node), (↑separator, second)] ++ after)) := by
    funext levels held
    simp [SettlesLevel, second, childItems]
  rw [sameLevel]
  rcases chosen with ⟨spare, chosen⟩ | ⟨full, chosen⟩
  · obtain ⟨next, keys, keysEq⟩ := exists_cons_of_length_pos (l := sibling.keys) (by omega)
    obtain ⟨child, kept, childrenEq⟩ :=
      exists_cons_of_length_pos (l := sibling.children) (by omega)
    have isChild : child ∈ second.children := by simp [second, childrenEq]
    have ran := borrowFromRight_internal { parent with parent := tree.parentOf parent.id } owner
      siblingStored shared.parentStored separated keysEq childrenEq
      (children child (mem_append_right _ isChild)).1
    obtain ⟨givenBalanced, given⟩ := childItems_first (separator : WithBot K) second
      siblingPlaced.balanced keysEq childrenEq
    refine opened.rotate { node with
        keys := node.keys ++ [separator], children := node.children ++ [child] }
      { second with keys := keys, children := kept } next node.id child shared rfl rfl rfl rfl
      ?_ givenBalanced ?_ (mem_append_right _ isChild) ?_ ?_ (chosen.trans ran) ?_ ?_
    · simpa [InternalNode.Balanced] using nodeBalanced
    · rw [given, childItems_join node { node with keys := [], children := [child] }
        nodeBalanced rfl rfl, append_assoc]
      rfl
    · intro other listed
      rcases mem_append.mp listed with isOld | isNew
      · have different : other ≠ child := fun equal => childrenApart other isOld (equal ▸ isChild)
        rw [if_neg different]
        exact isOld
      · rw [if_pos (mem_singleton.mp isNew)]
    · intro other listed
      have nodup := opened.children_nodup (↑separator, second) (by simp)
      simp only [second, childrenEq, nodup_cons] at nodup
      have different : other ≠ child := fun equal => nodup.1 (equal ▸ listed)
      rw [if_neg different]
      simp [second, childrenEq, listed]
    · refine (((SameNodes.putNode_comm _ ?_).putNode _).trans
        (SameNodes.putNode_comm _ ?_)).trans ((SameNodes.putNode_comm _ ?_).putNode _)
      · exact parentNotSecond
      · exact parentNotNode
      · exact apart.symm
    · exact fun least most _ oneShort => oneShort.rotated (by simp) short (by simp)
        spare (.inr ⟨by simp, by simp [keysEq]⟩)
  · have ran := mergeWithRight_internal { parent with parent := tree.parentOf parent.id }
      (removeFromParent bound) owner shared.parentStored siblingStored separated
      fun child listed => (children child listed).1
    exact opened.merge removes shared (chosen.trans ran) fun least most bounds oneShort =>
      oneShort.merged (by simp) short bounds full (by
        simp [joined, second]
        omega)

end

theorem Settles.of_run {other : TreeM K V Unit} {row : List (Item K)} {old : List BTreeNodeId}
    (same : run tree = other tree) (settled : Settles other tree row old held) :
    Settles run tree row old held := by
  obtain ⟨changed, reshaped, ran, rest⟩ := settled
  exact ⟨changed, reshaped, same.trans ran, rest⟩

/-- The last item of a row of nodes is a node. -/
theorem Level.items_last {level : Level K} {front : List (Item K)} {item : Item K}
    (cut : level.items = front ++ [item]) :
    ∃ before low node, level = before ++ [(low, node)] ∧ items before = front ∧
      item = (low, node.id) := by
  obtain ⟨before, last, rfl, beforeEq, lastEq⟩ := map_eq_append_iff.mp cut
  obtain ⟨⟨low, node⟩, rest, rfl, itemEq, restEq⟩ := map_eq_cons_iff.mp lastEq
  obtain rfl := map_eq_nil_iff.mp restEq
  exact ⟨before, low, node, rfl, beforeEq, itemEq.symm⟩

/-- The first item of a row of nodes is a node. -/
theorem Level.items_first {level : Level K} {back : List (Item K)} {item : Item K}
    (cut : level.items = item :: back) :
    ∃ low node after, level = (low, node) :: after ∧ items after = back ∧
      item = (low, node.id) := by
  obtain ⟨⟨low, node⟩, after, rfl, itemEq, afterEq⟩ := map_eq_cons_iff.mp cut
  exact ⟨low, node, after, rfl, afterEq, itemEq.symm⟩

/-- An internal node that falls short is repaired. -/
theorem handleUnderflow_internal {before after : Level K} {low : WithBot K} {node : InternalNode K}
    {parentLevel : Level K} (removes : Removes K V bound upper)
    (unsaved : Unsaved tree before [(low, node)] after (parentLevel :: upper))
    (short : node.keys.length < tree.config.minKeys) :
    SettlesLevel (handleUnderflow (removeFromParent bound) (.internal node)) tree
      (before ++ (low, node) :: after) (parentLevel :: upper)
      (OneShort · · before node after (parentLevel :: upper)) := by
  have rowNodup := (nodup_append.mp unsaved.levels_nodup).1
  obtain ⟨parentBefore, parentLow, parent, parentAfter, front, back, rfl,
    ⟨rest, left, stored, rowEq, found, shared, chosen⟩ |
    ⟨right, rest, stored, rowEq, found, shared, chosen⟩ | ⟨keysEq, ran⟩⟩ :=
    handleUnderflow_cases (removeFromParent bound) (.internal node)
      (show Above tree (before.items ++ (low, node.id) :: after.items) _ by simpa using unsaved.above)
      (unsaved.parent (low, node) (by simp)) (by simpa using rowNodup) (by
        rw [← items_append]
        intro item listed
        obtain ⟨place, mem, rfl⟩ := mem_map.mp listed
        exact ⟨_, node?_of_bodyOf (unsaved.placed place mem).body⟩)
  · obtain ⟨before, siblingLow, sibling, rfl, rfl, rfl⟩ := items_last rowEq
    have body := node?_of_bodyOf (unsaved.placed (siblingLow, sibling) (by simp)).body
    obtain rfl := Option.some.inj (found.symm.trans body)
    exact underflow_left removes unsaved shared short chosen
  · obtain ⟨siblingLow, sibling, after, rfl, rfl, rfl⟩ := items_first rowEq
    have body := node?_of_bodyOf (unsaved.placed (siblingLow, sibling) (by simp)).body
    obtain rfl := Option.some.inj (found.symm.trans body)
    exact underflow_right removes unsaved shared short chosen
  · refine unsaved.save _ ran ?_
    -- Within bounds the parent has two children, so a sibling exists.
    rintro least most bounds ⟨-, -, occupied⟩
    have positive := bounds.positive
    have parentFits := (occupied.1 (parentLow, parent) (by simp)).1
    simp only [keysEq, length_nil] at parentFits
    split at parentFits <;> omega

theorem Settles.imp {row : List (Item K)} {old : List BTreeNodeId} {assumed : Nat → Nat → Prop}
    (settled : Settles run tree row old held)
    (implied : ∀ least most, MergeBounds tree.config least most → assumed least most →
      held least most) : Settles run tree row old assumed := by
  obtain ⟨changed, reshaped, ran, above, change, occupied⟩ := settled
  exact ⟨changed, reshaped, ran, above, change, fun least most bounds assumption =>
    occupied least most bounds (implied least most bounds assumption)⟩

section

variable {tree : BPlusTree K V} {parent shrunk : InternalNode K} {childId : BTreeNodeId}
  {bound : Nat}

section

variable (body : tree.bodyOf parent.id = some (.internal parent)) (shrunkEq : shrunk =
    ({ parent with parent := tree.parentOf parent.id } : InternalNode K).removeChild childId)

include body shrunkEq

/-- A root with one child left gives way to it. -/
theorem removeFromParent_collapses {rootId : BTreeNodeId} {newRoot : BPlusTreeNode K V}
    (orphan : shrunk.parent = none) (alone : shrunk.children = [rootId])
    (stored : tree.node? rootId = some newRoot) :
    removeFromParent (bound + 1) parent.id childId tree =
      .ok () (((tree.putNode (newRoot.setParent none)).setRoot rootId).dropNode parent.id) := by
  rw [removeFromParent, run_bind (run_getNode (node?_of_bodyOf body))]
  simp only [setParent, ← shrunkEq, parent_internal, orphan, getAllChildren, alone]
  rw [run_bind (run_getNode stored)]
  rfl

/-- Any other node is stored without the child, or repaired when it falls short. -/
theorem removeFromParent_keeps (bound : Nat)
    (stays : shrunk.parent = none → shrunk.children.length ≠ 1) :
    removeFromParent (bound + 1) parent.id childId tree =
      if shrunk.keys.length < tree.config.minKeys ∧ shrunk.parent.isSome then
        handleUnderflow (removeFromParent bound) (.internal shrunk) tree
      else .ok () (tree.putNode (.internal shrunk)) := by
  rw [removeFromParent, run_bind (run_getNode (node?_of_bodyOf body))]
  have keeps : (do
      let config := (← MonadState.get).config
      if (internal shrunk : BPlusTreeNode K V).len < config.minKeys ∧ shrunk.parent.isSome then
        handleUnderflow (removeFromParent bound) (.internal shrunk)
      else updateNode (.internal shrunk) : TreeM K V Unit) tree =
      if shrunk.keys.length < tree.config.minKeys ∧ shrunk.parent.isSome then
        handleUnderflow (removeFromParent bound) (.internal shrunk) tree
      else .ok () (tree.putNode (.internal shrunk)) := by
    rw [run_bind run_get, run_ite]
    rfl
  rw [← keeps]
  simp only [setParent, ← shrunkEq, parent_internal, getAllChildren]
  -- Only an orphan with one child takes the other branch.
  cases parentEq : shrunk.parent with
  | some owner => rfl
  | none =>
    rcases childrenEq : shrunk.children with _ | ⟨child, _ | ⟨second, rest⟩⟩
    · rfl
    · exact absurd (by simp [childrenEq]) (stays parentEq)
    · rfl

theorem Unsaved.collapse {rootId : BTreeNodeId} (unsaved : Unsaved tree [] [(⊥, shrunk)] [] [])
    (shrunkId : shrunk.id = parent.id) (orphan : shrunk.parent = none)
    (alone : shrunk.children = [rootId]) :
    SettlesLevel (removeFromParent (bound + 1) parent.id childId) tree
      [((⊥ : WithBot K), shrunk)] [] held := by
  have balanced := unsaved.balanced (⊥, shrunk) (by simp)
  have isChild : rootId ∈ shrunk.children := by simp [alone]
  have present : tree.bodyOf rootId ≠ none :=
    unsaved.stored rootId (unsaved.mid_row (⊥, shrunk) (by simp) isChild)
  obtain ⟨newRoot, stored⟩ := ne_none_iff_exists'.mp (mt bodyOf_eq_none.mpr present)
  have newRootId : newRoot.id = rootId := unsaved.keyed rootId newRoot stored
  have apart : rootId ≠ parent.id := shrunkId ▸
    unsaved.child_ne (⊥, shrunk) (by simp) isChild (by simp)
  let changed := ((tree.putNode (newRoot.setParent none)).setRoot rootId).dropNode parent.id
  have bodies : ∀ nodeId, changed.bodyOf nodeId =
      if nodeId = parent.id then none else tree.bodyOf nodeId := by
    intro nodeId
    simp only [changed, bodyOf_dropNode, bodyOf_setRoot, bodyOf_putNode,
      id_setParent, newRootId, setParent_setParent]
    by_cases isRoot : nodeId = rootId
    · simp [isRoot, apart, bodyOf, stored]
    · simp [isRoot]
  have parents : ∀ nodeId, changed.parentOf nodeId = if nodeId = parent.id then none
      else if nodeId = rootId then none
      else tree.parentOf nodeId := by
    simp [changed, newRootId]
  have rowEq : below [((⊥ : WithBot K), shrunk)] = [(⊥, rootId)] := by
    have keysEq : shrunk.keys = [] := by
      rw [InternalNode.Balanced, alone] at balanced
      exact eq_nil_of_length_eq_zero (by simpa using balanced)
    simp [childItems, keysEq, alone]
  rw [SettlesLevel, rowEq]
  refine ⟨changed, [], removeFromParent_collapses body shrunkEq orphan alone stored,
    ⟨rfl, ?_⟩, ?_, fun _ _ _ _ => trivial⟩
  · simp [parents, changed]
  · constructor
    · exact ((unsaved.keyed.putNode _).setRoot _).dropNode _
    · rfl
    · rfl
    · exact le_rfl
    · simp
    · simp
    · intro nodeId notOld _
      rw [bodies, if_neg]
      simpa [shrunkId] using notOld
    · intro nodeId notOld _ notRow
      rw [parents, if_neg (by simpa [shrunkId] using notOld), if_neg (by simpa using notRow)]
    · intro nodeId isOld _
      rw [bodies, if_pos]
      simpa [shrunkId] using isOld

end

end

/-- The levels above a row let go of a child. -/
theorem removeFromParent_spec (enough : upper.length + 1 ≤ bound) : Removes K V bound upper := by
  induction upper generalizing bound with
  | nil =>
    intro tree before after low parent shrunk childId body shrunkEq unsaved shrunkId shrunkLength
    obtain ⟨bound, rfl⟩ : ∃ smaller, bound = smaller + 1 := ⟨bound - 1, by omega⟩
    obtain ⟨alone, orphanRoot⟩ := unsaved.above
    obtain ⟨rfl, rfl, rfl, rootEq⟩ :
        before = [] ∧ after = [] ∧ low = ⊥ ∧ shrunk.id = tree.rootId := by
      have lengths := congrArg List.length alone
      simp only [items, length_map, length_append, length_singleton]
        at lengths
      obtain rfl : before = [] := eq_nil_of_length_eq_zero (by omega)
      obtain rfl : after = [] := eq_nil_of_length_eq_zero (by omega)
      simpa using alone
    have orphan : shrunk.parent = none := by
      rw [unsaved.parent (⊥, shrunk) (by simp), rootEq, orphanRoot]
    have balanced : shrunk.children.length = shrunk.keys.length + 1 :=
      unsaved.balanced (⊥, shrunk) (by simp)
    by_cases single : shrunk.children.length = 1
    · obtain ⟨rootId, children⟩ := length_eq_one_iff.mp single
      exact unsaved.collapse body shrunkEq shrunkId orphan children
    · have ran := removeFromParent_keeps body shrunkEq bound fun _ => single
      rw [if_neg (by simp [orphan])] at ran
      refine unsaved.save _ ran ?_
      intro least most bounds occupied
      have own := occupied.1 (⊥, parent) (by simp)
      refine ⟨?_, occupied.2⟩
      intro place mem
      obtain rfl : place = (⊥, shrunk.body) := by simpa using mem
      simp only [body_keys, if_true] at own ⊢
      omega
  | cons parentLevel upper ih =>
    intro tree before after low parent shrunk childId body shrunkEq unsaved shrunkId shrunkLength
    obtain ⟨bound, rfl⟩ : ∃ smaller, bound = smaller + 1 := ⟨bound - 1, by omega⟩
    have owned : shrunk.parent ≠ none := by
      have above : Above tree (before.items ++ (low, shrunk.id) :: after.items)
          (parentLevel :: upper) := by simpa using unsaved.above
      obtain ⟨_, upperLow, owner, _, front, back, levelEq, cut, -, -⟩ := above.cut
      have placed : Placed tree owner := above.2.1 (upperLow, owner) (by simp [levelEq])
      have children := (childItems_cut placed.balanced cut).1
      have parentEq : shrunk.parent = tree.parentOf shrunk.id :=
        unsaved.parent (low, shrunk) (by simp)
      simp [parentEq, placed.adopted shrunk.id (by simp [children])]
    have ran := removeFromParent_keeps body shrunkEq bound
      fun orphan => absurd orphan owned
    by_cases short : shrunk.keys.length < tree.config.minKeys
    · rw [if_pos ⟨short, isSome_iff_ne_none.mpr owned⟩] at ran
      refine ((handleUnderflow_internal (ih (by simpa using enough)) unsaved
        short).of_run ran).imp ?_
      intro least most _ occupied
      have fits : ∀ place ∈ before ++ (low, parent) :: after,
          least ≤ place.2.keys.length ∧ place.2.keys.length ≤ most := by simpa using occupied.1
      refine ⟨?_, ?_, occupied.2⟩
      · exact fun place mem => fits place (Foundation.mem_cut.mpr (Or.inr mem))
      · have own := (fits (low, parent) (by simp)).1
        simp only at own
        omega
    · rw [if_neg (fun both => short both.1)] at ran
      refine unsaved.save _ ran ?_
      intro least most bounds occupied
      refine ⟨?_, occupied.2⟩
      intro place mem
      have leastFits := bounds.least
      rcases Foundation.mem_cut.mp mem with rfl | other
      · have own := occupied.1 (low, parent) (by simp)
        simp at own ⊢
        omega
      · exact occupied.1 place (Foundation.mem_cut.mpr (Or.inr other))

end Nanograph.BTree
