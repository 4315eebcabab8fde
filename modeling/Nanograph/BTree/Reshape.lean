import Nanograph.BTree.Descent

/-!
# Changes of the levels

Splits and merges change one level, then the level above it, and so on to the
root. This module says what such a change may do to the rest of the tree
(`Reshaped`), how a change of one level and a change of the levels above it
compose (`Settles.raise`), and what a level looks like while one of its nodes is
not stored yet (`Unsaved`).
-/

namespace Nanograph.BTree

open List BPlusTree Level

variable {K V : Type}

/-- Bounds on the number of keys that merges keep: `low` for every internal node but
the root, `high` for all of them. -/
structure MergeBounds (config : BPlusTreeConfig) (low high : Nat) : Prop where
  positive : 1 ≤ low
  least : low ≤ config.minKeys
  full : config.maxKeys ≤ high + 1
  merged : 2 * config.minKeys ≤ high

/-- Bounds that splits keep as well. -/
structure KeyBounds (config : BPlusTreeConfig) (low high : Nat) : Prop
    extends MergeBounds config low high where
  half : low ≤ (config.maxKeys - 1) / 2

/-- Every internal node has a number of keys within bounds; the root needs one. -/
def Occupied (low high : Nat) : List (Level K) → Prop
  | [] => True
  | level :: upper =>
    (∀ place ∈ level, (if upper = [] then 1 else low) ≤ place.2.keys.length ∧
      place.2.keys.length ≤ high) ∧ Occupied low high upper

/-- What a change of the nodes `old` into the nodes `new` may do to the rest of the
tree. Only the parent pointers of the row below them may change besides. -/
structure Reshaped (tree changed : BPlusTree K V) (row old new : List BTreeNodeId) : Prop where
  keyed : changed.Keyed
  config : changed.config = tree.config
  leftmost : changed.leftmostLeaf = tree.leftmostLeaf
  grows : tree.nextNodeId ≤ changed.nextNodeId
  fresh : ∀ nodeId ∈ new, nodeId ∈ old ∨
    (tree.nextNodeId ≤ nodeId.raw ∧ nodeId.raw < changed.nextNodeId)
  distinct : new.Nodup
  bodies : ∀ nodeId, nodeId ∉ old → nodeId ∉ new → changed.bodyOf nodeId = tree.bodyOf nodeId
  parents : ∀ nodeId, nodeId ∉ old → nodeId ∉ new → nodeId ∉ row →
    changed.parentOf nodeId = tree.parentOf nodeId
  gone : ∀ nodeId ∈ old, nodeId ∉ new → changed.bodyOf nodeId = none

/-- Identifiers that are all different and allocated. -/
structure Distinct (tree : BPlusTree K V) (listed : List BTreeNodeId) : Prop where
  nodup : listed.Nodup
  allocated : ∀ nodeId ∈ listed, nodeId.raw < tree.nextNodeId

/-- Identifiers outside the change stay distinct from the changed nodes. -/
theorem Reshaped.distinct_row {tree changed : BPlusTree K V} {row old new : List BTreeNodeId}
    (change : Reshaped tree changed row old new) (kept : List BTreeNodeId)
    (distinct : Distinct tree (kept ++ old)) :
    Distinct changed (kept ++ new) where
  nodup := by
    rw [nodup_append]
    refine ⟨(nodup_append.mp distinct.nodup).1, change.distinct, ?_⟩
    intro nodeId isKept other isNew equal
    subst equal
    rcases change.fresh nodeId isNew with isOld | ⟨above, -⟩
    · exact (nodup_append.mp distinct.nodup).2.2 nodeId isKept nodeId isOld rfl
    · have allocated := distinct.allocated nodeId (mem_append_left _ isKept)
      omega
  allocated := by
    intro nodeId mem
    have grows := change.grows
    rcases mem_append.mp mem with isKept | isNew
    · have allocated := distinct.allocated nodeId (mem_append_left _ isKept)
      omega
    · rcases change.fresh nodeId isNew with isOld | ⟨-, below⟩
      · have allocated := distinct.allocated nodeId (mem_append_right _ isOld)
        omega
      · exact below

variable {tree middle changed : BPlusTree K V} {row old new upperOld : List BTreeNodeId}
  {held : Nat → Nat → Prop}

/-- A change of one level followed by a change of the levels above it. -/
theorem Reshaped.trans {upperNew : List BTreeNodeId} (lower : Reshaped tree middle row old new)
    (upper : Reshaped middle changed new upperOld upperNew)
    (distinct : Distinct tree (old ++ upperOld)) :
    Reshaped tree changed row (old ++ upperOld) (new ++ upperNew) := by
  have grows := lower.grows
  have upperGrows := upper.grows
  obtain ⟨-, -, apart⟩ := nodup_append.mp distinct.nodup
  constructor
  · exact upper.keyed
  · exact upper.config.trans lower.config
  · exact upper.leftmost.trans lower.leftmost
  · omega
  · intro nodeId mem
    rw [mem_append]
    rcases mem_append.mp mem with isNew | isNew
    · rcases lower.fresh nodeId isNew with isOld | range
      · exact Or.inl (Or.inl isOld)
      · exact Or.inr (by omega)
    · rcases upper.fresh nodeId isNew with isOld | range
      · exact Or.inl (Or.inr isOld)
      · exact Or.inr (by omega)
  · refine nodup_append.mpr ⟨lower.distinct, upper.distinct, ?_⟩
    intro nodeId isNew other isUpper equal
    subst equal
    -- A shared identifier would be old in both, or old in one and fresh in the other.
    rcases lower.fresh nodeId isNew with isOld | range
    · have allocated := distinct.allocated nodeId (mem_append_left _ isOld)
      rcases upper.fresh nodeId isUpper with isUpperOld | upperRange
      · exact apart nodeId isOld nodeId isUpperOld rfl
      · omega
    · rcases upper.fresh nodeId isUpper with isUpperOld | upperRange
      · have allocated := distinct.allocated nodeId (mem_append_right _ isUpperOld)
        omega
      · omega
  · intro nodeId notOld notNew
    rw [mem_append, not_or] at notOld notNew
    rw [upper.bodies nodeId notOld.2 notNew.2, lower.bodies nodeId notOld.1 notNew.1]
  · intro nodeId notOld notNew notRow
    rw [mem_append, not_or] at notOld notNew
    rw [upper.parents nodeId notOld.2 notNew.2 notNew.1,
      lower.parents nodeId notOld.1 notNew.1 notRow]
  · intro nodeId isOld notNew
    rw [mem_append, not_or] at notNew
    rcases mem_append.mp isOld with inLower | inUpper
    · rw [upper.bodies nodeId (fun mem => apart nodeId inLower nodeId mem rfl) notNew.2]
      exact lower.gone nodeId inLower notNew.1
    · exact upper.gone nodeId inUpper notNew.2

/-- A level whose nodes are in place stays in place when the levels above it change. -/
theorem Above.raise {level : Level K} {reshaped : List (Level K)}
    (placed : ∀ place ∈ level, Placed middle place.2)
    (distinct : Distinct middle (level.below.map Prod.snd ++ (level.ids ++ upperOld)))
    (change : Reshaped middle changed level.ids upperOld (levelIds reshaped))
    (above : Above changed level.items reshaped) :
    Above changed level.below (level :: reshaped) := by
  have after : (level.below.map Prod.snd ++ level.ids ++ levelIds reshaped).Nodup := by
    refine (change.distinct_row _ ?_).nodup
    rwa [append_assoc]
  have before := distinct.nodup
  refine ⟨rfl, ?_, above⟩
  intro place mem
  have listed : place.2.id ∈ level.ids := mem_map_of_mem mem
  refine (placed place mem).congr (change.bodies _ ?_ ?_) ?_
  · grind
  · grind
  · intro child isChild
    have inRow : child ∈ level.below.map Prod.snd :=
      (mem_below_ids fun place mem => (placed place mem).balanced).mpr
        ⟨place, mem, isChild⟩
    exact change.parents child (by grind) (by grind) (by grind)

theorem Distinct.perm {tree : BPlusTree K V} {listed other : List BTreeNodeId}
    (distinct : Distinct tree listed) (same : listed.Perm other) : Distinct tree other where
  nodup := same.nodup_iff.mp distinct.nodup
  allocated nodeId mem := distinct.allocated nodeId (same.mem_iff.mpr mem)

/-- The levels above a row are in `middle` as they are in `tree`, and the row is stored. -/
structure RowKept (tree middle : BPlusTree K V) (row : List BTreeNodeId)
    (levels : List (Level K)) : Prop where
  keyed : middle.Keyed
  config : middle.config = tree.config
  root : middle.rootId = tree.rootId
  bodies : ∀ nodeId ∈ levelIds levels, middle.bodyOf nodeId = tree.bodyOf nodeId
  parents : ∀ nodeId ∈ levelIds levels, middle.parentOf nodeId = tree.parentOf nodeId
  distinct : Distinct middle (row ++ levelIds levels)
  stored : ∀ nodeId ∈ row, middle.bodyOf nodeId ≠ none

/-- A change of a row leaves the levels above it. -/
theorem Reshaped.rowKept {below : List BTreeNodeId} {levels : List (Level K)}
    (change : Reshaped tree middle below row new) (root : middle.rootId = tree.rootId)
    (distinct : Distinct tree (below ++ (row ++ levelIds levels)))
    (stored : ∀ nodeId ∈ new, middle.bodyOf nodeId ≠ none) : RowKept tree middle new levels := by
  have upper : Distinct tree (levelIds levels ++ row) := by
    refine Distinct.perm ⟨(nodup_append.mp distinct.nodup).2.1, ?_⟩ perm_append_comm
    exact fun nodeId mem => distinct.allocated nodeId (mem_append_right _ mem)
  have changed := change.distinct_row _ upper
  have outside : ∀ nodeId ∈ levelIds levels, nodeId ∉ row ∧ nodeId ∉ new ∧ nodeId ∉ below := by
    intro nodeId mem
    refine ⟨fun isRow => ?_, fun isNew => ?_, fun isBelow => ?_⟩
    · exact (nodup_append.mp upper.nodup).2.2 nodeId mem nodeId isRow rfl
    · exact (nodup_append.mp changed.nodup).2.2 nodeId mem nodeId isNew rfl
    · exact (nodup_append.mp distinct.nodup).2.2 nodeId isBelow nodeId
        (mem_append_right _ mem) rfl
  refine ⟨change.keyed, change.config, root, fun nodeId mem => ?_, fun nodeId mem => ?_,
    changed.perm perm_append_comm, stored⟩
  · exact change.bodies nodeId (outside nodeId mem).1 (outside nodeId mem).2.1
  · obtain ⟨notRow, notNew, notBelow⟩ := outside nodeId mem
    exact change.parents nodeId notRow notNew notBelow

/-- Storing a new body for one of the nodes. -/
theorem Reshaped.putNode {tree : BPlusTree K V} (row ids : List BTreeNodeId)
    {node : BPlusTreeNode K V} (keyed : tree.Keyed) (nodup : ids.Nodup)
    (listed : node.id ∈ ids) : Reshaped tree (tree.putNode node) row ids ids where
  keyed := keyed.putNode _
  config := rfl
  leftmost := rfl
  grows := le_rfl
  fresh nodeId mem := Or.inl mem
  distinct := nodup
  bodies nodeId outside _ := by
    rw [bodyOf_putNode, if_neg]
    exact fun equal => outside (equal ▸ listed)
  parents nodeId outside _ _ := by
    rw [parentOf_putNode, if_neg]
    exact fun equal => outside (equal ▸ listed)
  gone nodeId mem outside := absurd mem outside

/-- A change of some nodes of a level is a change of the level. -/
theorem Reshaped.widen {wider before after : List BTreeNodeId}
    (change : Reshaped tree changed row old new)
    (distinct : Distinct tree (before ++ (old ++ after)))
    (contained : ∀ nodeId ∈ row, nodeId ∈ wider) :
    Reshaped tree changed wider (before ++ (old ++ after)) (before ++ (new ++ after)) := by
  have swap : ∀ ids : List BTreeNodeId,
      (before ++ (ids ++ after)).Perm (before ++ after ++ ids) := by
    intro ids
    rw [append_assoc]
    exact List.Perm.append_left _ perm_append_comm
  constructor
  · exact change.keyed
  · exact change.config
  · exact change.leftmost
  · exact change.grows
  · intro nodeId mem
    have fresh := change.fresh nodeId
    simp only [mem_append] at mem ⊢
    tauto
  · exact ((change.distinct_row _ (distinct.perm (swap old))).perm (swap new).symm).nodup
  · intro nodeId notOld notNew
    simp only [mem_append, not_or] at notOld notNew
    exact change.bodies nodeId notOld.2.1 notNew.2.1
  · intro nodeId notOld notNew notRow
    simp only [mem_append, not_or] at notOld notNew
    exact change.parents nodeId notOld.2.1 notNew.2.1
      fun inRow => notRow (contained nodeId inRow)
  · intro nodeId mem notNew
    have gone := change.gone nodeId
    simp only [mem_append, not_or] at mem notNew
    tauto

/-- A level with nothing above it holds the root alone. -/
theorem Above.root_alone {items : List (Item K)} {levelBefore levelAfter : Level K}
    {low : WithBot K} {node : InternalNode K}
    (above : Above tree items [levelBefore ++ (low, node) :: levelAfter]) :
    levelBefore = [] ∧ levelAfter = [] := by
  have alone := congrArg List.length above.2.2.1
  simp [Level.items] at alone
  constructor
  · exact eq_nil_of_length_eq_zero (by omega)
  · exact eq_nil_of_length_eq_zero (by omega)

/-- `run` succeeds on `tree` and leaves `row` under new levels. The bounds on the
numbers of keys hold afterwards if `held` was true of them. -/
def Settles (run : TreeM K V Unit) (tree : BPlusTree K V) (row : List (Item K))
    (old : List BTreeNodeId) (held : Nat → Nat → Prop) : Prop :=
  ∃ changed reshaped, run tree = .ok () changed ∧ Above changed row reshaped ∧
    Reshaped tree changed (row.map Prod.snd) old (levelIds reshaped) ∧
    ∀ low high, MergeBounds tree.config low high → held low high → Occupied low high reshaped

/-- `run` settles a level and the ones above it. -/
def SettlesLevel (run : TreeM K V Unit) (tree : BPlusTree K V) (level : Level K)
    (upper : List (Level K)) (held : Nat → Nat → Prop) : Prop :=
  Settles run tree level.below (level.ids ++ levelIds upper) held

/-- The numbers of keys of some nodes are within bounds. -/
def Within (low high : Nat) (level : Level K) : Prop :=
  ∀ place ∈ level, low ≤ place.2.keys.length ∧ place.2.keys.length ≤ high

theorem Within.insert {low high : Nat} {before mid after : Level K}
    (others : Within low high (before ++ after)) (own : Within low high mid) :
    Within low high (before ++ (mid ++ after)) := by
  obtain ⟨first, last⟩ := forall_mem_append.mp others
  exact forall_mem_append.mpr ⟨first, forall_mem_append.mpr ⟨own, last⟩⟩

/-- A level that is in place in an intermediate tree, with the levels above it
still to settle. -/
theorem Settles.raise {run raised : TreeM K V Unit} {level : Level K} {upperHeld : Nat → Nat → Prop}
    (ran : run tree = raised middle) (placed : ∀ place ∈ level, Placed middle place.2)
    (lower : Reshaped tree middle (level.below.map Prod.snd) old level.ids)
    (distinct : Distinct tree (level.below.map Prod.snd ++ (old ++ upperOld)))
    (upper : Settles raised middle level.items upperOld upperHeld)
    (within : ∀ low high, MergeBounds tree.config low high → held low high →
      upperHeld low high ∧ Within low high level) :
    Settles run tree level.below (old ++ upperOld) held := by
  obtain ⟨changed, reshaped, raisedRan, above, change, occupied⟩ := upper
  rw [map_snd_items] at change
  have middleDistinct : Distinct middle
      (level.below.map Prod.snd ++ (level.ids ++ upperOld)) := by
    have swap : ∀ ids : List BTreeNodeId, (level.below.map Prod.snd ++ (ids ++ upperOld)).Perm
          (level.below.map Prod.snd ++ upperOld ++ ids) := by
      intro ids
      rw [append_assoc]
      exact List.Perm.append_left _ perm_append_comm
    exact (lower.distinct_row _ (distinct.perm (swap old))).perm (swap level.ids).symm
  refine ⟨changed, level :: reshaped, ran.trans raisedRan, ?_, ?_, ?_⟩
  · exact Above.raise placed middleDistinct change above
  · refine lower.trans change ⟨(nodup_append.mp distinct.nodup).2.1, ?_⟩
    exact fun nodeId mem => distinct.allocated nodeId (mem_append_right _ mem)
  · intro low high bounds holds
    obtain ⟨upperHolds, fits⟩ := within low high bounds holds
    refine ⟨?_, occupied low high (lower.config ▸ bounds) upperHolds⟩
    intro place mem
    have positive := bounds.positive
    have fit := fits place mem
    split <;> omega

/-- Two trees that differ at most in the order of their tables. -/
structure SameNodes (left right : BPlusTree K V) : Prop where
  nodes : ∀ nodeId, left.node? nodeId = right.node? nodeId
  config : left.config = right.config
  rootId : left.rootId = right.rootId
  nextNodeId : left.nextNodeId = right.nextNodeId
  leftmostLeaf : left.leftmostLeaf = right.leftmostLeaf

section

variable {left right : BPlusTree K V} (same : SameNodes left right)

include same

theorem SameNodes.bodyOf (nodeId : BTreeNodeId) : left.bodyOf nodeId = right.bodyOf nodeId := by
  rw [BPlusTree.bodyOf, BPlusTree.bodyOf, same.nodes]

theorem SameNodes.parentOf (nodeId : BTreeNodeId) :
    left.parentOf nodeId = right.parentOf nodeId := by
  rw [BPlusTree.parentOf, BPlusTree.parentOf, same.nodes]

theorem SameNodes.keyed (keyed : right.Keyed) : left.Keyed :=
  fun nodeId node found => keyed nodeId node (same.nodes nodeId ▸ found)

end

theorem SameNodes.putNode_comm (tree : BPlusTree K V) {left right : BPlusTreeNode K V}
    (different : left.id ≠ right.id) :
    SameNodes ((tree.putNode left).putNode right) ((tree.putNode right).putNode left) := by
  refine ⟨fun nodeId => ?_, rfl, rfl, rfl, rfl⟩
  by_cases isLeft : nodeId = left.id
  · simp [isLeft, different]
  · simp [isLeft]

theorem SameNodes.putNode {left right : BPlusTree K V} (same : SameNodes left right)
    (node : BPlusTreeNode K V) : SameNodes (left.putNode node) (right.putNode node) :=
  ⟨fun nodeId => by simp only [node?_putNode, same.nodes], same.config, same.rootId,
    same.nextNodeId, same.leftmostLeaf⟩

theorem SameNodes.trans {first second third : BPlusTree K V} (left : SameNodes first second)
    (right : SameNodes second third) : SameNodes first third :=
  ⟨fun nodeId => (left.nodes nodeId).trans (right.nodes nodeId), left.config.trans right.config,
    left.rootId.trans right.rootId, left.nextNodeId.trans right.nextNodeId,
    left.leftmostLeaf.trans right.leftmostLeaf⟩

theorem Settles.same {run actualRun : TreeM K V Unit} {actual : BPlusTree K V} {row : List (Item K)}
    (settled : Settles run tree row old held) (ran : run tree = .ok () changed)
    (actualRan : actualRun tree = .ok () actual) (same : SameNodes actual changed) :
    Settles actualRun tree row old held := by
  obtain ⟨result, reshaped, ranTo, above, change, occupied⟩ := settled
  obtain rfl : changed = result := by
    rw [ran] at ranTo
    injection ranTo
  refine ⟨actual, reshaped, actualRan, above.congr same.rootId
    (fun nodeId _ => same.bodyOf nodeId) (fun nodeId _ => same.parentOf nodeId), ?_, occupied⟩
  exact
    { keyed := same.keyed change.keyed
      config := same.config.trans change.config
      leftmost := same.leftmostLeaf.trans change.leftmost
      grows := same.nextNodeId ▸ change.grows
      fresh := same.nextNodeId ▸ change.fresh
      distinct := change.distinct
      bodies := fun nodeId notOld notNew =>
        (same.bodyOf nodeId).trans (change.bodies nodeId notOld notNew)
      parents := fun nodeId notOld notNew notRow =>
        (same.parentOf nodeId).trans (change.parents nodeId notOld notNew notRow)
      gone := fun nodeId isOld notNew =>
        (same.bodyOf nodeId).trans (change.gone nodeId isOld notNew) }

/-- A level in which the nodes `mid` need not be stored the way they stand here. -/
structure Unsaved (tree : BPlusTree K V) (before mid after : Level K)
    (upper : List (Level K)) : Prop where
  keyed : tree.Keyed
  placed : ∀ place ∈ before ++ after, Placed tree place.2
  balanced : ∀ place ∈ mid, place.2.Balanced
  adopted : ∀ place ∈ mid, ∀ child ∈ place.2.children, tree.parentOf child = some place.2.id
  parent : ∀ place ∈ mid, place.2.parent = tree.parentOf place.2.id
  above : Above tree (Level.items (before ++ (mid ++ after))) upper
  distinct : Distinct tree ((below (before ++ (mid ++ after))).map Prod.snd ++
    (ids (before ++ (mid ++ after)) ++ levelIds upper))
  stored : ∀ nodeId ∈ (below (before ++ (mid ++ after))).map Prod.snd, tree.bodyOf nodeId ≠ none

namespace Unsaved

variable {tree changed : BPlusTree K V} {before mid after rebuilt : Level K}
  {upper : List (Level K)}

variable (place : WithBot K × InternalNode K) {low : WithBot K}

section

variable (unsaved : Unsaved tree before mid after upper)

include unsaved

theorem all_balanced : ∀ place ∈ before ++ (mid ++ after), place.2.Balanced := by
  intro place mem
  simp only [mem_append] at mem
  rcases mem with inBefore | inMid | inAfter
  · exact (unsaved.placed place (by simp [inBefore])).balanced
  · exact unsaved.balanced place inMid
  · exact (unsaved.placed place (by simp [inAfter])).balanced

theorem all_adopted :
    ∀ place ∈ before ++ (mid ++ after), ∀ child ∈ place.2.children,
      tree.parentOf child = some place.2.id := by
  intro place mem
  simp only [mem_append] at mem
  rcases mem with inBefore | inMid | inAfter
  · exact (unsaved.placed place (by simp [inBefore])).adopted
  · exact unsaved.adopted place inMid
  · exact (unsaved.placed place (by simp [inAfter])).adopted

theorem levels_nodup : (ids (before ++ (mid ++ after)) ++ levelIds upper).Nodup :=
  (nodup_append.mp unsaved.distinct.nodup).2.1

/-- Children of the level are in the row below it and not in the levels. -/
theorem child_ne {child nodeId : BTreeNodeId} (mem : place ∈ before ++ (mid ++ after))
    (listed : child ∈ place.2.children)
    (inLevels : nodeId ∈ ids (before ++ (mid ++ after)) ++ levelIds upper) : child ≠ nodeId := by
  have inRow := (mem_below_ids unsaved.all_balanced).mpr ⟨place, mem, listed⟩
  exact (nodup_append.mp unsaved.distinct.nodup).2.2 child inRow nodeId inLevels

/-- Children of the unsaved nodes are in the row below the level. -/
theorem mid_row {child : BTreeNodeId} (mem : place ∈ mid) (listed : child ∈ place.2.children) :
    child ∈ (below (before ++ (mid ++ after))).map Prod.snd :=
  (mem_below_ids unsaved.all_balanced).mpr ⟨place, by simp [mem], listed⟩

theorem children_nodup (mem : place ∈ before ++ (mid ++ after)) : place.2.children.Nodup := by
  rw [← map_snd_childItems place.1 (unsaved.all_balanced place mem)]
  have nodup := (nodup_append.mp unsaved.distinct.nodup).1
  rw [below, map_flatMap] at nodup
  exact (nodup_flatMap.mp nodup).1 place mem

end

/-- A stored node counts as unsaved. -/
theorem open_left {left : InternalNode K}
    (unsaved : Unsaved tree (before ++ [(low, left)]) mid after upper) :
    Unsaved tree before ((low, { left with parent := tree.parentOf left.id }) :: mid) after
      upper := by
  have own : Placed tree left := unsaved.placed (low, left) (by simp)
  constructor
  · exact unsaved.keyed
  · intro place mem
    apply unsaved.placed
    simp only [mem_append] at mem ⊢
    tauto
  · exact forall_mem_cons.mpr ⟨own.balanced, unsaved.balanced⟩
  · exact forall_mem_cons.mpr ⟨own.adopted, unsaved.adopted⟩
  · simpa using unsaved.parent
  · simpa using unsaved.above
  · simpa [childItems] using unsaved.distinct
  · simpa [childItems] using unsaved.stored

theorem open_right {right : InternalNode K}
    (unsaved : Unsaved tree before mid ((low, right) :: after) upper) :
    Unsaved tree before (mid ++ [(low, { right with parent := tree.parentOf right.id })]) after
      upper := by
  have own : Placed tree right := unsaved.placed (low, right) (by simp)
  constructor
  · exact unsaved.keyed
  · intro place mem
    apply unsaved.placed
    simp only [mem_append, mem_cons] at mem ⊢
    tauto
  · exact forall_mem_append.mpr
      ⟨unsaved.balanced, forall_mem_singleton.mpr own.balanced⟩
  · exact forall_mem_append.mpr
      ⟨unsaved.adopted, forall_mem_singleton.mpr own.adopted⟩
  · exact forall_mem_append.mpr ⟨unsaved.parent, forall_mem_singleton.mpr rfl⟩
  · simpa using unsaved.above
  · simpa [childItems] using unsaved.distinct
  · simpa [childItems] using unsaved.stored

section

variable (rebuilt) (unsaved : Unsaved tree before mid after upper)
  (placed : ∀ place ∈ rebuilt, Placed changed place.2)
  (change : Reshaped tree changed (mid.below.map Prod.snd) mid.ids rebuilt.ids)

include rebuilt unsaved placed change

/-- The unsaved nodes are exchanged for others with the same children between them. -/
theorem rebuild :
    (∀ place ∈ before ++ (rebuilt ++ after), Placed changed place.2) ∧
    Reshaped tree changed ((below (before ++ (mid ++ after))).map Prod.snd)
      (ids (before ++ (mid ++ after))) (ids (before ++ (rebuilt ++ after))) := by
  have levelDistinct : Distinct tree (before.ids ++ (mid.ids ++ after.ids)) := by
    refine ⟨?_, fun nodeId mem => unsaved.distinct.allocated nodeId ?_⟩
    · simpa using (nodup_append.mp unsaved.levels_nodup).1
    · simp only [ids_append, mem_append] at mem ⊢
      tauto
  have isOld : ∀ nodeId, nodeId.raw < tree.nextNodeId → nodeId ∉ mid.ids →
      nodeId ∉ rebuilt.ids := by
    intro nodeId allocated outside isNew
    rcases change.fresh nodeId isNew with old | ⟨above, -⟩
    · exact outside old
    · omega
  refine ⟨?_, ?_⟩
  · intro place mem
    have either : place ∈ rebuilt ∨ place ∈ before ++ after := by
      simp only [mem_append] at mem ⊢
      tauto
    rcases either with new | other
    · exact placed place new
    · have inLevel : place ∈ before ++ (mid ++ after) := by
        simp only [mem_append] at other ⊢
        tauto
      have outside : place.2.id ∉ mid.ids := by
        have listed : place.2.id ∈ before.ids ++ after.ids := by
          rw [← ids_append]
          exact mem_map_of_mem other
        have nodup := levelDistinct.nodup
        grind
      have allocated := levelDistinct.allocated place.2.id (by
        rw [← ids_append, ← ids_append]
        exact mem_map_of_mem inLevel)
      refine (unsaved.placed place other).outside (mid.ids ++ rebuilt.ids)
        (mid.below.map Prod.snd) ?_ ?_ ?_ ?_
      · simp [outside, isOld place.2.id allocated outside]
      · intro nodeId apart
        rw [mem_append, not_or] at apart
        exact change.bodies nodeId apart.1 apart.2
      · intro child listed notMoved
        have inRow := (mem_below_ids unsaved.all_balanced).mpr ⟨place, inLevel, listed⟩
        have notMid : child ∉ mid.ids := fun inMid =>
          unsaved.child_ne _ inLevel listed (by simp [inMid]) rfl
        have childOld := unsaved.distinct.allocated child (mem_append_left _ inRow)
        exact change.parents child notMid (isOld child childOld notMid) notMoved
      · intro child moved
        obtain ⟨owner, inMid, listed⟩ := (mem_below_ids unsaved.balanced).mp moved
        refine ⟨owner.2.id, ?_, unsaved.adopted owner inMid child listed⟩
        exact mem_append_left _ (mem_map_of_mem inMid)
  · simp only [ids_append]
    refine change.widen levelDistinct ?_
    simp only [below_append, map_append, mem_append]
    tauto

/-- The unsaved nodes are exchanged for others with the same children between them, and the levels
above settle. -/
theorem settles {run raised : TreeM K V Unit} {held upperHeld : Nat → Nat → Prop}
    (belowEq : rebuilt.below = mid.below) (root : changed.rootId = tree.rootId)
    (ran : run tree = raised changed)
    (settled : RowKept tree changed (ids (before ++ (rebuilt ++ after))) upper →
      Settles raised changed (Level.items (before ++ (rebuilt ++ after))) (levelIds upper)
        upperHeld)
    (within : ∀ least most, MergeBounds tree.config least most → held least most →
      upperHeld least most ∧ Within least most (before ++ after) ∧ Within least most rebuilt) :
    SettlesLevel run tree (before ++ (mid ++ after)) upper held := by
  obtain ⟨allPlaced, lower⟩ := unsaved.rebuild _ placed change
  have rowKept := lower.rowKept root unsaved.distinct fun nodeId mem => by
    obtain ⟨place, inLevel, rfl⟩ := mem_map.mp mem
    simp [(allPlaced place inLevel).body]
  have rowEq : below (before ++ (rebuilt ++ after)) = below (before ++ (mid ++ after)) := by
    simp only [below_append, belowEq]
  rw [SettlesLevel, ← rowEq]
  refine Settles.raise ran allPlaced (rowEq ▸ lower) (rowEq ▸ unsaved.distinct) (settled rowKept) ?_
  intro least most bounds holds
  obtain ⟨occupied, others, own⟩ := within least most bounds holds
  exact ⟨occupied, others.insert own⟩

end

/-- Storing the one unsaved node puts the level in place. -/
theorem save {node : InternalNode K} (unsaved : Unsaved tree before [(low, node)] after upper)
    {run : TreeM K V Unit} (held : Nat → Nat → Prop)
    (ran : run tree = .ok () (tree.putNode (.internal node)))
    (occupied : ∀ least most, MergeBounds tree.config least most → held least most →
      Occupied least most ((before ++ (low, node.body) :: after) :: upper)) :
    SettlesLevel run tree (before ++ (low, node) :: after) upper held := by
  have parents : ∀ nodeId,
      (tree.putNode (.internal node)).parentOf nodeId = tree.parentOf nodeId := by
    intro nodeId
    rw [parentOf_putNode]
    split
    next equal => rw [equal]; exact unsaved.parent (low, node) (by simp)
    next => rfl
  have own : Placed (tree.putNode (.internal node)) node.body := by
    refine ⟨?_, unsaved.balanced (low, node) (by simp), ?_⟩
    · rw [bodyOf_putNode]
      exact if_pos rfl
    · intro child listed
      rw [parents]
      exact unsaved.adopted (low, node) (by simp) child listed
  have placed := (unsaved.rebuild [(low, node.body)] (by simpa using own)
    (Reshaped.putNode _ _ unsaved.keyed (by simp) (by simp))).1
  refine ⟨_, (before ++ (low, node.body) :: after) :: upper, ran, ⟨by simp, placed, ?_⟩, ?_,
    occupied⟩
  · have sameItems : Level.items (before ++ (low, node.body) :: after) =
        Level.items (before ++ (low, node) :: after) := by simp
    rw [sameItems]
    refine unsaved.above.congr rfl ?_ fun nodeId _ => parents nodeId
    intro nodeId mem
    rw [bodyOf_putNode, if_neg]
    intro equal
    exact (nodup_append.mp unsaved.levels_nodup).2.2 node.id (by simp) nodeId mem
      equal.symm
  · have sameIds : levelIds ((before ++ (low, node.body) :: after) :: upper) =
        ids (before ++ (low, node) :: after) ++ levelIds upper := by simp
    rw [sameIds]
    exact Reshaped.putNode _ _ unsaved.keyed unsaved.levels_nodup (by simp)

end Unsaved

end Nanograph.BTree
