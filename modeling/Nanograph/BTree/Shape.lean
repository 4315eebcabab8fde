import Nanograph.BTree.Calls
import Nanograph.Foundation.Bytes

/-!
# The shape of a tree

`WellFormed` states the structure of a B+Tree over the stored nodes alone: what
the root reaches, how separators divide the keys below a node, and what following
the `next` links visits. The rows and levels of a sound tree give every part of it.
-/

namespace Nanograph.BTree

open List BPlusTree Foundation

variable {K V : Type}

/-- A node reached from the root by a path of the given length. -/
inductive AtDepth (tree : BPlusTree K V) : Nat → BTreeNodeId → Prop where
  | root : AtDepth tree 0 tree.rootId
  | child {depth : Nat} {nodeId child : BTreeNodeId} {node : InternalNode K}
      (reached : AtDepth tree depth nodeId) (stored : tree.node? nodeId = some (.internal node))
      (listed : child ∈ node.children) : AtDepth tree (depth + 1) child

/-- A key held by a leaf below a node. -/
inductive SubtreeKey (tree : BPlusTree K V) : BTreeNodeId → K → Prop where
  | leaf {nodeId : BTreeNodeId} {leaf : LeafNode K V} {entry : K × V}
      (stored : tree.node? nodeId = some (.leaf leaf)) (listed : entry ∈ leaf.entries) :
      SubtreeKey tree nodeId entry.1
  | child {nodeId child : BTreeNodeId} {node : InternalNode K} {key : K}
      (stored : tree.node? nodeId = some (.internal node)) (listed : child ∈ node.children)
      (below : SubtreeKey tree child key) : SubtreeKey tree nodeId key

/-- The leaves visited by following `next` links until there is none. -/
inductive NextWalk (tree : BPlusTree K V) : Option BTreeNodeId → List (LeafNode K V) → Prop where
  | done : NextWalk tree none []
  | step {nodeId : BTreeNodeId} {leaf : LeafNode K V} {rest : List (LeafNode K V)}
      (stored : tree.node? nodeId = some (.leaf leaf)) (onward : NextWalk tree leaf.next rest) :
      NextWalk tree (some nodeId) (leaf :: rest)

structure WellFormed [LinearOrder K] (tree : BPlusTree K V) : Prop where
  /-- The keys of every leaf increase strictly. -/
  sorted : ∀ nodeId leaf, tree.node? nodeId = some (.leaf leaf) → Sorted leaf.entries
  /-- Every internal node has one more child than keys. -/
  balanced : ∀ nodeId node, tree.node? nodeId = some (.internal node) →
    node.children.length = node.keys.length + 1
  /-- Keys left of a separator are smaller, keys right of it are not. -/
  separated : ∀ nodeId (node : InternalNode K), tree.node? nodeId = some (.internal node) →
    ∀ (index : Nat) (separator : K), node.keys[index]? = some separator →
    ∀ (position : Nat) (child : BTreeNodeId), node.children[position]? = some child →
    ∀ key : K, SubtreeKey tree child key →
      (position ≤ index → key < separator) ∧ (index < position → separator ≤ key)
  /-- All leaves are at the same depth. -/
  uniform : ∃ height, ∀ nodeId leaf depth, tree.node? nodeId = some (.leaf leaf) →
    AtDepth tree depth nodeId → depth = height
  /-- The stored parent of a node is the node that lists it as a child. -/
  parents : ∀ nodeId node, tree.node? nodeId = some node → ∀ parentId, node.parent = some parentId ↔
      ∃ parent, tree.node? parentId = some (.internal parent) ∧ nodeId ∈ parent.children
  /-- Exactly the nodes reached from the root are stored. -/
  reachable : ∀ nodeId, (tree.node? nodeId).isSome ↔ ∃ depth, AtDepth tree depth nodeId
  /-- The `next` links lead through all leaves, once each and in key order. -/
  walk : ∃ visited, NextWalk tree tree.leftmostLeaf visited ∧ (visited.map (·.id)).Nodup ∧
    (∀ nodeId leaf, tree.node? nodeId = some (.leaf leaf) ↔ leaf ∈ visited ∧ leaf.id = nodeId) ∧
    Sorted (visited.flatMap (·.entries))

variable {node : InternalNode K} {nodeId : BTreeNodeId}

section

variable {tree : BPlusTree K V} {items : List (Item K)} {levels : List (Level K)}

theorem Placed.node? (placed : Placed tree node) :
    tree.node? node.id = some (.internal { node with parent := tree.parentOf node.id }) :=
  node?_of_bodyOf placed.body

section

variable (above : Above tree items levels)

include above

/-- The nodes of a row are as deep as there are levels above it. -/
theorem Above.atDepth :
    (∀ nodeId ∈ items.map Prod.snd, AtDepth tree levels.length nodeId) ∧
      ∀ nodeId ∈ levelIds levels, ∃ depth, AtDepth tree depth nodeId := by
  induction levels generalizing items with
  | nil =>
    obtain ⟨rfl, -⟩ := above
    exact ⟨by simpa using AtDepth.root, by simp⟩
  | cons level upper ih =>
    obtain ⟨rfl, placed, rest⟩ := above
    obtain ⟨here, higher⟩ := ih rest
    rw [Level.map_snd_items] at here
    refine ⟨fun nodeId mem => ?_, fun nodeId mem => ?_⟩
    · obtain ⟨place, isPlace, listed⟩ :=
        (mem_below_ids fun place isPlace => (placed place isPlace).balanced).mp mem
      exact .child (here place.2.id (mem_map_of_mem isPlace)) (placed place isPlace).node?
        listed
    · rcases mem_append.mp mem with isHere | isHigher
      · exact ⟨_, here nodeId isHere⟩
      · exact higher nodeId isHigher

/-- The nodes of the levels, with their children among the rows below. -/
theorem Above.placed_of_mem (mem : nodeId ∈ levelIds levels) :
    ∃ node, node.id = nodeId ∧ Placed tree node ∧
      ∀ child ∈ node.children, child ∈ items.map Prod.snd ++ levelIds levels := by
  induction levels generalizing items with
  | nil => simp at mem
  | cons level upper ih =>
    obtain ⟨rfl, placed, rest⟩ := above
    rcases mem_append.mp mem with isHere | isHigher
    · obtain ⟨place, isPlace, rfl⟩ := mem_map.mp isHere
      refine ⟨place.2, rfl, placed place isPlace, fun child listed => mem_append_left _ ?_⟩
      exact (mem_below_ids fun place isPlace => (placed place isPlace).balanced).mpr
        ⟨place, isPlace, listed⟩
    · obtain ⟨node, idEq, nodePlaced, children⟩ := ih rest isHigher
      refine ⟨node, idEq, nodePlaced, fun child listed => mem_append_right _ ?_⟩
      rw [levelIds_cons, ← Level.map_snd_items]
      exact children child listed

/-- A parent pointer names a stored node that lists the child. -/
theorem Above.listed {parentId : BTreeNodeId} (mem : nodeId ∈ items.map Prod.snd ++ levelIds levels)
    (owner : tree.parentOf nodeId = some parentId) :
    ∃ parent, tree.node? parentId = some (.internal parent) ∧ nodeId ∈ parent.children := by
  induction levels generalizing items with
  | nil =>
    obtain ⟨rfl, orphan⟩ := above
    obtain rfl : nodeId = tree.rootId := by simpa using mem
    simp [orphan] at owner
  | cons level upper ih =>
    obtain ⟨rfl, placed, rest⟩ := above
    rcases mem_append.mp mem with isBelow | isLevel
    · obtain ⟨place, isPlace, listed⟩ :=
        (mem_below_ids fun place isPlace => (placed place isPlace).balanced).mp isBelow
      have adopted := (placed place isPlace).adopted nodeId listed
      obtain rfl : place.2.id = parentId := Option.some.inj (adopted.symm.trans owner)
      exact ⟨_, (placed place isPlace).node?, listed⟩
    · rw [levelIds_cons, ← Level.map_snd_items] at isLevel
      exact ih rest isLevel

theorem Above.root :
    tree.rootId ∈ items.map Prod.snd ++ levelIds levels ∧ tree.parentOf tree.rootId = none := by
  induction levels generalizing items with
  | nil =>
    obtain ⟨rfl, orphan⟩ := above
    exact ⟨by simp, orphan⟩
  | cons level upper ih =>
    obtain ⟨rfl, -, rest⟩ := above
    obtain ⟨mem, orphan⟩ := ih rest
    rw [Level.map_snd_items, ← levelIds_cons] at mem
    exact ⟨mem_append_right _ mem, orphan⟩

end

/-- A node is reached along one depth only. -/
theorem AtDepth.unique (orphan : tree.parentOf tree.rootId = none)
    (adopted : ∀ nodeId node, tree.node? nodeId = some (.internal node) →
      ∀ child ∈ node.children, tree.parentOf child = some nodeId) {depth other : Nat}
    (reached : AtDepth tree depth nodeId) (again : AtDepth tree other nodeId) : depth = other := by
  induction reached generalizing other with
  | root =>
    generalize rootEq : tree.rootId = nodeId at again
    cases again with
    | root => rfl
    | child _ stored listed =>
      rw [rootEq, adopted _ _ stored _ listed] at orphan
      simp at orphan
  | child _ stored listed ih =>
    have owner := adopted _ _ stored _ listed
    cases again with
    | root => simp [orphan] at owner
    | child reachedAgain storedAgain listedAgain =>
      rw [adopted _ _ storedAgain _ listedAgain, Option.some.injEq] at owner
      rw [ih (owner ▸ reachedAgain)]

end

section

variable [LinearOrder K] {tree : BPlusTree K V} {items : List (Item K)} {levels : List (Level K)}

/-- The keys below every item of a row lie between its bound and the next bounds. -/
structure Spans (tree : BPlusTree K V) (items : List (Item K)) : Prop where
  ordered : items.Pairwise (·.1 < ·.1)
  least : ∀ item ∈ items, ∀ key, SubtreeKey tree item.2 key → item.1 ≤ (key : WithBot K)
  next : items.Pairwise fun left right =>
    ∀ key, SubtreeKey tree left.2 key → (key : WithBot K) < right.1

omit [LinearOrder K] in
/-- The keys below an internal node are those below its children. -/
theorem Placed.subtreeKey (placed : Placed tree node) (low : WithBot K) {key : K}
    (below : SubtreeKey tree node.id key) :
    ∃ item ∈ childItems low node, SubtreeKey tree item.2 key := by
  have stored := placed.node?
  cases below with
  | leaf isLeaf => simp [stored] at isLeaf
  | child isInternal listed below =>
    rw [stored] at isInternal
    cases isInternal
    rw [← map_snd_childItems low placed.balanced] at listed
    obtain ⟨item, mem, rfl⟩ := mem_map.mp listed
    exact ⟨item, mem, below⟩

omit [LinearOrder K] in
/-- The first child of a node stands at the bound of the node. -/
theorem first_childItem (balanced : node.Balanced) (low : WithBot K) :
    ∃ item ∈ childItems low node, item.1 = low := by
  have lows := map_fst_childItems low balanced
  cases listed : childItems low node with
  | nil => simp [listed] at lows
  | cons item rest =>
    simp only [listed, map_cons, List.cons.injEq] at lows
    exact ⟨item, by simp, lows.1⟩

/-- What a row spans, the level above it spans. -/
theorem Spans.up {level : Level K} (spans : Spans tree level.below)
    (placed : ∀ place ∈ level, Placed tree place.2) : Spans tree level.items where
  ordered := Level.items_ordered (fun place mem => (placed place mem).balanced) spans.ordered
  least := by
    intro item mem key below
    obtain ⟨place, isPlace, rfl⟩ := mem_map.mp mem
    obtain ⟨child, isChild, belowChild⟩ := (placed place isPlace).subtreeKey place.1 below
    have childOrdered := (pairwise_flatMap.mp spans.ordered).1 place isPlace
    exact (low_le_childItems (placed place isPlace).balanced childOrdered child isChild).trans
      (spans.least child (mem_flatMap.mpr ⟨place, isPlace, isChild⟩) key belowChild)
  next := by
    rw [Level.items, pairwise_map]
    refine (pairwise_flatMap.mp spans.next).2.imp_of_mem ?_
    intro left right isLeft isRight apart key below
    obtain ⟨child, isChild, belowChild⟩ := (placed left isLeft).subtreeKey left.1 below
    obtain ⟨first, isFirst, lowEq⟩ := first_childItem (placed right isRight).balanced right.1
    exact lowEq ▸ apart child isChild first isFirst key belowChild

/-- A separator divides the keys below its node. -/
theorem Spans.separated {low : WithBot K} (balanced : node.Balanced)
    (spans : Spans tree (childItems low node)) {index position : Nat} {separator : K}
    {child : BTreeNodeId} (isSeparator : node.keys[index]? = some separator)
    (isChild : node.children[position]? = some child) {key : K} (below : SubtreeKey tree child key) :
    (position ≤ index → key < separator) ∧ (index < position → separator ≤ key) := by
  have lows := map_fst_childItems low balanced
  have ids := map_snd_childItems low balanced
  obtain ⟨item, itemAt, rfl⟩ : ∃ item, (childItems low node)[position]? = some item ∧
      item.2 = child := by simpa [← ids] using isChild
  obtain ⟨bound, boundAt, boundEq⟩ : ∃ bound, (childItems low node)[index + 1]? = some bound ∧
      bound.1 = (separator : WithBot K) := by
    have found := congrArg (·[index + 1]?) lows
    simpa [isSeparator] using found
  obtain ⟨positionLt, itemEq⟩ := List.getElem?_eq_some_iff.mp itemAt
  obtain ⟨indexLt, boundItem⟩ := List.getElem?_eq_some_iff.mp boundAt
  have atLeast := spans.least item (mem_of_getElem? itemAt) key below
  refine ⟨fun left => ?_, fun right => ?_⟩
  · have passed := pairwise_iff_getElem.mp spans.next position (index + 1) positionLt indexLt
      (by omega)
    rw [itemEq, boundItem, boundEq] at passed
    exact WithBot.coe_lt_coe.mp (passed key below)
  · rcases Nat.eq_or_lt_of_le right with equal | beyond
    · obtain rfl : item = bound := Option.some.inj (itemAt.symm.trans (equal ▸ boundAt))
      exact WithBot.coe_le_coe.mp (boundEq ▸ atLeast)
    · have passed := pairwise_iff_getElem.mp spans.ordered (index + 1) position indexLt
        positionLt beyond
      rw [itemEq, boundItem, boundEq] at passed
      exact WithBot.coe_le_coe.mp (passed.le.trans atLeast)

theorem Spans.sublist {fewer : List (Item K)} (spans : Spans tree items)
    (sublist : fewer.Sublist items) : Spans tree fewer where
  ordered := spans.ordered.sublist sublist
  least := fun item mem => spans.least item (sublist.mem mem)
  next := spans.next.sublist sublist

/-- The children of every node of the levels span what the lowest row spans. -/
theorem Above.spans_of_mem (above : Above tree items levels) (spans : Spans tree items)
    (mem : nodeId ∈ levelIds levels) :
    ∃ low node, node.id = nodeId ∧ Placed tree node ∧ Spans tree (childItems low node) := by
  induction levels generalizing items with
  | nil => simp at mem
  | cons level upper ih =>
    obtain ⟨rfl, placed, rest⟩ := above
    rcases mem_append.mp mem with isHere | isHigher
    · obtain ⟨place, isPlace, rfl⟩ := mem_map.mp isHere
      refine ⟨place.1, place.2, rfl, placed place isPlace, spans.sublist ?_⟩
      exact sublist_flatten_of_mem (mem_map_of_mem isPlace)
    · exact ih rest (spans.up placed) isHigher

end

section

variable {tree : BPlusTree K V} {leaves : LeafRow K V} {levels : List (Level K)}

/-- A leaf as it is stored, with its parent pointer. -/
def storedLeaf (tree : BPlusTree K V) (place : WithBot K × LeafNode K V) : LeafNode K V :=
  { place.2 with parent := tree.parentOf place.2.id }

section

variable (stands : Stands tree leaves levels)

include stands

/-- The stored leaves are those of the row. -/
theorem Stands.leaf_iff {leaf : LeafNode K V} :
    tree.node? nodeId = some (.leaf leaf) ↔
      leaf ∈ leaves.map (storedLeaf tree) ∧ leaf.id = nodeId := by
  constructor
  · intro found
    refine ⟨?_, stands.keyed nodeId _ found⟩
    rcases mem_append.mp (stands.covered nodeId (by simp [bodyOf, found])) with
      isLeaf | isLevel
    · obtain ⟨place, mem, rfl⟩ := mem_map.mp isLeaf
      rw [stands.leafNode _ mem] at found
      cases found
      exact mem_map_of_mem mem
    · obtain ⟨node, rfl, placed, -⟩ := stands.above.placed_of_mem isLevel
      simp [placed.node?] at found
  · rintro ⟨mem, rfl⟩
    obtain ⟨place, isPlace, rfl⟩ := mem_map.mp mem
    exact stands.leafNode _ isPlace

/-- A stored internal node belongs to the levels. -/
theorem Stands.mem_levels (found : tree.node? nodeId = some (.internal node)) :
    nodeId ∈ levelIds levels := by
  rcases mem_append.mp (stands.covered nodeId (by simp [bodyOf, found])) with isLeaf | isLevel
  · obtain ⟨place, mem, rfl⟩ := mem_map.mp isLeaf
    simp [stands.leafNode _ mem] at found
  · exact isLevel

/-- The identifiers of the row and the levels are those of the stored nodes. -/
theorem Stands.stored_iff (nodeId : BTreeNodeId) :
    (tree.node? nodeId).isSome ↔ nodeId ∈ leaves.items.map Prod.snd ++ levelIds levels := by
  rw [LeafRow.map_snd_items]
  constructor
  · intro present
    apply stands.covered
    simpa [bodyOf_eq_none, Option.isSome_iff_ne_none] using present
  · intro mem
    rw [Option.isSome_iff_ne_none, ne_eq, ← bodyOf_eq_none]
    rcases mem_append.mp mem with isLeaf | isLevel
    · obtain ⟨place, isPlace, rfl⟩ := mem_map.mp isLeaf
      simp [stands.stored place isPlace]
    · exact stands.above.stored nodeId isLevel

/-- Children point back at the node that lists them. -/
theorem Stands.adopted (nodeId : BTreeNodeId) (node : InternalNode K)
    (found : tree.node? nodeId = some (.internal node)) :
    ∀ child ∈ node.children, tree.parentOf child = some nodeId := by
  obtain ⟨body, rfl, placed, -⟩ := stands.above.placed_of_mem (stands.mem_levels found)
  rw [placed.node?] at found
  cases found
  exact placed.adopted

/-- The `next` links lead through the rest of the row. -/
theorem Stands.nextWalk (front : LeafRow K V) {rest : LeafRow K V} (cut : leaves = front ++ rest)
    (linked : LinkedTo none rest.nexts) :
    NextWalk tree rest.ids.head? (rest.map (storedLeaf tree)) := by
  induction rest generalizing front with
  | nil => exact .done
  | cons place rest ih =>
    have onward := ih (front ++ [place]) (by simpa using cut) linked.2
    have nextEq : (storedLeaf tree place).next = (LeafRow.ids rest).head? := by
      refine Eq.trans linked.1 ?_
      cases rest <;> rfl
    exact .step (stands.leafNode _ (by simp [cut])) (nextEq ▸ onward)

/-- A node is stored exactly when the root reaches it. -/
theorem Stands.reachable (nodeId : BTreeNodeId) :
    (tree.node? nodeId).isSome ↔ ∃ depth, AtDepth tree depth nodeId := by
  constructor
  · intro present
    obtain ⟨low, high⟩ := stands.above.atDepth
    rcases mem_append.mp ((stands.stored_iff nodeId).mp present) with isLeaf | isLevel
    · exact ⟨_, low nodeId isLeaf⟩
    · exact high nodeId isLevel
  · rintro ⟨depth, reached⟩
    rw [stands.stored_iff]
    induction reached with
    | root => exact stands.above.root.1
    | child _ stored listed _ =>
      obtain ⟨body, rfl, placed, children⟩ := stands.above.placed_of_mem
        (stands.mem_levels stored)
      rw [placed.node?] at stored
      cases stored
      exact children _ listed

end

variable [LinearOrder K]

/-- The leaves span the keys they hold. -/
theorem Stands.spans (stands : Stands tree leaves levels) (segmented : Segmented leaves.segments) :
    Spans tree leaves.items := by
  have held : ∀ place ∈ leaves, ∀ key, SubtreeKey tree place.2.id key →
      ∃ entry ∈ place.2.entries, entry.1 = key := by
    intro place mem key below
    have stored := stands.leafNode _ mem
    cases below with
    | leaf found listed =>
      rw [stored] at found
      cases found
      exact ⟨_, listed, rfl⟩
    | child found => simp [stored] at found
  refine ⟨items_ordered segmented, ?_, ?_⟩
  · intro item mem key below
    obtain ⟨place, isPlace, rfl⟩ := mem_map.mp mem
    obtain ⟨entry, listed, rfl⟩ := held place isPlace key below
    exact segmented.least (place.1, place.2.entries) (mem_map_of_mem isPlace) entry listed
  · rw [LeafRow.items, pairwise_map]
    refine (pairwise_map.mp segmented.bounds).imp_of_mem ?_
    intro left right isLeft _ apart key below
    obtain ⟨entry, listed, rfl⟩ := held left isLeft key below
    exact apart.2 entry listed

theorem Sound.wellFormed (sound : Sound tree leaves levels) : WellFormed tree where
  sorted := by
    intro nodeId leaf found
    obtain ⟨mem, rfl⟩ := sound.stands.leaf_iff.mp found
    obtain ⟨place, isPlace, rfl⟩ := mem_map.mp mem
    exact sound.segmented.sorted (place.1, place.2.entries) (mem_map_of_mem isPlace)
  balanced := by
    intro nodeId node found
    obtain ⟨body, rfl, placed, -⟩ :=
      sound.stands.above.placed_of_mem (sound.stands.mem_levels found)
    rw [placed.node?] at found
    cases found
    exact placed.balanced
  separated := by
    intro nodeId node found index separator isSeparator position child isChild key below
    obtain ⟨low, body, rfl, placed, spans⟩ := sound.stands.above.spans_of_mem
      (sound.stands.spans sound.segmented) (sound.stands.mem_levels found)
    rw [placed.node?] at found
    cases found
    exact spans.separated placed.balanced isSeparator isChild below
  uniform := by
    refine ⟨levels.length, fun nodeId leaf depth found reached => ?_⟩
    obtain ⟨mem, rfl⟩ := sound.stands.leaf_iff.mp found
    obtain ⟨place, isPlace, rfl⟩ := mem_map.mp mem
    refine reached.unique sound.stands.above.root.2 sound.stands.adopted
      (sound.stands.above.atDepth.1 _ ?_)
    rw [LeafRow.map_snd_items]
    exact mem_map_of_mem isPlace
  parents := by
    intro nodeId node found parentId
    have owner : tree.parentOf nodeId = node.parent := by simp [parentOf, found]
    rw [← owner]
    constructor
    · exact sound.stands.above.listed ((sound.stands.stored_iff nodeId).mp (by simp [found]))
    · rintro ⟨parent, stored, listed⟩
      exact sound.stands.adopted parentId parent stored nodeId listed
  reachable := sound.stands.reachable
  walk := by
    refine ⟨leaves.map (storedLeaf tree), ?_, ?_, fun nodeId leaf => sound.stands.leaf_iff, ?_⟩
    · rw [sound.leftmost]
      exact sound.stands.nextWalk [] rfl sound.linked
    · have nodup := (nodup_append.mp sound.stands.distinct.nodup).1
      simpa [LeafRow.ids, storedLeaf, Function.comp_def] using nodup
    · simpa [LeafRow.entries, flatMap_map, storedLeaf] using sound.entries_sorted

end

/-- Whatever calls are made, a tree with the configuration of a shard is well formed. -/
theorem wellFormed_after_calls {config : BPlusTreeConfig} (order : 2 ≤ config.minKeys)
    (twice : config.maxKeys = 2 * config.minKeys) (calls : List (TreeCall Bytes Bytes)) :
    WellFormed (BPlusTree.call.final (BPlusTree.new config) calls) := by
  have splits : 2 ≤ config.maxKeys := by omega
  obtain ⟨-, leaves, levels, sound⟩ := reached_final splits calls
  exact sound.wellFormed

theorem wellFormed_after_calls_order_four :
    WellFormed (BPlusTree.call.final
      (BPlusTree.new { maxKeys := 4, minKeys := 2 } : BPlusTree Bytes Bytes)
      [.insert [1] [], .insert [2] [], .insert [3] [], .insert [4] [], .delete [1]]) :=
  wellFormed_after_calls (by decide) (by decide) _

end Nanograph.BTree
