import Nanograph.BTree.Routing

/-!
# The levels above a row of nodes

All leaves of the tree have the same depth, so the tree is a stack of levels:
each level is a row of internal nodes, and the children of a level, in order,
are the row below it. `Above tree items levels` says that the row `items` hangs
under `levels` up to the root, with stored bodies, parent pointers and bounds as
they should be. Every operation on the tree is a change of the levels.
-/

namespace Nanograph.BTree

open List BPlusTree

variable {K V : Type}

/-- A row of internal nodes, each with the lower bound of its subtree. -/
abbrev Level (K : Type) := List (WithBot K × InternalNode K)

namespace Level

/-- The nodes of a level as items of the row they form. -/
def items (level : Level K) : List (Item K) := level.map fun place => (place.1, place.2.id)

/-- The row of children of a level. -/
def below (level : Level K) : List (Item K) :=
  level.flatMap fun place => childItems place.1 place.2

def ids (level : Level K) : List BTreeNodeId := level.map (·.2.id)

@[simp] theorem map_snd_items (level : Level K) : level.items.map Prod.snd = level.ids := by
  simp [items, ids]

@[simp] theorem items_nil : items ([] : Level K) = [] := rfl
@[simp] theorem below_nil : below ([] : Level K) = [] := rfl
@[simp] theorem ids_nil : ids ([] : Level K) = [] := rfl

@[simp] theorem items_append (left right : Level K) :
    items (left ++ right) = left.items ++ right.items := by
  simp [items]

variable (place : WithBot K × InternalNode K)

@[simp] theorem items_cons (rest : Level K) :
    items (place :: rest) = (place.1, place.2.id) :: rest.items := rfl

@[simp] theorem below_append (left right : Level K) :
    below (left ++ right) = left.below ++ right.below := by
  simp [below]

@[simp] theorem below_cons (rest : Level K) :
    below (place :: rest) = childItems place.1 place.2 ++ rest.below := by
  simp [below]

@[simp] theorem ids_append (left right : Level K) :
    ids (left ++ right) = left.ids ++ right.ids := by
  simp [ids]

@[simp] theorem ids_cons (rest : Level K) : ids (place :: rest) = place.2.id :: rest.ids := rfl

/-- A level whose children have increasing bounds has increasing bounds itself. -/
theorem items_ordered [LinearOrder K] {level : Level K}
    (balanced : ∀ place ∈ level, place.2.Balanced)
    (ordered : level.below.Pairwise (·.1 < ·.1)) : level.items.Pairwise (·.1 < ·.1) := by
  have first : ∀ place ∈ level, ∃ item ∈ childItems place.1 place.2, item.1 = place.1 := by
    intro place mem
    have lows := map_fst_childItems place.1 (balanced place mem)
    cases listed : childItems place.1 place.2 with
    | nil => simp [listed] at lows
    | cons item rest =>
      simp only [listed, map_cons, List.cons.injEq] at lows
      exact ⟨item, by simp, lows.1⟩
  rw [items, pairwise_map]
  apply (pairwise_flatMap.mp ordered).2.imp_of_mem
  intro left right leftMem rightMem apart
  obtain ⟨leftItem, leftIn, leftEq⟩ := first left leftMem
  obtain ⟨rightItem, rightIn, rightEq⟩ := first right rightMem
  rw [← leftEq, ← rightEq]
  exact apart leftItem leftIn rightItem rightIn

end Level

/-- The identifiers of a stack of levels. -/
def levelIds (levels : List (Level K)) : List BTreeNodeId := levels.flatMap Level.ids

@[simp] theorem levelIds_nil : levelIds ([] : List (Level K)) = [] := rfl

@[simp] theorem levelIds_cons (level : Level K) (upper : List (Level K)) :
    levelIds (level :: upper) = level.ids ++ levelIds upper := by
  simp [levelIds]

/-- An internal node is stored, has one more child than keys, and its children
point back at it. -/
structure Placed (tree : BPlusTree K V) (node : InternalNode K) : Prop where
  body : tree.bodyOf node.id = some (.internal node)
  balanced : node.Balanced
  adopted : ∀ child ∈ node.children, tree.parentOf child = some node.id

/-- The row `items` hangs under `levels`, the last of which holds the root. -/
def Above (tree : BPlusTree K V) : List (Item K) → List (Level K) → Prop
  | items, [] => items = [(⊥, tree.rootId)] ∧ tree.parentOf tree.rootId = none
  | items, level :: upper =>
    items = level.below ∧ (∀ place ∈ level, Placed tree place.2) ∧ Above tree level.items upper

namespace InternalNode

/-- A node with its parent pointer cleared. -/
@[simps id keys children] def body (node : InternalNode K) : InternalNode K := { node with parent := none }

@[simp] theorem childItems_body (low : WithBot K) (node : InternalNode K) :
    childItems low node.body = childItems low node := rfl

end InternalNode

section

variable {tree changed : BPlusTree K V} {items : List (Item K)} {levels : List (Level K)}

theorem Placed.congr {node : InternalNode K} (placed : Placed tree node)
    (body : changed.bodyOf node.id = tree.bodyOf node.id)
    (parents : ∀ child ∈ node.children, changed.parentOf child = tree.parentOf child) :
    Placed changed node where
  body := body.trans placed.body
  balanced := placed.balanced
  adopted child mem := (parents child mem).trans (placed.adopted child mem)

/-- Children of a level are exactly the identifiers of the row below it. -/
theorem mem_below_ids {level : Level K} (balanced : ∀ place ∈ level, place.2.Balanced)
    {nodeId : BTreeNodeId} :
    nodeId ∈ level.below.map Prod.snd ↔ ∃ place ∈ level, nodeId ∈ place.2.children := by
  rw [Level.below, map_flatMap, mem_flatMap]
  constructor
  · rintro ⟨place, mem, listed⟩
    rw [map_snd_childItems _ (balanced place mem)] at listed
    exact ⟨place, mem, listed⟩
  · rintro ⟨place, mem, listed⟩
    refine ⟨place, mem, ?_⟩
    rwa [map_snd_childItems _ (balanced place mem)]

/-- The stack depends on the bodies of its nodes and on the parent pointers of
its nodes and of the row below. -/
theorem Above.congr (above : Above tree items levels) (root : changed.rootId = tree.rootId)
    (bodies : ∀ nodeId ∈ levelIds levels, changed.bodyOf nodeId = tree.bodyOf nodeId)
    (parents : ∀ nodeId, nodeId ∈ items.map Prod.snd ∨ nodeId ∈ levelIds levels →
      changed.parentOf nodeId = tree.parentOf nodeId) : Above changed items levels := by
  induction levels generalizing items with
  | nil =>
    obtain ⟨rfl, orphan⟩ := above
    refine ⟨by rw [root], ?_⟩
    rw [root, parents tree.rootId (Or.inl (by simp)), orphan]
  | cons level upper ih =>
    obtain ⟨rfl, placed, rest⟩ := above
    have inLevel : ∀ place ∈ level, place.2.id ∈ levelIds (level :: upper) := by
      intro place mem
      exact mem_append_left _ (mem_map_of_mem mem)
    refine ⟨rfl, ?_, ?_⟩
    · intro place mem
      refine (placed place mem).congr (bodies _ (inLevel place mem)) ?_
      intro child listed
      apply parents child (Or.inl _)
      rw [mem_below_ids fun place mem => (placed place mem).balanced]
      exact ⟨place, mem, listed⟩
    · apply ih rest
      · intro nodeId mem
        exact bodies nodeId (by simp [mem])
      · intro nodeId mem
        apply parents nodeId (Or.inr _)
        simpa using mem

/-- A node keeps its place through a change of other nodes that takes children
only from those. -/
theorem Placed.outside {node : InternalNode K} (placed : Placed tree node)
    (touched moved : List BTreeNodeId) (outside : node.id ∉ touched)
    (bodies : ∀ nodeId ∉ touched, changed.bodyOf nodeId = tree.bodyOf nodeId)
    (parents : ∀ child ∈ node.children, child ∉ moved →
      changed.parentOf child = tree.parentOf child)
    (owned : ∀ child ∈ moved, ∃ owner ∈ touched, tree.parentOf child = some owner) :
    Placed changed node := by
  refine placed.congr (bodies node.id outside) ?_
  intro child listed
  refine parents child listed fun isMoved => ?_
  obtain ⟨owner, isTouched, ownerEq⟩ := owned child isMoved
  rw [placed.adopted child listed, Option.some.injEq] at ownerEq
  exact outside (ownerEq ▸ isTouched)

/-- An item of a row lies in one node of the level above it. -/
theorem Above.cut {before after : List (Item K)} {item : Item K} {level : Level K}
    {upper : List (Level K)} (above : Above tree (before ++ item :: after) (level :: upper)) :
    ∃ levelBefore low node levelAfter front back, level = levelBefore ++ (low, node) :: levelAfter ∧
        childItems low node = front ++ item :: back ∧
        before = Level.below levelBefore ++ front ∧
        after = back ++ Level.below levelAfter := by
  obtain ⟨levelBefore, ⟨low, node⟩, levelAfter, front, back, rest⟩ :=
    Foundation.flatMap_cut above.1.symm
  exact ⟨levelBefore, low, node, levelAfter, front, back, rest⟩

end

end Nanograph.BTree
