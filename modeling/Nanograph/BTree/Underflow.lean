import Nanograph.BTree.Reshape

/-!
# Choosing how to repair an underflow

`handleUnderflow` looks at the siblings of a node under its parent. It borrows
from the left one or the right one when that has keys to spare, merges with a
sibling otherwise, and stores the node as it is when there is none. For the
levels above it, a borrow changes one separator and a merge drops one child;
`Shared.exchange` covers both.
-/

namespace Nanograph.BTree

open List BPlusTree Foundation

variable {K V : Type}

section

variable {tree : BPlusTree K V} {node : BPlusTreeNode K V} {parent : InternalNode K}
  {front back : List BTreeNodeId}

theorem getLeftSibling_eq (children : parent.children = front ++ node.id :: back)
    (absent : node.id ∉ front) : getLeftSibling node (.internal parent) = front.getLast? := by
  unfold getLeftSibling
  simp only [children, idxOf?_cut _ absent]
  rcases eq_nil_or_concat front with rfl | ⟨earlier, last, rfl⟩
  · simp
  · simp [concat_eq_append]

theorem getRightSibling_eq (children : parent.children = front ++ node.id :: back)
    (absent : node.id ∉ front) : getRightSibling node (.internal parent) = back.head? := by
  unfold getRightSibling
  simp only [children, idxOf?_cut _ absent]
  cases back <;> simp

end

/-- `first` and `second` are adjacent in a row and have the same parent. -/
structure Shared (tree : BPlusTree K V) (before : List (Item K)) (first second : Item K)
    (after : List (Item K)) (parentBefore : Level K) (low : WithBot K) (parent : InternalNode K)
    (parentAfter : Level K) (upper : List (Level K)) (front back : List (Item K)) : Prop where
  above : Above tree (before ++ first :: second :: after)
    ((parentBefore ++ (low, parent) :: parentAfter) :: upper)
  cut : childItems low parent = front ++ first :: second :: back
  beforeEq : before = parentBefore.below ++ front
  afterEq : after = back ++ parentAfter.below

namespace Shared

variable {tree middle : BPlusTree K V} {before after : List (Item K)} {first second : Item K}
  {parentBefore parentAfter : Level K} {low : WithBot K} {parent : InternalNode K}
  {upper : List (Level K)} {front back : List (Item K)}

section

variable
  (shared : Shared tree before first second after parentBefore low parent parentAfter upper front back)

include shared

theorem placed : Placed tree parent :=
  shared.above.2.1 (low, parent) (by simp)

theorem children_nodup (nodup : ((before ++ first :: second :: after).map Prod.snd).Nodup) :
    parent.children.Nodup := by
  rw [shared.above.1, Level.below, map_flatMap] at nodup
  rw [← map_snd_childItems low shared.placed.balanced]
  exact (nodup_flatMap.mp nodup).1 (low, parent) (by simp)

theorem parentStored :
    tree.node? parent.id = some (.internal { parent with parent := tree.parentOf parent.id }) :=
  node?_of_bodyOf shared.placed.body

/-- Both nodes point at their parent, which has a separator between them. -/
theorem separated (nodup : ((before ++ first :: second :: after).map Prod.snd).Nodup) :
    (tree.parentOf first.2 = some parent.id ∧ tree.parentOf second.2 = some parent.id) ∧
      ∃ separator : K, (separator : WithBot K) = second.1 ∧
        ({ parent with parent := tree.parentOf parent.id } : InternalNode K).separatorBefore
          second.2 = some (front.length + 1, separator) ∧
        ({ parent with parent := tree.parentOf parent.id } : InternalNode K).separatorAfter
          first.2 = some (front.length, separator) := by
  have children := (childItems_cut_pair shared.placed.balanced shared.cut).1
  refine ⟨⟨?_, ?_⟩, separator_eq { parent with parent := tree.parentOf parent.id }
    shared.placed.balanced (shared.children_nodup nodup) shared.cut⟩
  · exact shared.placed.adopted _ (by simp [children])
  · exact shared.placed.adopted _ (by simp [children])

end

/-- The parent takes new bounds for the two children, or drops one of them. -/
theorem exchange (replaced : InternalNode K) (kept : List (Item K))
    (shared : Shared tree before first second after parentBefore low parent parentAfter upper
      front back)
    (idEq : replaced.id = parent.id) (parentEq : replaced.parent = tree.parentOf parent.id)
    (balanced : replaced.Balanced) (replacedCut : childItems low replaced = front ++ kept ++ back)
    (keptIds : (kept.map Prod.snd).Sublist [first.2, second.2])
    (rowKept : RowKept tree middle ((before ++ kept ++ after).map Prod.snd)
      ((parentBefore ++ (low, parent) :: parentAfter) :: upper))
    (parents : ∀ nodeId ∈ (before ++ kept ++ after).map Prod.snd,
      middle.parentOf nodeId = tree.parentOf nodeId) :
    Unsaved middle parentBefore [(low, replaced)] parentAfter upper ∧
      Level.below (parentBefore ++ (low, replaced) :: parentAfter) = before ++ kept ++ after := by
  have rowEq : Level.below (parentBefore ++ (low, replaced) :: parentAfter) =
      before ++ kept ++ after := by
    simp [replacedCut, shared.beforeEq, shared.afterEq]
  have children : replaced.children = front.map Prod.snd ++ kept.map Prod.snd ++
      back.map Prod.snd := by
    rw [← map_snd_childItems low balanced, replacedCut]
    simp
  have parentChildren := (childItems_cut_pair shared.placed.balanced shared.cut).1
  refine ⟨?_, rowEq⟩
  constructor
  · exact rowKept.keyed
  · intro place mem
    have inLevel : place ∈ parentBefore ++ (low, parent) :: parentAfter := by
      simp only [mem_append, mem_cons] at mem ⊢
      tauto
    refine (shared.above.2.1 place inLevel).congr ?_ ?_
    · refine rowKept.bodies _ ?_
      rw [levelIds_cons]
      exact mem_append_left _ (mem_map_of_mem inLevel)
    · intro child listed
      apply parents
      have below : child ∈ (Level.below (parentBefore ++ parentAfter)).map Prod.snd := by
        refine (mem_below_ids fun place mem => (shared.above.2.1 place ?_).balanced).mpr
          ⟨place, mem, listed⟩
        simp only [mem_append, mem_cons] at mem ⊢
        tauto
      rw [shared.beforeEq, shared.afterEq]
      simp only [Level.below_append, map_append, mem_append] at below ⊢
      tauto
  · simpa using balanced
  · intro place mem child listed
    obtain rfl := mem_singleton.mp mem
    rw [children] at listed
    have inRow : child ∈ (before ++ kept ++ after).map Prod.snd := by
      rw [shared.beforeEq, shared.afterEq]
      simp only [map_append, mem_append] at listed ⊢
      tauto
    rw [parents child inRow, idEq]
    apply shared.placed.adopted
    rw [parentChildren]
    have either : child ∈ kept.map Prod.snd → child ∈ [first.2, second.2] :=
      fun mem => keptIds.mem mem
    simp only [mem_append, mem_cons, not_mem_nil, or_false] at listed either ⊢
    tauto
  · simp [rowKept.parents parent.id (by simp), parentEq, idEq]
  · have itemsEq : Level.items (parentBefore ++ (low, replaced) :: parentAfter) =
        Level.items (parentBefore ++ (low, parent) :: parentAfter) := by simp [idEq]
    rw [singleton_append, itemsEq]
    refine shared.above.2.2.congr rowKept.root ?_ ?_
    · exact fun nodeId mem => rowKept.bodies nodeId (by simp [mem])
    · intro nodeId mem
      rw [Level.map_snd_items, ← mem_append, ← levelIds_cons] at mem
      exact rowKept.parents nodeId mem
  · have idsEq : Level.ids (parentBefore ++ (low, replaced) :: parentAfter) ++ levelIds upper =
        levelIds ((parentBefore ++ (low, parent) :: parentAfter) :: upper) := by simp [idEq]
    rw [singleton_append, rowEq, idsEq]
    exact rowKept.distinct
  · rw [singleton_append, rowEq]
    exact rowKept.stored

/-- The parent takes a new separator between the two children. -/
theorem rewritten (newLow : K) {run : TreeM K V Unit}
    (shared : Shared tree before first second after parentBefore low parent parentAfter upper
      front back)
    (rowKept : RowKept tree middle ((before ++ first :: second :: after).map Prod.snd)
      ((parentBefore ++ (low, parent) :: parentAfter) :: upper))
    (parents : ∀ nodeId ∈ (before ++ first :: second :: after).map Prod.snd,
      middle.parentOf nodeId = tree.parentOf nodeId)
    (ran : run middle = .ok () (middle.putNode (.internal { parent with
      parent := tree.parentOf parent.id, keys := parent.keys.set front.length newLow }))) :
    Settles run middle (before ++ first :: (↑newLow, second.2) :: after)
      (levelIds ((parentBefore ++ (low, parent) :: parentAfter) :: upper))
      (Occupied · · ((parentBefore ++ (low, parent) :: parentAfter) :: upper)) := by
  obtain ⟨writtenCut, writtenBalanced⟩ := setSeparator_eq
    { parent with parent := tree.parentOf parent.id } shared.placed.balanced shared.cut newLow
  obtain ⟨unsaved, rowEq⟩ := shared.exchange { parent with
      parent := tree.parentOf parent.id, keys := parent.keys.set front.length newLow }
    [first, (↑newLow, second.2)] rfl rfl writtenBalanced (by simpa using writtenCut)
    (by simp) (by simpa using rowKept) (by simpa using parents)
  have settled := unsaved.save
    (Occupied · · ((parentBefore ++ (low, parent) :: parentAfter) :: upper)) ran (by
      intro least most _ occupied
      refine ⟨fun place mem => ?_, occupied.2⟩
      rcases mem_cut.mp mem with rfl | other
      · simpa using occupied.1 (low, parent) (by simp)
      · exact occupied.1 place (mem_cut.mpr (Or.inr other)))
  simpa [SettlesLevel, rowEq] using settled

end Shared

/-- What `handleUnderflow` does with a node of a row whose nodes are stored: it borrows from the
left sibling or the right one, or merges with it, or stores an only child as it is. -/
theorem handleUnderflow_cases (removeFromParent : BTreeNodeId → BTreeNodeId → TreeM K V Unit)
    {tree : BPlusTree K V} {before after : List (Item K)} {low : WithBot K} {level : Level K}
    {upper : List (Level K)} (node : BPlusTreeNode K V)
    (above : Above tree (before ++ (low, node.id) :: after) (level :: upper))
    (owner : node.parent = tree.parentOf node.id)
    (nodup : ((before ++ (low, node.id) :: after).map Prod.snd).Nodup)
    (present : ∀ item ∈ before ++ after, ∃ stored, tree.node? item.2 = some stored) :
    ∃ parentBefore parentLow parent parentAfter front back,
      level = parentBefore ++ (parentLow, parent) :: parentAfter ∧
      ((∃ rest left stored, before = rest ++ [left] ∧ tree.node? left.2 = some stored ∧
          Shared tree rest left (low, node.id) after parentBefore parentLow parent parentAfter
            upper front back ∧
          (tree.config.minKeys < stored.len ∧
              handleUnderflow removeFromParent node tree = borrowFromLeft node left.2 tree ∨
            stored.len ≤ tree.config.minKeys ∧ handleUnderflow removeFromParent node tree =
              mergeWithLeft removeFromParent node left.2 tree)) ∨
        (∃ right rest stored, after = right :: rest ∧ tree.node? right.2 = some stored ∧
          Shared tree before (low, node.id) right rest parentBefore parentLow parent parentAfter
            upper front back ∧
          (tree.config.minKeys < stored.len ∧
              handleUnderflow removeFromParent node tree = borrowFromRight node right.2 tree ∨
            stored.len ≤ tree.config.minKeys ∧ handleUnderflow removeFromParent node tree =
              mergeWithRight removeFromParent node right.2 tree)) ∨
        parent.keys = [] ∧
          handleUnderflow removeFromParent node tree = .ok () (tree.putNode node)) := by
  obtain ⟨parentBefore, parentLow, parent, parentAfter, front, back, rfl, cut, rfl, rfl⟩ :=
    above.cut
  have placed : Placed tree parent := above.2.1 (parentLow, parent) (by simp)
  have children := (childItems_cut placed.balanced cut).1
  have absent : node.id ∉ front.map Prod.snd := by
    simp only [map_append, map_cons, nodup_append, mem_append] at nodup
    exact fun listed => nodup.2.2 node.id (Or.inr listed) node.id (by simp) rfl
  have start : handleUnderflow removeFromParent node tree = repairUnderflow removeFromParent
      tree.config.minKeys node (front.map Prod.snd).getLast? (back.map Prod.snd).head? tree := by
    let stored : InternalNode K := { parent with parent := tree.parentOf parent.id }
    have left : getLeftSibling node (.internal stored) = _ := getLeftSibling_eq children absent
    have right : getRightSibling node (.internal stored) = _ := getRightSibling_eq children absent
    unfold handleUnderflow
    rw [owner, placed.adopted node.id (by simp [children])]
    simp only
    rw [run_bind (run_getNode (node?_of_bodyOf placed.body)), run_bind run_get]
    exact congrArg₂ (repairUnderflow removeFromParent tree.config.minKeys node · · tree) left right
  rw [start]
  rcases eq_nil_or_concat' front with rfl | ⟨rest, left, rfl⟩
  · cases back with
    | nil =>
      have single := length_childItems parentLow placed.balanced
      rw [cut] at single
      exact ⟨_, _, _, _, [], [], rfl, .inr (.inr
        ⟨eq_nil_of_length_eq_zero (by simpa using single), rfl⟩)⟩
    | cons right rest =>
      obtain ⟨stored, found⟩ := present right (by simp)
      refine ⟨_, _, _, _, [], rest, rfl, .inr (.inl ⟨right, _, stored, rfl, found,
        ⟨above, cut, rfl, rfl⟩, ?_⟩)⟩
      simp only [repairUnderflow, map_nil, getLast?_nil, map_cons, head?_cons]
      rw [run_bind (run_getNode found)]
      by_cases spare : tree.config.minKeys < stored.len
      · exact .inl ⟨spare, by rw [if_pos spare]⟩
      · exact .inr ⟨not_lt.mp spare, by rw [if_neg spare]⟩
  · obtain ⟨stored, found⟩ := present left (by simp)
    have shared : Shared tree (parentBefore.below ++ rest) left (low, node.id)
        (back ++ Level.below parentAfter) parentBefore parentLow parent parentAfter upper rest
        back := ⟨by simpa using above, by simpa using cut, rfl, rfl⟩
    simp only [map_append, map_cons, map_nil, getLast?_append,
      getLast?_singleton, Option.some_or, repairUnderflow]
    rw [run_bind (run_getNode found)]
    by_cases spare : tree.config.minKeys < stored.len
    · exact ⟨_, _, _, _, rest, back, rfl, .inl ⟨_, left, stored, by simp, found, shared,
        .inl ⟨spare, by rw [if_pos spare]⟩⟩⟩
    · rw [if_neg spare]
      cases back with
      | nil =>
        exact ⟨_, _, _, _, rest, [], rfl, .inl ⟨_, left, stored, by simp, found, shared,
          .inr ⟨not_lt.mp spare, rfl⟩⟩⟩
      | cons right others =>
        obtain ⟨other, otherFound⟩ := present right (by simp)
        rw [map_cons, head?_cons]
        simp only
        rw [run_bind (run_getNode otherFound)]
        by_cases otherSpare : tree.config.minKeys < other.len
        · exact ⟨_, _, _, _, rest ++ [left], others, rfl, .inr (.inl ⟨right, _, other, rfl,
            otherFound, ⟨above, cut, rfl, rfl⟩, .inl ⟨otherSpare, by rw [if_pos otherSpare]⟩⟩)⟩
        · exact ⟨_, _, _, _, rest, right :: others, rfl, .inl ⟨_, left, stored, by simp, found,
            shared, .inr ⟨not_lt.mp spare, by rw [if_neg otherSpare]⟩⟩⟩

end Nanograph.BTree
