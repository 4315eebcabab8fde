import Nanograph.BTree.Levels

/-!
# Descending to a leaf

`findLeaf` walks from the root through one node of every level. The node it is
at is the last of its row whose bound is at most the key, so the leaf it ends at
is the last such leaf.
-/

namespace Nanograph.BTree

open List BPlusTree

variable {K V : Type} [LinearOrder K]

/-- `item` is the last of a row whose bound is at most `key`. -/
structure Located (key : K) (items before : List (Item K)) (item : Item K)
    (after : List (Item K)) : Prop where
  cut : items = before ++ item :: after
  least : item.1 ≤ key
  next : ∀ other ∈ after, (key : WithBot K) < other.1

/-- A row whose first bound is at most the key has a last such item. -/
theorem exists_located {key : K} {first : Item K} {rest : List (Item K)}
    (ordered : (first :: rest).Pairwise (·.1 < ·.1)) (least : first.1 ≤ key) :
    ∃ before item after, Located key (first :: rest) before item after := by
  induction rest generalizing first with
  | nil => exact ⟨[], first, [], rfl, least, by simp⟩
  | cons second rest ih =>
    rw [pairwise_cons] at ordered
    by_cases reached : second.1 ≤ key
    · obtain ⟨before, item, after, located⟩ := ih ordered.2 reached
      exact ⟨first :: before, item, after, by rw [located.cut, cons_append],
        located.least, located.next⟩
    · refine ⟨[], first, second :: rest, rfl, least, ?_⟩
      intro other mem
      rcases mem_cons.mp mem with rfl | later
      · exact lt_of_not_ge reached
      · exact (lt_of_not_ge reached).trans ((pairwise_cons.mp ordered.2).1 other later)

/-- Every child stands at or above the bound of its node. -/
theorem low_le_childItems {low : WithBot K} {node : InternalNode K} (balanced : node.Balanced)
    (ordered : (childItems low node).Pairwise (·.1 < ·.1)) :
    ∀ item ∈ childItems low node, low ≤ item.1 := by
  have lows := map_fst_childItems low balanced
  intro item mem
  cases listed : childItems low node with
  | nil => simp [listed] at mem
  | cons first rest =>
    rw [listed] at lows ordered mem
    simp only [map_cons, List.cons.injEq] at lows
    rcases mem_cons.mp mem with rfl | later
    · exact lows.1.ge
    · exact lows.1.symm.le.trans ((pairwise_cons.mp ordered).1 item later).le

/-- The located child of a located node is located in the row below. -/
theorem Located.child {key : K} {level levelBefore levelAfter : Level K} {low : WithBot K}
    {node : InternalNode K} {front back : List (Item K)} {item : Item K}
    (balanced : ∀ place ∈ level, place.2.Balanced) (ordered : level.below.Pairwise (·.1 < ·.1))
    (cut : level = levelBefore ++ (low, node) :: levelAfter)
    (next : ∀ other ∈ Level.items levelAfter, (key : WithBot K) < other.1)
    (located : Located key (childItems low node) front item back) :
    Located key level.below (Level.below levelBefore ++ front) item
      (back ++ Level.below levelAfter) where
  cut := by
    rw [cut, Level.below_append, Level.below_cons]
    simp [located.cut]
  least := located.least
  next := by
    intro other mem
    rcases mem_append.mp mem with inside | outside
    · exact located.next other inside
    · obtain ⟨place, placeIn, listed⟩ := mem_flatMap.mp outside
      have inLevel : place ∈ level := by simp [cut, placeIn]
      have passed : (key : WithBot K) < place.1 :=
        next (place.1, place.2.id) (mem_map_of_mem placeIn)
      have placeOrdered := (pairwise_flatMap.mp ordered).1 place inLevel
      exact passed.trans_le
        (low_le_childItems (balanced place inLevel) placeOrdered other listed)

/-- The descent reaches the located item of any row after one step per level. -/
theorem findLeaf_descends {tree : BPlusTree K V} {items : List (Item K)} {levels : List (Level K)}
    (above : Above tree items levels) (ordered : items.Pairwise (·.1 < ·.1)) (key : K) :
    ∃ before item after, Located key items before item after ∧
      ∀ bound, findLeaf (levels.length + bound) tree.rootId key tree =
        findLeaf bound item.2 key tree := by
  induction levels generalizing items with
  | nil =>
    obtain ⟨rfl, -⟩ := above
    exact ⟨[], (⊥, tree.rootId), [], ⟨rfl, bot_le, by simp⟩, fun bound => by simp⟩
  | cons level upper ih =>
    obtain ⟨rfl, placed, rest⟩ := above
    have balanced : ∀ place ∈ level, place.2.Balanced :=
      fun place mem => (placed place mem).balanced
    obtain ⟨before, item, after, located, reaches⟩ :=
      ih rest (Level.items_ordered balanced ordered)
    -- The item of the upper row is a node of this level.
    obtain ⟨levelBefore, places, rfl, rfl, itemsEq⟩ := map_eq_append_iff.mp located.cut
    obtain ⟨⟨low, node⟩, levelAfter, rfl, rfl, rfl⟩ := map_eq_cons_iff.mp itemsEq
    have here := placed (low, node) (by simp)
    have childOrdered : (childItems low node).Pairwise (·.1 < ·.1) :=
      (pairwise_flatMap.mp ordered).1 (low, node) (by simp)
    have childLocated :
        ∃ front child back, Located key (childItems low node) front child back := by
      have lows := map_fst_childItems low here.balanced
      cases listed : childItems low node with
      | nil => simp [listed] at lows
      | cons first rest =>
        rw [listed] at lows childOrdered
        simp only [map_cons, List.cons.injEq] at lows
        exact exists_located childOrdered (lows.1 ▸ located.least)
    obtain ⟨front, child, back, childAt⟩ := childLocated
    refine ⟨_, child, _, Located.child balanced ordered rfl located.next childAt, ?_⟩
    intro bound
    have index : node.findChildIndex key = front.length :=
      findChildIndex_eq here.balanced childAt.cut (childAt.cut ▸ childOrdered)
        childAt.least childAt.next
    have chosen : node.children[front.length]? = some child.2 := by
      rw [(childItems_cut here.balanced childAt.cut).1]
      simp
    have stored := node?_of_bodyOf here.body
    have step : ((BPlusTreeNode.internal node).setParent (tree.parentOf node.id)
        : BPlusTreeNode K V).getChildForKey key = some child.2 := by
      change node.children[node.findChildIndex key]? = some child.2
      rw [index, chosen]
    have lengthEq : ((levelBefore ++ (low, node) :: levelAfter) :: upper).length + bound =
        upper.length + (bound + 1) := by
      rw [length_cons]
      omega
    rw [lengthEq, reaches, findLeaf, run_bind (run_getNode stored), step]
    rfl

end Nanograph.BTree
