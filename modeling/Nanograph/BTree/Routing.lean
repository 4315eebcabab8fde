import Nanograph.BTree.Store
import Nanograph.Foundation.ListCut

/-!
# Children with their lower bounds

An internal node under a lower bound gives each of its children a lower bound:
the first child inherits it, every other child has the separator before it.
`childItems` lists the children with these bounds, and the node operations are
described by what they do to that list.
-/

namespace Nanograph.BTree

open List Foundation

variable {K V : Type}

/-- A node with the least key its subtree may hold; `⊥` on the left edge. -/
abbrev Item (K : Type) := WithBot K × BTreeNodeId

/-- The children of a node that stands under the lower bound `low`. -/
def childItems (low : WithBot K) (node : InternalNode K) : List (Item K) :=
  (low :: node.keys.map WithBot.some).zip node.children

/-- A node has one more child than keys. -/
def InternalNode.Balanced (node : InternalNode K) : Prop :=
  node.children.length = node.keys.length + 1

section

variable {low : WithBot K} {node : InternalNode K}

section

variable (low) (balanced : node.Balanced)

include low balanced

theorem map_fst_childItems :
    (childItems low node).map Prod.fst = low :: node.keys.map WithBot.some := by
  apply map_fst_zip
  simp only [InternalNode.Balanced] at balanced
  simp [balanced]

theorem map_snd_childItems : (childItems low node).map Prod.snd = node.children := by
  apply map_snd_zip
  simp only [InternalNode.Balanced] at balanced
  simp [balanced]

theorem length_childItems : (childItems low node).length = node.keys.length + 1 := by
  rw [← length_map (f := Prod.snd), map_snd_childItems _ balanced]
  exact balanced

end

/-- A node is recognised by the bounds and the identifiers of its children. -/
theorem childItems_eq {items : List (Item K)}
    (lows : items.map Prod.fst = low :: node.keys.map WithBot.some)
    (ids : items.map Prod.snd = node.children) : childItems low node = items ∧ node.Balanced := by
  constructor
  · rw [childItems, ← lows, ← ids]
    exact (zip_of_prod rfl rfl).symm
  · have lengths := congrArg List.length lows
    have idLengths := congrArg List.length ids
    simp only [length_map, length_cons] at lengths idLengths
    unfold InternalNode.Balanced
    omega

/-- Where the children are cut, the separators are cut: those up to the child
and those behind it. -/
theorem childItems_cut (balanced : node.Balanced) {front back : List (Item K)} {item : Item K}
    (cut : childItems low node = front ++ item :: back) :
    node.children = front.map Prod.snd ++ item.2 :: back.map Prod.snd ∧
      ∃ upTo behind, node.keys = upTo ++ behind ∧ upTo.length = front.length ∧
        low :: upTo.map WithBot.some = front.map Prod.fst ++ [item.1] ∧
        behind.map WithBot.some = back.map Prod.fst := by
  constructor
  · rw [← map_snd_childItems low balanced, cut]
    simp
  · have lows := map_fst_childItems low balanced
    rw [cut] at lows
    cases front with
    | nil =>
      simp only [nil_append, map_cons, List.cons.injEq] at lows
      exact ⟨[], node.keys, rfl, rfl, by simp [lows.1], lows.2.symm⟩
    | cons first rest =>
      simp only [cons_append, map_cons, map_append, List.cons.injEq] at lows
      obtain ⟨firstEq, restEq⟩ := lows
      have split : node.keys.map WithBot.some =
          (rest.map Prod.fst ++ [item.1]) ++ back.map Prod.fst := by simp [← restEq]
      obtain ⟨upTo, behind, keysEq, upToEq, behindEq⟩ := map_eq_append_iff.mp split
      refine ⟨upTo, behind, keysEq, ?_, by simp [firstEq, upToEq], behindEq⟩
      have lengths := congrArg List.length upToEq
      simpa using lengths

variable [LinearOrder K] {front back : List (Item K)} {item : Item K} {key : K}

/-- The bounds of the children increase, so the keys of the node do. -/
theorem keys_ordered (balanced : node.Balanced)
    (ordered : (childItems low node).Pairwise (·.1 < ·.1)) : node.keys.Pairwise (· < ·) := by
  have lows : ((childItems low node).map Prod.fst).Pairwise (· < ·) :=
    pairwise_map.mpr ordered
  rw [map_fst_childItems _ balanced] at lows
  have keys := pairwise_map.mp (pairwise_cons.mp lows).2
  exact keys.imp WithBot.coe_lt_coe.mp

/-- Every separator up to a child is at most the child's bound. -/
theorem upTo_le {keys : List K} (ordered : (front ++ item :: back).Pairwise (·.1 < ·.1))
    (lows : low :: keys.map WithBot.some = front.map Prod.fst ++ [item.1]) :
    ∀ separator ∈ keys, (separator : WithBot K) ≤ item.1 := by
  intro separator mem
  have listed : (separator : WithBot K) ∈ front.map Prod.fst ++ [item.1] := by
    rw [← lows]
    exact mem_cons_of_mem _ (mem_map_of_mem mem)
  rcases mem_append.mp listed with before | last
  · obtain ⟨earlier, inFront, equal⟩ := mem_map.mp before
    have less := (pairwise_append.mp ordered).2.2 earlier inFront item (by simp)
    exact equal ▸ less.le
  · simp only [mem_singleton] at last
    exact last.le

/-- Every separator behind a child is greater than a key below the next bounds. -/
theorem behind_gt {keys : List K} (lows : keys.map WithBot.some = back.map Prod.fst)
    (next : ∀ other ∈ back, (key : WithBot K) < other.1) :
    ∀ separator ∈ keys, cmp separator key = .gt := by
  intro separator mem
  have listed : (separator : WithBot K) ∈ back.map Prod.fst := by
    rw [← lows]
    exact mem_map_of_mem mem
  obtain ⟨other, inBack, equal⟩ := mem_map.mp listed
  have less := next other inBack
  rw [equal, WithBot.coe_lt_coe] at less
  exact (cmp_eq_gt_iff _ _).mpr less

/-- The descent goes to the last child whose bound is at most the key. -/
theorem findChildIndex_eq (balanced : node.Balanced)
    (cut : childItems low node = front ++ item :: back)
    (ordered : (front ++ item :: back).Pairwise (·.1 < ·.1))
    (least : item.1 ≤ key) (next : ∀ other ∈ back, (key : WithBot K) < other.1) :
    node.findChildIndex key = front.length := by
  obtain ⟨-, upTo, behind, keysEq, lengthEq, lows, behindEq⟩ := childItems_cut balanced cut
  have greater := behind_gt behindEq next
  have bounded := upTo_le ordered lows
  have sorted := keys_ordered balanced (cut ▸ ordered)
  rw [keysEq] at sorted
  unfold InternalNode.findChildIndex
  rw [keysEq]
  -- The search can only hit the last separator up to the child.
  rcases eq_nil_or_concat upTo with rfl | ⟨earlier, last, rfl⟩
  · rw [binarySearchBy_missing [] (by simp) greater]
    simpa using lengthEq
  · have lastLe : last ≤ key :=
      WithBot.coe_le_coe.mp ((bounded last (by simp)).trans least)
    have smaller : ∀ separator ∈ earlier, cmp separator key = .lt := by
      intro separator mem
      have before : separator < last := by
        have front := (pairwise_append.mp sorted).1
        rw [concat_eq_append] at front
        exact (pairwise_append.mp front).2.2 separator mem last (by simp)
      exact (cmp_eq_lt_iff _ _).mpr (before.trans_le lastLe)
    rw [concat_eq_append] at lengthEq ⊢
    rcases lastLe.lt_or_eq with less | equal
    · rw [binarySearchBy_missing (earlier ++ [last]) _ greater]
      · exact lengthEq
      · intro separator mem
        rcases mem_append.mp mem with early | final
        · exact smaller separator early
        · rw [mem_singleton.mp final]
          exact (cmp_eq_lt_iff _ _).mpr less
    · rw [append_assoc, singleton_append,
        binarySearchBy_found smaller ((cmp_eq_eq_iff _ _).mpr equal) greater]
      simpa using lengthEq

/-- Inserting a separator above a child's bound puts the new child behind it. -/
theorem insertKeyChild_eq (node : InternalNode K) (balanced : node.Balanced)
    (cut : childItems low node = front ++ item :: back)
    (ordered : (front ++ item :: back).Pairwise (·.1 < ·.1)) (above : item.1 < key)
    (next : ∀ other ∈ back, (key : WithBot K) < other.1) (child : BTreeNodeId) :
    ∃ grown, node.insertKeyChild key child = some grown ∧ grown.id = node.id ∧
      grown.parent = node.parent ∧ grown.Balanced ∧
      childItems low grown = front ++ item :: (↑key, child) :: back := by
  obtain ⟨childrenEq, upTo, behind, keysEq, lengthEq, lows, behindEq⟩ :=
    childItems_cut balanced cut
  have bounded := upTo_le ordered lows
  have smaller : ∀ separator ∈ upTo, cmp separator key = .lt := by
    intro separator mem
    exact (cmp_eq_lt_iff _ _).mpr
      (WithBot.coe_lt_coe.mp ((bounded separator mem).trans_lt above))
  have search : binarySearchBy (fun k => cmp k key) node.keys = .error upTo.length := by
    rw [keysEq]
    exact binarySearchBy_missing _ smaller (behind_gt behindEq next)
  have room : upTo.length + 1 ≤ node.children.length := by
    rw [childrenEq, lengthEq]
    simp
  have grownChildren : node.children.insertIdx (upTo.length + 1) child =
      front.map Prod.snd ++ item.2 :: child :: back.map Prod.snd := by
    have cutAfter := insertIdx_cut (front.map Prod.snd ++ [item.2]) (back.map Prod.snd) child
    simp only [length_append, length_map, length_singleton, append_assoc,
      singleton_append] at cutAfter
    rw [childrenEq, lengthEq, cutAfter]
  have grownKeys : node.keys.insertIdx upTo.length key = upTo ++ key :: behind := by
    rw [keysEq, insertIdx_cut]
  have grownIs : node.insertKeyChild key child = some { node with
      keys := upTo ++ key :: behind
      children := front.map Prod.snd ++ item.2 :: child :: back.map Prod.snd } := by
    simp only [InternalNode.insertKeyChild, search, if_pos room, grownKeys, grownChildren]
  refine ⟨_, grownIs, rfl, rfl, ?_⟩
  rw [and_comm]
  apply childItems_eq
  · simp only [map_append, map_cons]
    rw [behindEq, ← cons_append, lows]
    simp
  · simp

end

section

variable {low : WithBot K} {node : InternalNode K}

/-- Splitting a node cuts its children before the key that moves up. -/
theorem split_eq (low : WithBot K) (node : InternalNode K) (balanced : node.Balanced)
    (nonempty : node.keys ≠ []) :
    ∃ left middle right, node.split = some (left, middle, right) ∧
      left.id = node.id ∧ left.parent = node.parent ∧ left.Balanced ∧ right.Balanced ∧
      childItems low node = childItems low left ++ childItems middle right ∧
      left.keys.length = node.keys.length / 2 ∧
      right.keys.length = node.keys.length - node.keys.length / 2 - 1 := by
  have positive : 0 < node.keys.length := length_pos_of_ne_nil nonempty
  have inside : node.keys.length / 2 < node.keys.length := by omega
  have middleEq := getElem?_eq_getElem inside
  have room : node.keys.length / 2 + 1 ≤ node.children.length := by
    unfold InternalNode.Balanced at balanced
    omega
  have splitIs : node.split = some
      ({ node with
          keys := node.keys.take (node.keys.length / 2)
          children := node.children.take (node.keys.length / 2 + 1) },
        node.keys[node.keys.length / 2],
        { id := node.id
          keys := node.keys.drop (node.keys.length / 2 + 1)
          children := node.children.drop (node.keys.length / 2 + 1)
          parent := node.parent }) := by
    simp only [InternalNode.split, middleEq, if_pos room]
  unfold InternalNode.Balanced at balanced
  refine ⟨_, _, _, splitIs, rfl, rfl, ?_, ?_, ?_, ?_, ?_⟩
  · simp [InternalNode.Balanced]
    omega
  · simp [InternalNode.Balanced]
    omega
  · simp only [childItems]
    have keysCut : low :: node.keys.map WithBot.some =
        (low :: (node.keys.take (node.keys.length / 2)).map WithBot.some) ++
          ((node.keys[node.keys.length / 2] : K) : WithBot K) ::
            (node.keys.drop (node.keys.length / 2 + 1)).map WithBot.some := by
      have cut : node.keys = node.keys.take (node.keys.length / 2) ++
          node.keys[node.keys.length / 2] :: node.keys.drop (node.keys.length / 2 + 1) := by
        rw [← drop_eq_getElem_cons inside, take_append_drop]
      have mapped := congrArg (List.map (WithBot.some (α := K))) cut
      rw [map_append, map_cons] at mapped
      rw [mapped, cons_append]
    conv_lhs =>
      rw [keysCut, ← take_append_drop (node.keys.length / 2 + 1) node.children]
    rw [zip_append]
    simp
    omega
  · simp
    omega
  · simp
    omega

variable {front back : List (Item K)} {left right : Item K}

/-- The separators around two adjacent children: `separator` is the right one's bound. -/
theorem childItems_cut_pair (balanced : node.Balanced)
    (cut : childItems low node = front ++ left :: right :: back) :
    node.children = front.map Prod.snd ++ left.2 :: right.2 :: back.map Prod.snd ∧
      ∃ (upTo : List K) (separator : K) (behind : List K), node.keys = upTo ++ separator :: behind ∧
        upTo.length = front.length ∧ (separator : WithBot K) = right.1 ∧
        low :: upTo.map WithBot.some = front.map Prod.fst ++ [left.1] ∧
        behind.map WithBot.some = back.map Prod.fst := by
  obtain ⟨childrenEq, upTo, rest, keysEq, lengthEq, lows, restEq⟩ := childItems_cut balanced cut
  refine ⟨by simpa using childrenEq, ?_⟩
  cases rest with
  | nil => simp at restEq
  | cons separator behind =>
    simp only [map_cons, List.cons.injEq] at restEq
    exact ⟨upTo, separator, behind, keysEq, lengthEq, restEq.1, lows, restEq.2⟩

/-- The positions of two adjacent children. -/
theorem idxOf_pair {children front back : List BTreeNodeId} {left right : BTreeNodeId}
    (distinct : children.Nodup) (childrenEq : children = front ++ left :: right :: back) :
    children.idxOf? left = some front.length ∧ children.idxOf? right = some (front.length + 1) := by
  subst childrenEq
  have absent : left ∉ front ∧ right ∉ front ++ [left] := by
    grind
  have position := idxOf?_cut back absent.2
  rw [append_assoc, singleton_append, length_append] at position
  exact ⟨idxOf?_cut _ absent.1, position⟩

section

variable (node) (balanced : node.Balanced)

include node balanced

/-- The separator between two adjacent children. -/
theorem separator_eq (distinct : node.children.Nodup)
    (cut : childItems low node = front ++ left :: right :: back) :
    ∃ separator : K, (separator : WithBot K) = right.1 ∧
      node.separatorBefore right.2 = some (front.length + 1, separator) ∧
      node.separatorAfter left.2 = some (front.length, separator) := by
  obtain ⟨childrenEq, upTo, separator, behind, keysEq, lengthEq, bound, -, -⟩ :=
    childItems_cut_pair balanced cut
  obtain ⟨leftIdx, rightIdx⟩ := idxOf_pair distinct childrenEq
  refine ⟨separator, bound, ?_, ?_⟩
  · unfold InternalNode.separatorBefore
    rw [rightIdx]
    simp [keysEq, ← lengthEq]
  · unfold InternalNode.separatorAfter
    rw [leftIdx]
    simp [keysEq, ← lengthEq]

/-- Writing the separator between two adjacent children changes the bound of the
right one only. -/
theorem setSeparator_eq (cut : childItems low node = front ++ left :: right :: back) (key : K) :
    let written : InternalNode K := { node with keys := node.keys.set front.length key }
    childItems low written = front ++ left :: (↑key, right.2) :: back ∧ written.Balanced := by
  obtain ⟨childrenEq, upTo, separator, behind, keysEq, lengthEq, -, lows, behindEq⟩ :=
    childItems_cut_pair balanced cut
  have keysSet : node.keys.set front.length key = upTo ++ key :: behind := by
    rw [keysEq, ← lengthEq, set_cut]
  apply childItems_eq
  · simp only [keysSet, map_append, map_cons]
    rw [behindEq, ← cons_append, lows]
    simp
  · simp [childrenEq]

/-- Dropping the right one of two adjacent children drops its bound. -/
theorem removeChild_eq (distinct : node.children.Nodup)
    (cut : childItems low node = front ++ left :: right :: back) :
    childItems low (node.removeChild right.2) = front ++ left :: back ∧
      (node.removeChild right.2).Balanced ∧ (node.removeChild right.2).id = node.id ∧
      (node.removeChild right.2).parent = node.parent := by
  obtain ⟨childrenEq, upTo, separator, behind, keysEq, lengthEq, -, lows, behindEq⟩ :=
    childItems_cut_pair balanced cut
  have position := (idxOf_pair distinct childrenEq).2
  have childrenCut := eraseIdx_cut (front.map Prod.snd ++ [left.2]) (back.map Prod.snd) right.2
  simp only [append_assoc, singleton_append, length_append, length_map,
    length_singleton] at position childrenCut
  have keysCut : node.keys.eraseIdx front.length = upTo ++ behind := by
    rw [keysEq, ← lengthEq, eraseIdx_cut]
  have inside : 0 < front.length + 1 ∧ front.length + 1 ≤ node.keys.length := by
    rw [keysEq, ← lengthEq]
    simp
  have removed : node.removeChild right.2 =
      { node with
        keys := upTo ++ behind
        children := front.map Prod.snd ++ left.2 :: back.map Prod.snd } := by
    unfold InternalNode.removeChild
    rw [position, childrenEq]
    simp only [if_pos inside, Nat.add_sub_cancel, keysCut, childrenCut]
  rw [removed]
  refine and_assoc.mp ⟨childItems_eq ?_ ?_, rfl, rfl⟩
  · simp only [map_append, map_cons]
    rw [behindEq, ← cons_append, lows]
    simp
  · simp

end

/-- Two adjacent nodes with their separator between them list their children in
order, however the children are divided between them. -/
theorem childItems_join (left right : InternalNode K) {joined : InternalNode K} {separator : K}
    (balanced : left.Balanced) (keysEq : joined.keys = left.keys ++ separator :: right.keys)
    (childrenEq : joined.children = left.children ++ right.children) :
    childItems low joined = childItems low left ++ childItems separator right := by
  rw [childItems, childItems, childItems, keysEq, childrenEq, map_append, map_cons,
    ← cons_append, zip_append]
  rw [length_cons, length_map, balanced]

section

variable (low node) {keys : List K} {children : List BTreeNodeId} {child : BTreeNodeId}
  (balanced : node.Balanced)

include low node balanced

/-- A node without its last child. -/
theorem childItems_last {last : K} (keysEq : node.keys = keys ++ [last])
    (childrenEq : node.children = children ++ [child]) :
    ({ node with keys := keys, children := children } : InternalNode K).Balanced ∧
      childItems low node = childItems low { node with keys := keys, children := children } ++
        [((last : WithBot K), child)] := by
  have shorter : ({ node with keys := keys, children := children } : InternalNode K).Balanced := by
    unfold InternalNode.Balanced at balanced ⊢
    rw [keysEq, childrenEq] at balanced
    simpa using balanced
  refine ⟨shorter, ?_⟩
  rw [childItems_join _ { node with keys := [], children := [child] } shorter keysEq childrenEq]
  rfl

/-- A node without its first child. -/
theorem childItems_first {next : K} (keysEq : node.keys = next :: keys)
    (childrenEq : node.children = child :: children) :
    ({ node with keys := keys, children := children } : InternalNode K).Balanced ∧
      childItems low node =
        (low, child) :: childItems next { node with keys := keys, children := children } := by
  constructor
  · unfold InternalNode.Balanced at balanced ⊢
    rw [keysEq, childrenEq] at balanced
    simpa using balanced
  · rw [childItems, keysEq, childrenEq]
    rfl

end

end

end Nanograph.BTree
