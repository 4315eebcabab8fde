import Nanograph.BTree.Shape

/-!
# The links between leaves

A split gives the new leaf its links and points the old leaf at it, but leaves the
`prev` link of the leaf behind them as it was. The list of leaves is doubly linked
as long as only the last leaf is split.
-/

namespace Nanograph.BTree

open List BPlusTree Foundation LeafRow

variable {K V : Type}

/-- The `next` and `prev` links of the stored leaves agree, and nothing comes before
the leftmost leaf. -/
def DoublyLinked (tree : BPlusTree K V) : Prop :=
  (∀ leftId left rightId right, tree.node? leftId = some (.leaf left) →
    tree.node? rightId = some (.leaf right) →
    (left.next = some rightId ↔ right.prev = some leftId)) ∧
  ∃ firstId first, tree.leftmostLeaf = some firstId ∧
    tree.node? firstId = some (.leaf first) ∧ first.prev = none

/-- The insert of a key splits a leaf that has a next leaf. -/
def SplitsInside [LinearOrder K] (tree : BPlusTree K V) : TreeCall K V → Prop
  | .insert key value => ∃ leafId leaf,
      findLeaf tree.loopBound tree.rootId key tree = .ok leafId tree ∧
      tree.node? leafId = some (.leaf leaf) ∧ leaf.next ≠ none ∧
      tree.config.maxKeys ≤ (leaf.insert key value).1.entries.length
  | _ => False

section

variable {tree : BPlusTree K V} {leaves before after : LeafRow K V} {levels : List (Level K)}

/-- A key has one place in a row. -/
theorem located_unique [LinearOrder K] {key : K} {otherBefore otherAfter : LeafRow K V}
    {place other : WithBot K × LeafNode K V}
    (same : before ++ place :: after = otherBefore ++ other :: otherAfter)
    (least : place.1 ≤ (key : WithBot K)) (next : ∀ behind ∈ after, (key : WithBot K) < behind.1)
    (otherLeast : other.1 ≤ (key : WithBot K))
    (otherNext : ∀ behind ∈ otherAfter, (key : WithBot K) < behind.1) : place = other := by
  rcases append_eq_append_iff.mp same with ⟨between, rfl, cut⟩ | ⟨between, rfl, cut⟩
  · cases between with
    | nil => exact (List.cons.inj cut).1
    | cons first rest =>
      rw [cons_append, List.cons.injEq] at cut
      exact absurd (next other (by simp [cut.2])) otherLeast.not_gt
  · cases between with
    | nil => exact (List.cons.inj cut).1.symm
    | cons first rest =>
      rw [cons_append, List.cons.injEq] at cut
      exact absurd (otherNext place (by simp [cut.2])) least.not_gt

/-- Chains of links in both directions agree. -/
theorem next_iff_prev (forward : LinkedTo none leaves.nexts)
    (backward : LinkedFrom none leaves.prevs)
    (distinct : leaves.ids.Nodup) {left right : WithBot K × LeafNode K V} (isLeft : left ∈ leaves)
    (isRight : right ∈ leaves) : left.2.next = some right.2.id ↔ right.2.prev = some left.2.id := by
  have unique : ∀ first ∈ leaves, ∀ second ∈ leaves, first.2.id = second.2.id → first = second :=
    fun first isFirst second isSecond => inj_on_of_nodup_map distinct isFirst isSecond
  constructor
  · intro linked
    obtain ⟨before, after, rfl⟩ := append_of_mem isLeft
    simp only [nexts_append, nexts_cons, linkedTo_append, LinkedTo] at forward
    rw [forward.2.1] at linked
    cases after with
    | nil => simp at linked
    | cons behind rest =>
      obtain rfl : behind = right :=
        unique behind (by simp) right isRight (by simpa using linked)
      simp only [prevs_append, prevs_cons, linkedFrom_append, LinkedFrom]
        at backward
      exact backward.2.2.1
  · intro linked
    obtain ⟨before, after, rfl⟩ := append_of_mem isRight
    simp only [prevs_append, prevs_cons, linkedFrom_append, LinkedFrom] at backward
    rw [backward.2.1] at linked
    rcases eq_nil_or_concat before with rfl | ⟨rest, last, rfl⟩
    · simp at linked
    · rw [concat_eq_append] at forward linked unique isLeft
      obtain rfl : last = left := by
        refine unique last (by simp) left isLeft ?_
        simpa [lastOf] using linked
      simp only [nexts_append, nexts_cons, nexts_nil, linkedTo_append, LinkedTo] at forward
      exact forward.1.2.1

/-- A row whose links agree in both directions is a doubly linked list of leaves. -/
theorem Stands.doublyLinked (stands : Stands tree leaves levels)
    (leftmost : tree.leftmostLeaf = leaves.ids.head?) (forward : LinkedTo none leaves.nexts)
    (backward : LinkedFrom none leaves.prevs) : DoublyLinked tree := by
  constructor
  · intro leftId left rightId right isLeft isRight
    obtain ⟨leftIn, rfl⟩ := stands.leaf_iff.mp isLeft
    obtain ⟨rightIn, rfl⟩ := stands.leaf_iff.mp isRight
    obtain ⟨leftPlace, leftMember, rfl⟩ := mem_map.mp leftIn
    obtain ⟨rightPlace, rightMember, rfl⟩ := mem_map.mp rightIn
    exact next_iff_prev forward backward (nodup_append.mp stands.distinct.nodup).1 leftMember
      rightMember
  · cases leaves with
    | nil => exact absurd rfl stands.leaves_ne_nil
    | cons first rest => exact ⟨_, _, leftmost, stands.leafNode _ (by simp), backward.1⟩

end

section

variable [LinearOrder K] {tree : BPlusTree K V} {leaves : LeafRow K V} {levels : List (Level K)}

/-- Whether an insert splits a leaf with a next leaf, read off the row. -/
theorem Sound.splitsInside_iff {before after : LeafRow K V} {low : WithBot K} {leaf : LeafNode K V}
    {key : K} (value : V) {front back : List (K × V)} {held : Option V}
    (sound : Sound tree (before ++ (low, leaf) :: after) levels) (least : low ≤ (key : WithBot K))
    (next : ∀ place ∈ after, (key : WithBot K) < place.1)
    (window : Window leaf.entries key front held back) :
    SplitsInside tree (.insert key value) ↔
      after ≠ [] ∧ tree.config.maxKeys ≤ (front ++ (key, value) :: back).length := by
  obtain ⟨_, foundLow, foundLeaf, _, cut, foundLeast, foundNext, found⟩ :=
    sound.stands.findLeaf (items_ordered sound.segmented) key
  obtain ⟨rfl, rfl⟩ := Prod.mk.inj (located_unique cut least next foundLeast foundNext)
  have stored := sound.stands.leafNode (low, leaf) (by simp)
  have linked := sound.linked
  simp only [nexts_append, nexts_cons, linkedTo_append, LinkedTo] at linked
  have hasNext : leaf.next ≠ none ↔ after ≠ [] := by
    rw [linked.2.1]
    cases after <;> simp
  have written := LeafNode.insert_window { leaf with parent := tree.parentOf leaf.id }
    window value
  constructor
  · rintro ⟨leafId, other, foundAgain, storedAgain, nextSome, full⟩
    obtain rfl : leaf.id = leafId := by
      rw [found] at foundAgain
      injection foundAgain
    rw [stored] at storedAgain
    cases storedAgain
    rw [written] at full
    exact ⟨hasNext.mp nextSome, full⟩
  · rintro ⟨nonempty, full⟩
    exact ⟨leaf.id, _, found, stored, hasNext.mpr nonempty, by rw [written]; exact full⟩

/-- A sound tree whose `prev` links form a chain. -/
def Linked (config : BPlusTreeConfig) (tree : BPlusTree K V) : Prop :=
  tree.config = config ∧ ∃ leaves levels, Sound tree leaves levels ∧ LinkedFrom none leaves.prevs

section

variable {config : BPlusTreeConfig} (splits : 2 ≤ config.maxKeys) (linked : Linked config tree)
  (input : TreeCall K V)

include splits linked input

/-- A call that splits no leaf but the last keeps the `prev` links. -/
theorem Linked.call (outside : ¬ SplitsInside tree input) : Linked config (tree.call input).2 := by
  obtain ⟨rfl, leaves, levels, sound, backward⟩ := linked
  obtain ⟨answer, new, reshaped, -, nextSound, performed, config⟩ := sound.call splits input
  refine ⟨config, new, reshaped, nextSound, ?_⟩
  cases input with
  | insert key value =>
    obtain ⟨-, inserted⟩ := performed
    cases inserted with
    | put => simpa using backward
    | @split before after low leaf front back left right held separator pivot newId least next
        window full cut half fresh =>
        have last : after = [] := by
          by_contra nonempty
          exact outside ((sound.splitsInside_iff _ least next window).mpr ⟨nonempty, full⟩)
        subst last
        simp only [prevs_append, prevs_cons, prevs_nil, linkedFrom_append, LinkedFrom] at backward ⊢
        exact ⟨backward.1, backward.2.1, trivial, trivial⟩
  | delete key =>
    obtain ⟨present, -, deleted⟩ := performed
    exact deleted.linkedBack backward
  | get key => exact performed.2 ▸ backward
  | clear => exact performed.2 ▸ ⟨rfl, trivial⟩

/-- A split of a leaf with a next leaf leaves the `prev` link of that one behind. -/
theorem Linked.not_splitsInside (doubly : DoublyLinked (tree.call input).2) :
    ¬ SplitsInside tree input := by
  obtain ⟨rfl, leaves, levels, sound, backward⟩ := linked
  obtain ⟨answer, new, reshaped, -, nextSound, performed, -⟩ := sound.call splits input
  intro inside
  cases input with
  | insert key value =>
    obtain ⟨-, inserted⟩ := performed
    cases inserted with
    | put least next window room =>
      exact room.not_ge ((sound.splitsInside_iff _ least next window).mp inside).2
    | @split before after low leaf front back left right held separator pivot newId least next
        window full cut half fresh =>
        obtain ⟨nonempty, -⟩ := (sound.splitsInside_iff value least next window).mp inside
        obtain ⟨behind, rest, rfl⟩ := exists_cons_of_ne_nil nonempty
        have forward := sound.linked
        simp only [nexts_append, nexts_cons, prevs_append, prevs_cons, linkedTo_append,
          linkedFrom_append, LinkedTo, LinkedFrom, firstOf_cons] at forward backward
        -- The new leaf points at the leaf behind it, which still points at the old one.
        have newStored := nextSound.stands.leafNode ((separator : WithBot K),
          { id := newId, entries := (separator, pivot) :: right, next := leaf.next,
            prev := some leaf.id, parent := none }) (by simp)
        have behindStored := nextSound.stands.leafNode behind (by simp)
        have agreed := (doubly.1 newId _ behind.2.id _ newStored behindStored).mp forward.2.1
        have stale := backward.2.2.1.symm.trans agreed
        exact fresh (by simp [Option.some.inj stale])
  | delete | get | clear => exact inside

end

end

theorem linked_new [LinearOrder K] (config : BPlusTreeConfig) :
    Linked config (BPlusTree.new config : BPlusTree K V) :=
  ⟨rfl, _, _, sound_new config, rfl, trivial⟩

/-- A run that splits no leaf but the last keeps the `prev` links. -/
theorem linked_final [LinearOrder K] {config : BPlusTreeConfig} (splits : 2 ≤ config.maxKeys)
    {calls : List (TreeCall K V)}
    (outside : BPlusTree.call.Along (fun tree input => ¬ SplitsInside tree input)
      (BPlusTree.new config) calls) :
    Linked config (BPlusTree.call.final (BPlusTree.new config) calls) :=
  Machine.invariant_along (Linked config) (fun _ input linked => linked.call splits input)
    (linked_new config)
    outside

/-- The leaves are doubly linked in every state of a run exactly when no insert of it
splits a leaf that has a next leaf. -/
theorem doublyLinked_iff_no_inside_split {config : BPlusTreeConfig} (splits : 2 ≤ config.maxKeys)
    (calls : List (TreeCall Bytes Bytes)) :
    (∀ earlier, earlier <+: calls →
      DoublyLinked (BPlusTree.call.final (BPlusTree.new config) earlier)) ↔
      BPlusTree.call.Along (fun tree input => ¬ SplitsInside tree input) (BPlusTree.new config)
        calls := by
  refine (Machine.along_iff_prefixes (Linked config) _ ?_ ?_ ?_ ?_).symm
  · rintro tree ⟨-, leaves, levels, sound, backward⟩
    exact sound.stands.doublyLinked sound.leftmost sound.linked backward
  · exact fun tree input linked outside => linked.call splits input outside
  · exact fun tree input linked doubly => linked.not_splitsInside splits input doubly
  · exact linked_new config

theorem doublyLinked_iff_no_inside_split_order_four :
    (∀ earlier, earlier <+: [.insert [1] [], .insert [2] [], .insert [3] [], .insert [4] []] →
      DoublyLinked (BPlusTree.call.final
        (BPlusTree.new { maxKeys := 4, minKeys := 2 } : BPlusTree Bytes Bytes) earlier)) ↔
      BPlusTree.call.Along (fun tree input => ¬ SplitsInside tree input)
        (BPlusTree.new { maxKeys := 4, minKeys := 2 } : BPlusTree Bytes Bytes)
        [.insert [1] [], .insert [2] [], .insert [3] [], .insert [4] []] :=
  doublyLinked_iff_no_inside_split (by decide) _

/-- The first leaf is split while another one follows it, whose `prev` link goes stale. -/
theorem split_leaves_stale_prev : ¬ DoublyLinked (BPlusTree.call.final
    (BPlusTree.new { maxKeys := 4, minKeys := 2 } : BPlusTree Bytes Bytes)
    [.insert [10] [], .insert [20] [], .insert [30] [], .insert [40] [], .insert [5] [],
      .insert [7] []]) := by
  intro doubly
  have broken := (doubly.1 ⟨3⟩
    { id := ⟨3⟩, entries := [([10], []), ([20], [])], next := some ⟨1⟩, prev := some ⟨0⟩,
      parent := some ⟨2⟩ } ⟨1⟩
    { id := ⟨1⟩, entries := [([30], []), ([40], [])], next := none, prev := some ⟨0⟩,
      parent := some ⟨2⟩ } rfl rfl).mp rfl
  exact absurd broken (by decide)

end Nanograph.BTree
