import Nanograph.Art.Arrays

/-!
# Inner nodes as maps from bytes to children

When the arrays of an inner node are sound, the node is a map from key bytes to children, and
growing and shrinking keep that map. The keys of a `Node4` have to be sorted as well, since the
`Node16` it grows to is searched by halving; the tree does not see to that.
-/

namespace Nanograph.Art

open List Foundation

namespace Branch

variable {α : Type}

/-- The arrays are sound, and the keys of the small nodes are sorted. -/
def Sound : Branch α → Prop
  | .node4 keys children => keys.length ≤ 4 ∧ Row keys children ∧ keys.Pairwise (· < ·)
  | .node16 keys children => keys.length ≤ 16 ∧ Row keys children ∧ keys.Pairwise (· < ·)
  | .node48 numChildren childIndex children => Indexed numChildren childIndex children
  | .node256 numChildren children => Direct numChildren children

variable {keys : List UInt8} {children : List (Option α)}

theorem findChild_node4 (keys : List UInt8) (children : List (Option α)) (byte : UInt8) :
    (node4 keys children).findChild byte = (parallelFind keys children byte).join := by
  rw [findChild, parallelFind_findIdx]

theorem findChild_node16 (sorted : keys.Pairwise (· < ·)) (children : List (Option α))
    (byte : UInt8) :
    (node16 keys children).findChild byte = (parallelFind keys children byte).join := by
  rw [findChild, searchByte_eq sorted, parallelFind_findIdx]

theorem findChild_node48 (numChildren : Nat) (childIndex : List UInt8)
    (children : List (Option α)) (byte : UInt8) :
    (node48 numChildren childIndex children).findChild byte =
      ((slotOf childIndex byte).bind (children[·]?)).join := rfl

variable {numChildren : Nat} {childIndex : List UInt8}

theorem shrinkNode16ToNode4_eq (row : Row keys children) :
    shrinkNode16ToNode4 keys children = node4 keys children := by
  have all : (keys.zip children).filter (·.2.isSome) = keys.zip children :=
    filter_eq_self.mpr fun entry mem => row.filled _ (of_mem_zip mem).2
  rw [shrinkNode16ToNode4, all, packed_of_length (by simp [row.lengths]),
    unzip_zip row.lengths.symm]

theorem shrinkNode48ToNode16_eq (indexed : Indexed numChildren childIndex children) :
    shrinkNode48ToNode16 numChildren childIndex children =
      node16 (allBytes.filter fun byte => (slotOf childIndex byte).isSome)
        ((allBytes.filter fun byte => (slotOf childIndex byte).isSome).map
          ((node48 numChildren childIndex children).findChild)) := by
  have entries : (allBytes.filterMap fun byte =>
        (slotOf childIndex byte).map fun idx => (byte, (children[idx]?).join)) =
      (allBytes.filter fun byte => (slotOf childIndex byte).isSome).map
        fun byte => (byte, (node48 numChildren childIndex children).findChild byte) := by
    induction allBytes with
    | nil => rfl
    | cons byte bytes ih =>
      cases found : slotOf childIndex byte <;> simp [found, ih, findChild]
  have long : (allBytes.filter fun byte => (slotOf childIndex byte).isSome).length = numChildren := by
    rw [← countP_eq_length_filter, indexed.countP_slotOf]
  rw [shrinkNode48ToNode16, entries, packed_of_length (by rw [length_map, long]),
    unzip_eq_map, map_map, map_map]
  exact congrArg₂ _ (map_id _) rfl

theorem find_shrinkNode48ToNode16 (indexed : Indexed numChildren childIndex children)
    (byte : UInt8) : (shrinkNode48ToNode16 numChildren childIndex children).findChild byte =
      (node48 numChildren childIndex children).findChild byte := by
  have same : ∀ byte, (slotOf childIndex byte).isSome =
      ((node48 numChildren childIndex children).findChild byte).isSome := by
    intro byte
    rw [Bool.eq_iff_iff, Option.isSome_iff_ne_none, Option.isSome_iff_ne_none]
    exact not_congr (indexed.find_eq_none_iff byte).symm
  rw [shrinkNode48ToNode16_eq indexed, findChild_node16 (allBytes_sorted.filter _),
    find_present same]

theorem find_shrinkNode256ToNode48 (direct : Direct numChildren children)
    (few : numChildren ≤ 48) (byte : UInt8) :
    (shrinkNode256ToNode48 numChildren children).findChild byte =
      (node256 numChildren children).findChild byte := by
  have row := row_present fun byte : UInt8 => (rfl : ((children[byte.toNat]?).join).isSome = _)
  have short : (allBytes.filter fun byte => ((children[byte.toNat]?).join).isSome).length ≤ 48 := by
    rw [← countP_eq_length_filter, direct.countP_find]
    exact few
  rw [shrinkNode256ToNode48, findChild_node48, row.find_indexed short, find_present fun _ => rfl]
  rfl

end Branch

namespace InnerNode

open Branch

variable {V α : Type}

/-- A node of another size with the same header and the same children. -/
structure Same (target : NodeKind) (node after : InnerNode V α) : Prop where
  kind : after.branch.kind = target
  partialKey : after.partialKey = node.partialKey
  value : after.value = node.value
  find : ∀ byte, after.branch.findChild byte = node.branch.findChild byte

/-- Every conversion that the tree calls on a sound node with sorted keys gives the size it is
meant to and keeps the header and the child of each byte. -/
theorem same_of_converted {node after : InnerNode V α} {target : NodeKind}
    (sound : node.branch.Sound)
    (converted : node.grow = some (target, after) ∨ node.shrink = some (target, after)) :
    Same target node after := by
  obtain ⟨partialKey, value, branch⟩ := node
  cases branch with
  | node4 keys children =>
    have sorted := sound.2.2
    have grown := converted.resolve_right nofun
    simp only [grow, Option.ite_none_left_eq_some, Option.some.injEq, Prod.mk.injEq] at grown
    obtain ⟨-, rfl, rfl⟩ := grown
    refine ⟨rfl, rfl, rfl, fun byte => ?_⟩
    rw [growNode4ToNode16, findChild_node16 sorted, findChild_node4]
  | node16 keys children =>
    obtain ⟨short, row, sorted⟩ := sound
    rcases converted with grown | shrunk
    · simp only [grow, Option.ite_none_left_eq_some, Option.some.injEq, Prod.mk.injEq] at grown
      obtain ⟨-, rfl, rfl⟩ := grown
      refine ⟨rfl, rfl, rfl, fun byte => ?_⟩
      rw [growNode16ToNode48, findChild_node48, row.find_indexed (by omega), findChild_node16 sorted]
    · simp only [shrink, Option.ite_none_right_eq_some, Option.some.injEq, Prod.mk.injEq] at shrunk
      obtain ⟨-, rfl, rfl⟩ := shrunk
      refine ⟨rfl, rfl, rfl, fun byte => ?_⟩
      rw [shrinkNode16ToNode4_eq row, findChild_node4, findChild_node16 sorted]
  | node48 numChildren childIndex children =>
    rcases converted with grown | shrunk
    · simp only [grow, Option.ite_none_left_eq_some, Option.some.injEq, Prod.mk.injEq] at grown
      obtain ⟨-, rfl, rfl⟩ := grown
      exact ⟨rfl, rfl, rfl, fun byte => find_map_allBytes _ byte⟩
    · simp only [shrink, Option.ite_none_right_eq_some, Option.some.injEq, Prod.mk.injEq] at shrunk
      obtain ⟨-, rfl, rfl⟩ := shrunk
      exact ⟨rfl, rfl, rfl, find_shrinkNode48ToNode16 sound⟩
  | node256 numChildren children =>
    have shrunk := converted.resolve_left nofun
    simp only [shrink, Option.ite_none_right_eq_some, Option.some.injEq, Prod.mk.injEq] at shrunk
    obtain ⟨few, rfl, rfl⟩ := shrunk
    exact ⟨rfl, rfl, rfl, find_shrinkNode256ToNode48 sound few⟩

theorem same_of_shrunk_pair :
    Same .node4 (⟨[9], some 5, .node16 [1, 2] [some 7, some 8]⟩ : InnerNode Nat Nat)
      ⟨[9], some 5, .node4 [1, 2] [some 7, some 8]⟩ :=
  same_of_converted ⟨by decide, ⟨rfl, by decide, by decide⟩, by decide⟩ (.inr rfl)

end InnerNode

end Nanograph.Art
