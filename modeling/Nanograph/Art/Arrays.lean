import Nanograph.Art.Branch

/-!
# The arrays of inner nodes

What has to hold of the key, index and child arrays of an inner node so that a byte leads to
its child: `Row` for the parallel arrays of a `Node4` and a `Node16`, `Indexed` for the index
array and the slots of a `Node48`, `Direct` for the slots of a `Node256`.
-/

namespace Nanograph.Art

open List Option Foundation

theorem mem_allBytes (byte : UInt8) : byte ∈ allBytes :=
  mem_map.mpr ⟨byte.toNat, mem_range.mpr byte.toNat_lt, UInt8.ofNat_toNat⟩

theorem allBytes_sorted : allBytes.Pairwise (· < ·) := by
  refine pairwise_map.mpr (pairwise_lt_range.imp_of_mem ?_)
  intro first second isFirst isSecond less
  have firstLt := mem_range.mp isFirst
  have secondLt := mem_range.mp isSecond
  rw [UInt8.lt_iff_toNat_lt, UInt8.toNat_ofNat_of_lt' firstLt, UInt8.toNat_ofNat_of_lt' secondLt]
  exact less

section

variable {childIndex keys : List UInt8} {byte other : UInt8} {idx : Nat}

theorem slotOf_emptyIndex (byte : UInt8) : slotOf emptyIndex byte = none := by
  have slot : emptyIndex.getD byte.toNat 255 = 255 := by
    rw [emptyIndex, getD_eq_getElem?_getD, getElem?_replicate, if_pos byte.toNat_lt]
    rfl
  rw [slotOf, slot]
  exact if_neg fun different => different rfl

theorem slotOf_set (long : childIndex.length = 256) (value other : UInt8) :
    slotOf (childIndex.set byte.toNat value) other =
      if other = byte then (if value ≠ 255 then some value.toNat else none)
      else slotOf childIndex other := by
  have inside : byte.toNat < childIndex.length := long ▸ byte.toNat_lt
  simp only [slotOf, getD_eq_getElem?_getD, getElem?_set, inside, if_true]
  by_cases same : other = byte
  · simp [same]
  · have apart : byte.toNat ≠ other.toNat := fun equal => same (UInt8.toNat_inj.mp equal.symm)
    simp [same, apart]

theorem toNat_slot (small : idx < 255) : (UInt8.ofNat idx).toNat = idx :=
  UInt8.toNat_ofNat_of_lt' (small.trans (by decide))

theorem slot_ne_none (small : idx < 255) : UInt8.ofNat idx ≠ 255 := by
  intro same
  have number := toNat_slot small
  rw [same] at number
  exact small.ne number.symm

theorem getD_of_slotOf_none (missing : slotOf childIndex byte = none) :
    childIndex.getD byte.toNat 255 = 255 := by
  simp only [slotOf] at missing
  split at missing
  next => cases missing
  next same => exact not_not.mp same

theorem getD_of_slotOf_some (found : slotOf childIndex byte = some idx) :
    childIndex.getD byte.toNat 255 ≠ 255 := by
  simp only [slotOf] at found
  split at found
  next different => exact different
  next => cases found

theorem isSome_slotOf (childIndex : List UInt8) (byte : UInt8) :
    (slotOf childIndex byte).isSome = decide (childIndex.getD byte.toNat 255 ≠ 255) := by
  cases found : slotOf childIndex byte with
  | none => simp only [getD_of_slotOf_none found]; rfl
  | some idx => exact (decide_eq_true (getD_of_slotOf_some found)).symm

theorem indexOfKeys_concat (keys : List UInt8) (byte : UInt8) :
    indexOfKeys (keys ++ [byte]) = (indexOfKeys keys).set byte.toNat (UInt8.ofNat keys.length) := by
  rw [indexOfKeys, zipIdx_append, foldl_append, indexOfKeys]
  simp

theorem length_indexOfKeys (keys : List UInt8) : (indexOfKeys keys).length = 256 := by
  induction keys using List.reverseRecOn with
  | nil => exact length_replicate
  | append_singleton keys byte ih =>
    rw [indexOfKeys_concat, length_set, ih]

/-- In the index array of keys every key has its position and no other byte has one. -/
theorem slotOf_indexOfKeys (nodup : keys.Nodup) (short : keys.length ≤ 255) (byte : UInt8) :
    slotOf (indexOfKeys keys) byte = keys.findIdx? (· = byte) := by
  induction keys using List.reverseRecOn with
  | nil => exact slotOf_emptyIndex byte
  | append_singleton keys last ih =>
    rw [length_append, length_singleton] at short
    obtain ⟨earlier, -, fresh⟩ := nodup_append.mp nodup
    rw [indexOfKeys_concat, slotOf_set (length_indexOfKeys keys),
      if_pos (slot_ne_none (by omega)), toNat_slot (by omega), ih earlier (by omega), findIdx?_append]
    by_cases same : byte = last
    · subst same
      have missing : keys.findIdx? (· = byte) = none := by
        refine findIdx?_eq_none_iff.mpr fun key mem => decide_eq_false ?_
        exact fresh key mem byte (mem_singleton_self _)
      simp [missing]
    · simp [same, Ne.symm same]

/-- An array of 256 entries lists what stands at every byte. -/
theorem map_allBytes {β : Type} {entries : List β} (default : β) (long : entries.length = 256) :
    allBytes.map (fun byte => entries.getD byte.toNat default) = entries := by
  apply ext_getElem
  · simp [allBytes, long]
  · intro index inside bound
    have small : index < 256 := long ▸ bound
    simp [allBytes, Nat.mod_eq_of_lt small, getElem?_eq_getElem bound]

/-- The halving loop over sorted keys ends at the position of a byte. -/
theorem searchByte_of_mem (sorted : keys.Pairwise (· < ·)) (isByte : keys[idx]? = some byte)
    {fuel left right : Nat} (enough : right - left < fuel) (after : left ≤ idx) (before : idx < right)
    (inside : right ≤ keys.length) : searchByte keys byte fuel left right = some idx := by
  induction fuel generalizing left right with
  | zero => omega
  | succ fuel ih =>
    have midInside : (left + right) / 2 < keys.length := by omega
    obtain ⟨idxInside, isIdx⟩ := List.getElem?_eq_some_iff.mp isByte
    rw [searchByte, if_pos (after.trans_lt before)]
    simp only [getD_eq_getElem _ _ midInside]
    rcases lt_trichotomy ((left + right) / 2) idx with less | equal | greater
    · have below := pairwise_iff_getElem.mp sorted _ _ midInside idxInside less
      rw [isIdx] at below
      rw [if_pos below]
      exact ih (by omega) less before inside
    · subst equal
      rw [isIdx, if_neg (lt_irrefl _), if_neg (lt_irrefl _)]
    · have above := pairwise_iff_getElem.mp sorted _ _ idxInside midInside greater
      rw [isIdx] at above
      rw [if_neg above.not_gt, if_pos above]
      exact ih (by omega) after greater (by omega)

theorem mem_of_searchByte {fuel left right : Nat} (inside : right ≤ keys.length)
    (found : searchByte keys byte fuel left right = some idx) : keys[idx]? = some byte := by
  induction fuel generalizing left right with
  | zero => cases found
  | succ fuel ih =>
    rw [searchByte] at found
    split at found
    next unfinished =>
      have midInside : (left + right) / 2 < keys.length := by omega
      simp only [getD_eq_getElem _ _ midInside] at found
      split at found
      · exact ih inside found
      · split at found
        · exact ih (by omega) found
        · obtain rfl := Option.some.inj found
          rw [getElem?_eq_getElem midInside]
          exact congrArg some (le_antisymm (not_lt.mp ‹_›) (not_lt.mp ‹_›))
    next => cases found

/-- The halving loop over sorted keys finds the position of a byte. -/
theorem searchByte_eq (sorted : keys.Pairwise (· < ·)) (byte : UInt8) :
    searchByte keys byte (keys.length + 1) 0 keys.length = keys.findIdx? (· = byte) := by
  cases found : keys.findIdx? (· = byte) with
  | none =>
    refine eq_none_iff_forall_ne_some.mpr fun idx searched => ?_
    have isByte := mem_of_getElem? (mem_of_searchByte le_rfl searched)
    simpa using findIdx?_eq_none_iff.mp found byte isByte
  | some idx =>
    obtain ⟨inside, isByte, -⟩ := findIdx?_eq_some_iff_getElem.mp found
    refine searchByte_of_mem sorted ?_ (by omega) (Nat.zero_le _) inside le_rfl
    rw [getElem?_eq_getElem inside, of_decide_eq_true isByte]

end

variable {α : Type}

/-- The arrays of a `Node4` or a `Node16`: every key has a child in its place. -/
structure Row (keys : List UInt8) (children : List (Option α)) : Prop where
  lengths : children.length = keys.length
  nodup : keys.Nodup
  filled : ∀ slot ∈ children, slot.isSome

/-- The arrays of a `Node48`: as many children as recorded, each in a slot of its own. -/
structure Indexed (numChildren : Nat) (childIndex : List UInt8) (children : List (Option α)) :
    Prop where
  bytes : childIndex.length = 256
  slots : children.length = 48
  used : childIndex.countP (· ≠ 255) = numChildren
  occupied : children.countP Option.isSome = numChildren
  filled : ∀ {byte idx}, slotOf childIndex byte = some idx → ∃ child, children[idx]? = some (some child)
  distinct : ∀ {byte other idx}, slotOf childIndex byte = some idx →
    slotOf childIndex other = some idx → byte = other
  covered : ∀ {idx child}, children[idx]? = some (some child) → ∃ byte, slotOf childIndex byte = some idx

/-- The array of a `Node256`. -/
structure Direct (numChildren : Nat) (children : List (Option α)) : Prop where
  slots : children.length = 256
  occupied : children.countP Option.isSome = numChildren

section

variable {keys : List UInt8} {children : List (Option α)} {byte other : UInt8} {child : α}
  {index : Nat}

theorem Row.map (nodup : keys.Nodup) {child : UInt8 → Option α}
    (filled : ∀ byte ∈ keys, (child byte).isSome) : Row keys (keys.map child) where
  lengths := length_map _
  nodup := nodup
  filled := by
    intro slot mem
    obtain ⟨byte, isKey, rfl⟩ := mem_map.mp mem
    exact filled byte isKey

/-- A row of at most 48 children as the arrays of a `Node48`. -/
theorem Row.find_indexed (row : Row keys children) (short : keys.length ≤ 48) (byte : UInt8) :
    (slotOf (indexOfKeys keys) byte).bind
        ((children ++ List.replicate (48 - keys.length) none)[·]?) =
      parallelFind keys children byte := by
  rw [slotOf_indexOfKeys row.nodup (by omega), ← parallelFind_findIdx]
  cases found : keys.findIdx? (· = byte) with
  | none => rfl
  | some idx =>
    obtain ⟨inside, -⟩ := findIdx?_eq_some_iff_getElem.mp found
    exact getElem?_append_left (row.lengths ▸ inside)

variable {numChildren idx : Nat} {childIndex : List UInt8}

theorem Indexed.find_eq_none_iff (indexed : Indexed numChildren childIndex children)
    (byte : UInt8) :
    ((slotOf childIndex byte).bind (children[·]?)).join = none ↔ slotOf childIndex byte = none := by
  cases found : slotOf childIndex byte with
  | none => simp
  | some idx =>
    obtain ⟨child, isChild⟩ := indexed.filled found
    simp [isChild]

/-- As many bytes have a slot as there are children. -/
theorem Indexed.countP_slotOf (indexed : Indexed numChildren childIndex children) :
    allBytes.countP (fun byte => (slotOf childIndex byte).isSome) = numChildren := by
  rw [← indexed.used]
  conv => rhs; rw [← map_allBytes 255 indexed.bytes, countP_map]
  exact congrArg (List.countP · allBytes) (funext fun byte => isSome_slotOf childIndex byte)

theorem find_map_allBytes (child : UInt8 → Option α) (byte : UInt8) :
    ((allBytes.map child)[byte.toNat]?).join = child byte := by
  have small := byte.toNat_lt
  simp [allBytes, small]

theorem Direct.inside (direct : Direct numChildren children) (byte : UInt8) :
    byte.toNat < children.length := direct.slots ▸ byte.toNat_lt

/-- As many bytes have a child as there are children. -/
theorem Direct.countP_find (direct : Direct numChildren children) :
    allBytes.countP (fun byte => ((children[byte.toNat]?).join).isSome) = numChildren := by
  rw [← direct.occupied]
  conv => rhs; rw [← map_allBytes none direct.slots, countP_map]
  refine congrArg (List.countP · allBytes) (funext fun byte => ?_)
  simp [direct.inside byte]

end

/-- A row of the bytes that have a child. -/
theorem row_present {present : UInt8 → Bool} {child : UInt8 → Option α}
    (same : ∀ byte, present byte = (child byte).isSome) :
    Row (allBytes.filter present) ((allBytes.filter present).map child) := by
  refine Row.map (allBytes_sorted.nodup.filter _) fun byte mem => ?_
  rw [← same byte]
  exact (mem_filter.mp mem).2

theorem find_present {present : UInt8 → Bool} {child : UInt8 → Option α}
    (same : ∀ byte, present byte = (child byte).isSome) (byte : UInt8) :
    (parallelFind (allBytes.filter present) ((allBytes.filter present).map child) byte).join =
      child byte := by
  rw [parallelFind_map]
  by_cases isPresent : present byte = true
  · rw [if_pos (mem_filter.mpr ⟨mem_allBytes byte, isPresent⟩), join_some]
  · rw [if_neg fun mem => isPresent (mem_filter.mp mem).2, join_none]
    rw [same byte] at isPresent
    exact (not_isSome_iff_eq_none.mp isPresent).symm

theorem packed_of_length {numChildren : Nat} {entries : List (UInt8 × Option α)}
    (long : entries.length = numChildren) : Branch.packed numChildren entries = entries.unzip := by
  rw [Branch.packed, ← long, take_left']
  rfl

end Nanograph.Art
