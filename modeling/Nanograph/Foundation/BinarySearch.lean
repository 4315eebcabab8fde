import Mathlib

/-!
# Binary search in a slice

`binarySearchBy` is the halving loop of `slice::binary_search_by`: it narrows a
window of `size` elements starting at `base` until one element is left and then
compares that element. `binarySearchBy_found` and `binarySearchBy_missing` give
its result on a list that the comparison splits into a smaller part, at most one
equal element, and a greater part.
-/

namespace Nanograph.Foundation

open List

variable {α : Type}

/-- One window of the halving loop. The midpoint is kept unless it compares
greater, and the loop ends when a single element is left. -/
def binarySearchLoop (compareTo : α → Ordering) (slice : List α) : Nat → Nat → Nat → Nat
  | 0, base, _ => base
  | fuel + 1, base, size =>
    if size ≤ 1 then base
    else
      let half := size / 2
      let mid := base + half
      let base := if (slice[mid]?).any (fun item => compareTo item == .gt) then base else mid
      binarySearchLoop compareTo slice fuel base (size - half)

/-- `slice::binary_search_by`: `ok` holds the index of a matching element and
`error` the index at which one can be inserted. -/
def binarySearchBy (compareTo : α → Ordering) (slice : List α) : Except Nat Nat :=
  let base := binarySearchLoop compareTo slice slice.length 0 slice.length
  match slice[base]? with
  | none => .error 0
  | some item =>
    match compareTo item with
    | .eq => .ok base
    | .lt => .error (base + 1)
    | .gt => .error base

variable {compareTo : α → Ordering}

/-- The loop stops at the last element that does not compare greater, or at the
front when every element does; `count` is the number of elements that do not. -/
private theorem binarySearchLoop_eq {slice : List α} {count : Nat}
    (below : ∀ index item, slice[index]? = some item → index < count → compareTo item ≠ .gt)
    (above : ∀ index item, slice[index]? = some item → count ≤ index → compareTo item = .gt) :
    ∀ fuel base size, size ≤ fuel → 0 < size → base ≤ count - 1 → count ≤ base + size →
      base + size ≤ slice.length →
      binarySearchLoop compareTo slice fuel base size = count - 1 := by
  intro fuel
  induction fuel with
  | zero =>
    omega
  | succ fuel ih =>
    intro base size enough nonempty lower upper inside
    unfold binarySearchLoop
    by_cases single : size ≤ 1
    · rw [if_pos single]
      omega
    · rw [if_neg single]
      have midInside : base + size / 2 < slice.length := by omega
      have midItem : slice[base + size / 2]? = some slice[base + size / 2] :=
        getElem?_eq_getElem midInside
      by_cases reached : base + size / 2 < count
      · -- The midpoint does not compare greater, so the window moves up to it.
        have kept := below _ _ midItem reached
        simp only [midItem, Option.any_some, beq_iff_eq, if_neg kept]
        exact ih _ _ (by omega) (by omega) (by omega) (by omega) (by omega)
      · have dropped := above _ _ midItem (by omega)
        simp only [midItem, Option.any_some, beq_iff_eq, if_pos dropped]
        exact ih _ _ (by omega) (by omega) lower (by omega) (by omega)

/-- A matching element between a smaller and a greater part is found at its index. -/
theorem binarySearchBy_found {before after : List α} {item : α}
    (smaller : ∀ x ∈ before, compareTo x = .lt) (equal : compareTo item = .eq)
    (greater : ∀ x ∈ after, compareTo x = .gt) :
    binarySearchBy compareTo (before ++ item :: after) = .ok before.length := by
  have loop : binarySearchLoop compareTo (before ++ item :: after)
      (before ++ item :: after).length 0 (before ++ item :: after).length =
        before.length + 1 - 1 := by
    apply binarySearchLoop_eq
    · intro index x found bounded
      rcases Nat.lt_or_eq_of_le (Nat.le_of_lt_succ bounded) with strict | rfl
      · rw [getElem?_append_left strict] at found
        simp [smaller x (mem_of_getElem? found)]
      · simp at found
        simp [← found, equal]
    · intro index x found passed
      rw [getElem?_append_right (by omega)] at found
      have shifted : index - before.length = (index - before.length - 1) + 1 := by omega
      rw [shifted, getElem?_cons_succ] at found
      exact greater x (mem_of_getElem? found)
    · exact Nat.le_refl _
    · simp
    · simp
    · simp
    · simp
  unfold binarySearchBy
  simp only [loop]
  simp [equal]

/-- Without a matching element the search reports the length of the smaller part. -/
theorem binarySearchBy_missing (before : List α) {after : List α}
    (smaller : ∀ x ∈ before, compareTo x = .lt) (greater : ∀ x ∈ after, compareTo x = .gt) :
    binarySearchBy compareTo (before ++ after) = .error before.length := by
  by_cases empty : (before ++ after).length = 0
  · have nothing : before = [] ∧ after = [] := by
      simpa using eq_nil_of_length_eq_zero empty
    rw [nothing.1, nothing.2]
    rfl
  have loop : binarySearchLoop compareTo (before ++ after)
      (before ++ after).length 0 (before ++ after).length = before.length - 1 := by
    apply binarySearchLoop_eq
    · intro index x found bounded
      rw [getElem?_append_left bounded] at found
      simp [smaller x (mem_of_getElem? found)]
    · intro index x found passed
      rw [getElem?_append_right passed] at found
      exact greater x (mem_of_getElem? found)
    · exact Nat.le_refl _
    · omega
    · omega
    · simp
    · simp
  unfold binarySearchBy
  simp only [loop]
  -- The element the loop stops at is the last smaller one, or the first greater one.
  rcases eq_nil_or_concat before with rfl | ⟨front, item, rfl⟩
  · cases after with
    | nil => simp at empty
    | cons first rest => simp [greater first (by simp)]
  · simp [smaller item (by simp)]

section

variable {compareTo : α → Ordering} {slice : List α}
  (ordered : slice.Pairwise fun first second => compareTo first = .lt ∨ compareTo second = .gt)

include ordered

/-- A list in order has a smaller part, at most one matching element, and a greater part. -/
private theorem split_of_ordered :
    ∃ before middle after, slice = before ++ (middle ++ after) ∧
      (∀ item ∈ before, compareTo item = .lt) ∧ (∀ item ∈ after, compareTo item = .gt) ∧
      (middle = [] ∨ ∃ item, middle = [item] ∧ compareTo item = .eq) := by
  induction slice with
  | nil => exact ⟨[], [], [], rfl, by simp, by simp, .inl rfl⟩
  | cons first rest ih =>
    obtain ⟨front, restOrdered⟩ := pairwise_cons.mp ordered
    cases compared : compareTo first with
    | lt =>
      obtain ⟨before, middle, after, rfl, smaller, greater, single⟩ :=
        ih restOrdered
      exact ⟨first :: before, middle, after, rfl,
        forall_mem_cons.mpr ⟨compared, smaller⟩, greater, single⟩
    | eq =>
      refine ⟨[], [first], rest, rfl, by simp, fun item mem => ?_, .inr ⟨first, rfl, compared⟩⟩
      simpa [compared] using front item mem
    | gt =>
      refine ⟨[], [], first :: rest, rfl, by simp, fun item mem => ?_, .inl rfl⟩
      rcases mem_cons.mp mem with rfl | inRest
      · exact compared
      · simpa [compared] using front item inRest

/-- On a list in order the search finds the matching element, or there is none. -/
theorem binarySearchBy_ordered :
    (∃ before item after, slice = before ++ item :: after ∧ compareTo item = .eq ∧
        binarySearchBy compareTo slice = .ok before.length) ∨
      ((∀ item ∈ slice, compareTo item ≠ .eq) ∧
        ∃ index, binarySearchBy compareTo slice = .error index) := by
  obtain ⟨before, middle, after, rfl, smaller, greater, rfl | ⟨item, rfl, equal⟩⟩ :=
    split_of_ordered ordered
  · refine .inr ⟨fun item mem => ?_, _, binarySearchBy_missing before smaller greater⟩
    rcases mem_append.mp mem with inBefore | inAfter
    · simp [smaller item inBefore]
    · simp [greater item inAfter]
  · exact .inl ⟨before, item, after, rfl, equal, binarySearchBy_found smaller equal greater⟩

end

end Nanograph.Foundation
