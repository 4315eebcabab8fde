import Mathlib

/-!
# Slices

The part of a list between two positions, and how it is found in a list that is
written as a concatenation.
-/

namespace Nanograph.Foundation

open List

variable {α : Type}

/-- The items from one position up to another. -/
def slice (items : List α) (start stop : Nat) : List α := (items.take stop).drop start

theorem length_slice_le (items : List α) (start stop : Nat) :
    (slice items start stop).length ≤ stop - start := by
  rw [slice, length_drop, length_take]
  omega

theorem slice_skip {front rest : List α} {start stop : Nat} (behind : front.length ≤ start) :
    slice (front ++ rest) start stop = slice rest (start - front.length) (stop - front.length) := by
  rw [slice, take_append, drop_append, drop_eq_nil_of_le, nil_append, length_take]
  · by_cases short : stop ≤ front.length
    · simp [slice, Nat.sub_eq_zero_of_le short]
    · rw [min_eq_right (by omega)]
      rfl
  · exact (length_take_le' _ _).trans behind

/-- The slice up to the end of the front part. -/
theorem slice_front {front rest : List α} {stop : Nat} (length : front.length = stop) :
    slice (front ++ rest) 0 stop = front := by
  rw [slice, drop_zero, take_left' length]

/-- The slice of a whole list. -/
theorem slice_all {items : List α} {stop : Nat} (length : items.length = stop) :
    slice items 0 stop = items := by
  rw [slice, drop_zero, take_of_length_le length.le]

/-- Lists with the same front have the same slices in it. -/
theorem slice_of_front {first second : List α} {start stop last : Nat}
    (same : slice first 0 last = slice second 0 last) (inside : stop ≤ last) :
    slice first start stop = slice second start stop := by
  rw [slice, slice, drop_zero, drop_zero] at same
  rw [slice, slice, ← min_eq_left inside, ← take_take, same, take_take]

end Nanograph.Foundation
