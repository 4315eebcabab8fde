import Mathlib

/-!
# Parallel lists

A map kept in two lists of the same length, one of keys and one of values: the value of a
key stands where the key stands.
-/

namespace Nanograph.Foundation

variable {κ β : Type} [DecidableEq κ]

/-- The value that stands where the first occurrence of a key stands. -/
def parallelFind : List κ → List β → κ → Option β
  | first :: keys, value :: values, key =>
    if first = key then some value else parallelFind keys values key
  | _, _, _ => none

variable {keys : List κ} {values : List β} {key other : κ} {value : β} {index : Nat}

theorem parallelFind_findIdx (keys : List κ) (values : List β) (key : κ) :
    (keys.findIdx? (· = key)).bind (values[·]?) = parallelFind keys values key := by
  induction keys generalizing values with
  | nil => rfl
  | cons first keys ih =>
    cases values with
    | nil => simp [parallelFind]
    | cons value values =>
      rw [List.findIdx?_cons, parallelFind]
      by_cases hit : first = key
      · simp [hit]
      · rw [← ih values]
        simp [hit, Option.bind_map]

/-- The values of a function at the keys. -/
theorem parallelFind_map (keys : List κ) (value : κ → β) (key : κ) :
    parallelFind keys (keys.map value) key = if key ∈ keys then some (value key) else none := by
  induction keys with
  | nil => rfl
  | cons first keys ih =>
    rw [List.map_cons, parallelFind, ih]
    by_cases hit : first = key
    · simp [hit]
    · simp [hit, Ne.symm hit]

end Nanograph.Foundation
