import Mathlib

/-!
# Chains of links

A list of cells that each carry one link. In a forward chain every cell links to
the one behind it, in a backward chain to the one before it. The chain may go on
outside the list, so both take the identifier found there.
-/

namespace Nanograph.Foundation

variable {ι : Type}

/-- The identifier of the first cell, or what lies behind the list. -/
def firstOf (cells : List (ι × Option ι)) (behind : Option ι) : Option ι :=
  (cells.head?.map (·.1)).or behind

/-- The identifier of the last cell, or what lies before the list. -/
def lastOf (cells : List (ι × Option ι)) (before : Option ι) : Option ι :=
  (cells.getLast?.map (·.1)).or before

/-- Every cell links to the next one, the last one to `behind`. -/
def LinkedTo (behind : Option ι) : List (ι × Option ι) → Prop
  | [] => True
  | cell :: rest => cell.2 = firstOf rest behind ∧ LinkedTo behind rest

/-- Every cell links to the previous one, the first one to `before`. -/
def LinkedFrom (before : Option ι) : List (ι × Option ι) → Prop
  | [] => True
  | cell :: rest => cell.2 = before ∧ LinkedFrom (some cell.1) rest

variable {front back : List (ι × Option ι)} {cell : ι × Option ι} {outside : Option ι}

@[simp] theorem firstOf_nil : firstOf [] outside = outside := rfl

@[simp] theorem firstOf_cons : firstOf (cell :: back) outside = some cell.1 := rfl

theorem firstOf_append :
    firstOf (front ++ back) outside = firstOf front (firstOf back outside) := by
  cases front <;> rfl

@[simp] theorem lastOf_nil : lastOf [] outside = outside := rfl

@[simp] theorem lastOf_cons : lastOf (cell :: back) outside = lastOf back (some cell.1) := by
  rcases List.eq_nil_or_concat back with rfl | ⟨rest, last, rfl⟩
  · rfl
  · simp [lastOf, List.getLast?_cons]

theorem linkedTo_append :
    LinkedTo outside (front ++ back) ↔
      LinkedTo (firstOf back outside) front ∧ LinkedTo outside back := by
  induction front with
  | nil => simp [LinkedTo]
  | cons cell rest ih =>
    simp only [List.cons_append, LinkedTo, ih, firstOf_append, and_assoc]

theorem linkedFrom_append :
    LinkedFrom outside (front ++ back) ↔
      LinkedFrom outside front ∧ LinkedFrom (lastOf front outside) back := by
  induction front generalizing outside with
  | nil => simp [LinkedFrom]
  | cons cell rest ih =>
    simp only [List.cons_append, LinkedFrom, ih, lastOf_cons, and_assoc]

end Nanograph.Foundation
