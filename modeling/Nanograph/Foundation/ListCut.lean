import Mathlib

/-!
# Lists cut at a position

The vector operations that take an index, applied to a list written as the part
before that index followed by the rest, and the cut that a concatenation of
segments inherits from one of its elements.
-/

namespace Nanograph.Foundation

open List

variable {α β : Type}

variable (front back : List α)

/-- Inserting at the length of the front part puts the element between the parts. -/
theorem insertIdx_cut (item : α) :
    (front ++ back).insertIdx front.length item = front ++ item :: back := by
  induction front with
  | nil => simp
  | cons head tail ih => simp [ih]

/-- Erasing at the length of the front part drops the element behind it. -/
theorem eraseIdx_cut (item : α) :
    (front ++ item :: back).eraseIdx front.length = front ++ back := by
  induction front with
  | nil => simp
  | cons head tail ih => simp [ih]

/-- Writing at the length of the front part replaces the element behind it. -/
theorem set_cut (item replacement : α) :
    (front ++ item :: back).set front.length replacement = front ++ replacement :: back := by
  induction front with
  | nil => simp
  | cons head tail ih => simp [ih]

/-- Modifying at the length of the front part changes the element behind it. -/
theorem modify_cut (item : α) (change : α → α) :
    (front ++ item :: back).modify front.length change = front ++ change item :: back := by
  induction front with
  | nil => simp
  | cons head tail ih => simp [ih]

/-- The first position of an element that is not in the front part. -/
theorem idxOf?_cut [DecidableEq α] {front : List α} {item : α} (absent : item ∉ front) :
    (front ++ item :: back).idxOf? item = some front.length := by
  induction front with
  | nil => simp [idxOf?_cons]
  | cons head tail ih =>
    have different : head ≠ item := fun equal => absent (equal ▸ mem_cons_self)
    have tailAbsent : item ∉ tail := fun mem => absent (mem_cons_of_mem _ mem)
    simp [idxOf?_cons, different, ih tailAbsent]

/-- A nonempty list has a last element. -/
theorem exists_last (list : List α) (nonempty : 0 < list.length) :
    ∃ front last, list = front ++ [last] := by
  rcases eq_nil_or_concat list with rfl | ⟨front, last, rfl⟩
  · simp at nonempty
  · exact ⟨front, last, concat_eq_append⟩

/-- The elements of a list are those at a cut and those around it. -/
theorem mem_cut {front back : List α} {item other : α} :
    other ∈ front ++ item :: back ↔ other = item ∨ other ∈ front ++ back := by
  simp only [mem_append, mem_cons]
  tauto

/-- An element of a concatenation lies in one segment, and the cut there refines
the cut between segments. -/
theorem flatMap_cut {segments : List β} {expand : β → List α} {before after : List α} {item : α}
    (cut : segments.flatMap expand = before ++ item :: after) :
    ∃ segmentsBefore segment segmentsAfter front back,
      segments = segmentsBefore ++ segment :: segmentsAfter ∧
        expand segment = front ++ item :: back ∧
        before = segmentsBefore.flatMap expand ++ front ∧
        after = back ++ segmentsAfter.flatMap expand := by
  induction segments generalizing before with
  | nil => simp at cut
  | cons head tail ih =>
    rw [flatMap_cons] at cut
    rcases append_eq_append_iff.mp cut with ⟨middle, beforeEq, tailEq⟩ |
      ⟨middle, headEq, tailEq⟩
    · obtain ⟨segmentsBefore, segment, segmentsAfter, front, back, rfl, expanded, rfl, rfl⟩ :=
        ih tailEq
      exact ⟨head :: segmentsBefore, segment, segmentsAfter, front, back, rfl, expanded,
        by simp [beforeEq], rfl⟩
    · cases middle with
      | nil =>
        -- The element opens the next segment.
        obtain ⟨segmentsBefore, segment, segmentsAfter, front, back, rfl, expanded, empty,
          rfl⟩ := ih (show tail.flatMap expand = [] ++ item :: after by
            simpa using tailEq.symm)
        exact ⟨head :: segmentsBefore, segment, segmentsAfter, front, back, rfl, expanded,
          by simpa [headEq] using empty, rfl⟩
      | cons first rest =>
        obtain ⟨rfl, rfl⟩ := tailEq
        exact ⟨[], head, tail, before, rest, rfl, headEq, by simp, rfl⟩

/-- A change at the place behind a front part is a change of the first item of the rest. -/
theorem modify_append_length (change : α → α) :
    (front ++ back).modify front.length change = front ++ back.modifyHead change := by
  rw [modify_eq_take_drop, take_left, drop_left]

/-- Removing the only item with a number is keeping those with another one. -/
theorem eraseP_eq_filter {number : α → Nat} {items : List α} (distinct : (items.map number).Nodup)
    (erased : Nat) : items.eraseP (number · = erased) = items.filter (number · ≠ erased) := by
  induction items with
  | nil => rfl
  | cons item rest ih =>
    obtain ⟨fresh, restDistinct⟩ := nodup_cons.mp distinct
    by_cases hit : number item = erased
    · rw [eraseP_cons_of_pos (by simpa using hit),
        filter_cons_of_neg (by simpa using hit), eq_comm, filter_eq_self]
      intro other mem
      simpa using fun same : number other = erased =>
        fresh (mem_map.mpr ⟨other, mem, same.trans hit.symm⟩)
    · rw [eraseP_cons_of_neg (by simpa using hit),
        filter_cons_of_pos (by simpa using hit), ih restDistinct]

/-- A segment that gets shorter makes the concatenation shorter. -/
theorem flatMap_modify_sublist (expand : β → List α) {change : β → β}
    (shrinks : ∀ segment, (expand (change segment)).Sublist (expand segment))
    (segments : List β) (index : Nat) :
    ((segments.modify index change).flatMap expand).Sublist (segments.flatMap expand) := by
  induction segments generalizing index with
  | nil => simp
  | cons segment rest ih =>
    cases index with
    | zero => exact (shrinks segment).append (List.Sublist.refl _)
    | succ index => exact (List.Sublist.refl _).append (ih index)

/-- What a segment gets, the concatenation gets. -/
theorem flatMap_modify_perm (expand : β → List α) {change : β → β} {extra : List α}
    (grows : ∀ segment, expand (change segment) = expand segment ++ extra)
    {segments : List β} {index : Nat} (inside : index < segments.length) :
    ((segments.modify index change).flatMap expand).Perm (segments.flatMap expand ++ extra) := by
  induction segments generalizing index with
  | nil => simp at inside
  | cons segment rest ih =>
    cases index with
    | zero =>
      rw [modify_zero_cons, flatMap_cons, flatMap_cons, grows, append_assoc, append_assoc]
      exact perm_append_comm.append_left _
    | succ index =>
      rw [modify_succ_cons, flatMap_cons, flatMap_cons, append_assoc]
      exact (ih (by simpa using inside)).append_left _

theorem find?_take (accepts : α → Bool) (items : List α) (count : Nat) :
    (items.take count).find? accepts =
      if items.findIdx accepts < count then items.find? accepts else none := by
  rw [find?_eq_getElem?_findIdx, find?_eq_getElem?_findIdx, findIdx_take]
  split
  next inside => rw [min_eq_right inside.le, getElem?_take_of_lt inside]
  next outside => rw [min_eq_left (not_lt.mp outside), getElem?_take_eq_none le_rfl]

theorem subperm_map (f : α → β) {kept items : List α} (subperm : kept.Subperm items) :
    (kept.map f).Subperm (items.map f) := by
  obtain ⟨arranged, perm, sublist⟩ := subperm
  exact ⟨arranged.map f, perm.map f, sublist.map f⟩

theorem filter_notMem_filter [DecidableEq α] (keep : α → Bool) (items : List α) :
    items.filter (· ∉ items.filter keep) = items.filter (!keep ·) := by
  refine filter_congr fun item mem => ?_
  cases kept : keep item <;> simp [mem, kept]

end Nanograph.Foundation
