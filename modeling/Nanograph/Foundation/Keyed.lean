import Mathlib

/-!
# Lists of items with keys

Items that carry a key, kept in ascending order of their keys, as in an ordered map.
Several such lists make up a store that is read from the newest list to the oldest:
the first list that has the key answers.
-/

namespace Nanograph.Foundation

open List

variable {α K : Type} [LinearOrder K] (key : α → K)

/-- The keys of the items ascend. -/
def KeySorted (items : List α) : Prop := items.Pairwise (key · < key ·)

def itemAt (items : List α) (wanted : K) : Option α := items.find? (key · = wanted)

/-- Put an item in the place of its key; an item with the same key is replaced. -/
def insertItem (item : α) : List α → List α
  | [] => [item]
  | other :: rest =>
    if key other < key item then other :: insertItem item rest
    else if key item < key other then item :: other :: rest
    else item :: rest

/-- The item with a key in the first list that has one. -/
def firstHit (sources : List (List α)) (wanted : K) : Option α :=
  sources.findSome? (itemAt key · wanted)

variable {key} {items : List α} {item : α} {wanted : K}

theorem itemAt_cons [Decidable (key item = wanted)] :
    itemAt key (item :: items) wanted =
      if key item = wanted then some item else itemAt key items wanted := by
  by_cases hit : key item = wanted <;> simp [hit, itemAt]

theorem itemAt_eq_none : itemAt key items wanted = none ↔ ∀ item ∈ items, key item ≠ wanted := by
  simp [itemAt]

theorem mem_of_itemAt (found : itemAt key items wanted = some item) :
    item ∈ items ∧ key item = wanted :=
  ⟨mem_of_find?_eq_some found, by simpa using find?_some found⟩

/-- In ascending order an item is found under its key. -/
theorem KeySorted.itemAt_eq (sorted : KeySorted key items) (mem : item ∈ items) :
    itemAt key items (key item) = some item := by
  induction items with
  | nil => cases mem
  | cons first rest ih =>
    obtain ⟨least, restSorted⟩ := pairwise_cons.mp sorted
    rw [itemAt_cons]
    rcases mem_cons.mp mem with rfl | inRest
    · simp
    · rw [if_neg (least item inRest).ne, ih restSorted inRest]

theorem mem_insertItem {other : α} (mem : other ∈ insertItem key item items) :
    other = item ∨ other ∈ items := by
  induction items with
  | nil => exact .inl (mem_singleton.mp mem)
  | cons first rest ih =>
    rw [insertItem] at mem
    split at mem
    · rcases mem_cons.mp mem with rfl | inRest
      · simp
      · exact (ih inRest).imp_right (mem_cons_of_mem _)
    · split at mem <;> simp_all
      tauto

section

variable (sorted : KeySorted key items)

include sorted

/-- Insertion keeps the order. -/
theorem KeySorted.insertItem (item : α) : KeySorted key (insertItem key item items) := by
  induction items with
  | nil => exact pairwise_singleton _ _
  | cons first rest ih =>
    obtain ⟨least, restSorted⟩ := pairwise_cons.mp sorted
    rw [Foundation.insertItem]
    split
    next before =>
      refine pairwise_cons.mpr ⟨fun other mem => ?_, ih restSorted⟩
      rcases mem_insertItem mem with rfl | inRest
      · exact before
      · exact least other inRest
    next notBefore =>
      split
      next behind =>
        refine pairwise_cons.mpr ⟨fun other mem => ?_, sorted⟩
        rcases mem_cons.mp mem with rfl | inRest
        · exact behind
        · exact behind.trans (least other inRest)
      next notBehind =>
        have same : key item = key first :=
          le_antisymm (not_lt.mp notBefore) (not_lt.mp notBehind)
        exact pairwise_cons.mpr ⟨fun other mem => same ▸ least other mem, restSorted⟩

/-- An inserted item is found under its key, the others as before. -/
theorem KeySorted.itemAt_insertItem (item : α) (wanted : K) [Decidable (key item = wanted)] :
    itemAt key (Foundation.insertItem key item items) wanted =
      if key item = wanted then some item else itemAt key items wanted := by
  induction items with
  | nil => rw [Foundation.insertItem, itemAt_cons]
  | cons first rest ih =>
    obtain ⟨least, restSorted⟩ := pairwise_cons.mp sorted
    rw [Foundation.insertItem]
    split
    next before =>
      rw [itemAt_cons, ih restSorted, itemAt_cons]
      by_cases hit : key first = wanted
      · rw [if_pos hit, if_pos hit, if_neg (hit ▸ before.ne')]
      · rw [if_neg hit, if_neg hit]
    next notBefore =>
      split
      next => rw [itemAt_cons]
      next notBehind =>
        have same : key item = key first :=
          le_antisymm (not_lt.mp notBefore) (not_lt.mp notBehind)
        rw [itemAt_cons, itemAt_cons, ← same]
        split <;> rfl

/-- In ascending order the items are those found under their keys. -/
theorem KeySorted.mem_iff : item ∈ items ↔ itemAt key items (key item) = some item :=
  ⟨sorted.itemAt_eq, fun hit => (mem_of_itemAt hit).1⟩

theorem KeySorted.mem_insertItem_iff {other : α} :
    other ∈ Foundation.insertItem key item items ↔
      other = item ∨ other ∈ items ∧ key other ≠ key item := by
  rw [(sorted.insertItem item).mem_iff, sorted.itemAt_insertItem]
  by_cases same : key item = key other
  · simp [same, eq_comm]
  · rw [if_neg same, ← sorted.mem_iff]
    constructor
    · exact fun mem => .inr ⟨mem, Ne.symm same⟩
    · rintro (rfl | ⟨mem, _⟩)
      · exact absurd rfl same
      · exact mem

/-- The first item is the one with the least key. -/
theorem KeySorted.head?_eq_some_iff :
    items.head? = some item ↔ item ∈ items ∧ ∀ other ∈ items, key item ≤ key other := by
  cases items with
  | nil => simp
  | cons first rest =>
    obtain ⟨least, _⟩ := pairwise_cons.mp sorted
    rw [head?_cons, Option.some.injEq]
    constructor
    · rintro rfl
      refine ⟨mem_cons_self, fun other mem => ?_⟩
      rcases mem_cons.mp mem with rfl | inRest
      · exact le_rfl
      · exact (least other inRest).le
    · rintro ⟨mem, lowest⟩
      rcases mem_cons.mp mem with rfl | inRest
      · rfl
      · exact absurd (lowest first mem_cons_self) (least item inRest).not_ge

end

/-- Insertion commutes with a map that keeps the order of the keys. -/
theorem insertItem_map {β L : Type} [LinearOrder L] {otherKey : β → L} {f : α → β}
    (keeps : ∀ first second, otherKey (f first) < otherKey (f second) ↔ key first < key second)
    (item : α) (items : List α) :
    Foundation.insertItem otherKey (f item) (items.map f) =
      (Foundation.insertItem key item items).map f := by
  induction items with
  | nil => rfl
  | cons first rest ih =>
    rw [map_cons, Foundation.insertItem, Foundation.insertItem]
    simp only [keeps, ih]
    split
    · rfl
    · split <;> rfl

/-- Of items inserted one after the other the last one with a key is found. -/
theorem itemAt_foldl_insertItem (inserted : List α) (wanted : K) :
    itemAt key (inserted.foldl (fun items item => Foundation.insertItem key item items) []) wanted =
        itemAt key inserted.reverse wanted ∧
      KeySorted key (inserted.foldl (fun items item => Foundation.insertItem key item items) []) := by
  induction inserted using List.reverseRecOn with
  | nil => exact ⟨rfl, List.Pairwise.nil⟩
  | append_singleton earlier item ih =>
    obtain ⟨found, sorted⟩ := ih
    rw [foldl_append, reverse_append, reverse_singleton, singleton_append]
    refine ⟨?_, sorted.insertItem item⟩
    rw [foldl_cons, foldl_nil, sorted.itemAt_insertItem, found, itemAt_cons]

theorem KeySorted.first_le {first : α} (sorted : KeySorted key (first :: items))
    (mem : item ∈ first :: items) : key first ≤ key item := by
  rcases mem_cons.mp mem with rfl | inRest
  · exact le_rfl
  · exact ((pairwise_cons.mp sorted).1 item inRest).le

theorem KeySorted.le_last {last : α} (sorted : KeySorted key items)
    (isLast : items.getLast? = some last) (mem : item ∈ items) : key item ≤ key last := by
  obtain ⟨front, rfl⟩ := getLast?_eq_some_iff.mp isLast
  rcases mem_append.mp mem with inFront | isItem
  · exact ((pairwise_append.mp sorted).2.2 item inFront last (by simp)).le
  · rw [mem_singleton.mp isItem]

/-- Questions that get the same answers from all items find the same. -/
theorem findSome?_of_agree {β : Type} {ask other : α → Option β}
    (agree : ∀ item ∈ items, ask item = other item) :
    items.findSome? ask = items.findSome? other := by
  induction items with
  | nil => rfl
  | cons first rest ih =>
    rw [forall_mem_cons] at agree
    rw [findSome?_cons, findSome?_cons, agree.1, ih agree.2]

theorem findSome?_filter {β : Type} (ask : α → Option β) (asked : α → Bool) (items : List α) :
    (items.filter asked).findSome? ask =
      items.findSome? fun item => if asked item then ask item else none := by
  rw [← head?_filterMap, filterMap_filter, head?_filterMap]

theorem findSome?_filterMap {β γ : Type} (ask : β → Option γ) (pick : α → Option β)
    (items : List α) :
    (items.filterMap pick).findSome? ask = items.findSome? fun item => (pick item).bind ask := by
  rw [← head?_filterMap, filterMap_filterMap, head?_filterMap]

section

variable {sources newer older : List (List α)} {source : List α}

@[simp] theorem firstHit_nil : firstHit key [] wanted = none := rfl

theorem firstHit_cons :
    firstHit key (source :: sources) wanted =
      (itemAt key source wanted).or (firstHit key sources wanted) := by
  rw [firstHit, findSome?_cons]
  cases itemAt key source wanted <;> rfl

theorem firstHit_append :
    firstHit key (newer ++ older) wanted =
      (firstHit key newer wanted).or (firstHit key older wanted) := by
  rw [firstHit, findSome?_append]
  rfl

theorem firstHit_eq_none :
    firstHit key sources wanted = none ↔ ∀ source ∈ sources, itemAt key source wanted = none := by
  simp [firstHit]

theorem mem_of_firstHit (found : firstHit key sources wanted = some item) :
    (∃ source ∈ sources, item ∈ source) ∧ key item = wanted := by
  obtain ⟨source, mem, hit⟩ := exists_of_findSome?_eq_some found
  exact ⟨⟨source, mem, (mem_of_itemAt hit).1⟩, (mem_of_itemAt hit).2⟩

theorem firstHit_eq_itemAt_flatten :
    firstHit key sources wanted = itemAt key sources.flatten wanted :=
  find?_flatten.symm

/-- When no two lists have the key, their order does not matter. -/
theorem firstHit_perm {others : List (List α)} (perm : sources.Perm others)
    (apart : sources.Pairwise fun first second =>
      itemAt key first wanted = none ∨ itemAt key second wanted = none) :
    firstHit key sources wanted = firstHit key others wanted := by
  induction perm with
  | nil => rfl
  | cons source _ ih =>
    rw [firstHit_cons, firstHit_cons, ih (pairwise_cons.mp apart).2]
  | swap first second rest =>
    simp only [firstHit_cons]
    rcases (pairwise_cons.mp apart).1 first (by simp) with missing | missing <;>
      simp [missing]
  | trans firstPerm _ firstEq secondEq =>
    refine (firstEq apart).trans (secondEq ((firstPerm.pairwise_iff ?_).mp apart))
    exact fun missing => missing.symm

end

section

variable {V : Type}

/-- The last value written under a key. -/
def lastWritten (writes : List (K × V)) (wanted : K) : Option V :=
  (itemAt Prod.fst writes.reverse wanted).map Prod.snd

@[simp] theorem lastWritten_nil : lastWritten ([] : List (K × V)) wanted = none := rfl

theorem lastWritten_singleton (write : K × V) [Decidable (write.1 = wanted)] :
    lastWritten [write] wanted = if write.1 = wanted then some write.2 else none := by
  rw [lastWritten, reverse_singleton, itemAt_cons]
  split <;> rfl

/-- Later writes decide about the keys they write. -/
theorem lastWritten_append (earlier later : List (K × V)) :
    lastWritten (earlier ++ later) wanted =
      (lastWritten later wanted).or (lastWritten earlier wanted) := by
  rw [lastWritten, reverse_append, itemAt, find?_append, Option.map_or]
  rfl

theorem lastWritten_eq_none {writes : List (K × V)} :
    lastWritten writes wanted = none ↔ ∀ write ∈ writes, write.1 ≠ wanted := by
  simp [lastWritten, itemAt_eq_none]

end

section

variable {κ β : Type} [DecidableEq κ] {table : AList fun _ : κ => β} {own other : κ} {value : β}

/-- What holds of a new value and of all others holds of the table with it. -/
theorem forall_lookup_insert {property : κ → β → Prop} (new : property own value)
    (others : ∀ other, other ≠ own → ∀ held ∈ table.lookup other, property other held) :
    ∀ other, ∀ held ∈ (table.insert own value).lookup other, property other held := by
  intro other held found
  by_cases same : other = own
  · subst same
    rw [AList.lookup_insert] at found
    cases found
    exact new
  · rw [AList.lookup_insert_ne same] at found
    exact others other same held found

/-- A value stays or gives way to one with the same property. -/
theorem exists_lookup_insert {property : β → Prop}
    (there : ∃ held, table.lookup other = some held ∧ property held)
    (kept : ∀ held, table.lookup own = some held → property held → property value) :
    ∃ held, (table.insert own value).lookup other = some held ∧ property held := by
  obtain ⟨held, found, holds⟩ := there
  by_cases same : other = own
  · subst same
    exact ⟨value, AList.lookup_insert _, kept held found holds⟩
  · exact ⟨held, (AList.lookup_insert_ne same).trans found, holds⟩

end

end Nanograph.Foundation
