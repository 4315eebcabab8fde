import Nanograph.Foundation.Keyed

/-!
# Merging several sorted lists

A merge repeatedly takes the item that goes first among the heads of the lists, as
a heap of the heads would give it out. It yields every item once, and in order when
the lists are in order.
-/

namespace Nanograph.Foundation

open List

variable {α : Type} (precedes : α → α → Prop) [DecidableRel precedes]

/-- Take the item that goes first off the heads of the lists. -/
def popFirst : List (List α) → Option (α × List (List α))
  | [] => none
  | [] :: rest => (popFirst rest).map fun (item, left) => (item, [] :: left)
  | (item :: tail) :: rest =>
    match popFirst rest with
    | none => some (item, tail :: rest)
    | some (other, left) =>
      if precedes item other then some (item, tail :: rest)
      else some (other, (item :: tail) :: left)

/-- Take off the given number of items. -/
def popItems : Nat → List (List α) → List α
  | 0, _ => []
  | count + 1, lists =>
    match popFirst precedes lists with
    | none => []
    | some (item, left) => item :: popItems count left

/-- Merge lists until all are used up. -/
def mergeLists (lists : List (List α)) : List α := popItems precedes lists.flatten.length lists

variable {precedes} {lists left : List (List α)} {item : α}

theorem popFirst_eq_none (empty : popFirst precedes lists = none) : lists.flatten = [] := by
  induction lists with
  | nil => rfl
  | cons first rest ih =>
    cases first with
    | nil =>
      rw [popFirst, Option.map_eq_none_iff] at empty
      rw [flatten_cons, nil_append, ih empty]
    | cons head tail =>
      rw [popFirst] at empty
      split at empty
      · cases empty
      · split at empty <;> cases empty

section

variable (popped : popFirst precedes lists = some (item, left))

include popped

/-- Popping takes the first item off one of the lists. -/
theorem exists_of_popFirst :
    ∃ front tail back, lists = front ++ (item :: tail) :: back ∧ left = front ++ tail :: back := by
  induction lists generalizing item left with
  | nil => cases popped
  | cons first rest ih =>
    cases first with
    | nil =>
      obtain ⟨⟨other, remaining⟩, poppedRest, same⟩ := Option.map_eq_some_iff.mp popped
      cases same
      obtain ⟨front, tail, back, rfl, rfl⟩ := ih poppedRest
      exact ⟨[] :: front, tail, back, rfl, rfl⟩
    | cons head tail =>
      rw [popFirst] at popped
      split at popped
      next => cases popped; exact ⟨[], tail, rest, rfl, rfl⟩
      next other remaining poppedRest =>
        split at popped
        next => cases popped; exact ⟨[], tail, rest, rfl, rfl⟩
        next =>
          cases popped
          obtain ⟨front, others, back, rfl, rfl⟩ := ih poppedRest
          exact ⟨(head :: tail) :: front, others, back, rfl, rfl⟩

theorem popFirst_perm : lists.flatten.Perm (item :: left.flatten) := by
  obtain ⟨front, tail, back, rfl, rfl⟩ := exists_of_popFirst popped
  simp only [flatten_append, flatten_cons, cons_append]
  exact perm_middle

theorem popFirst_sorted (sorted : ∀ list ∈ lists, list.Pairwise precedes) :
    ∀ list ∈ left, list.Pairwise precedes := by
  obtain ⟨front, tail, back, rfl, rfl⟩ := exists_of_popFirst popped
  simp only [forall_mem_append, forall_mem_cons, pairwise_cons] at sorted ⊢
  exact ⟨sorted.1, sorted.2.1.2, sorted.2.2⟩

end

section

variable [Std.Total precedes] [IsTrans α precedes]

/-- The popped item goes before all that are left. -/
theorem popFirst_first (popped : popFirst precedes lists = some (item, left))
    (sorted : ∀ list ∈ lists, list.Pairwise precedes) :
    ∀ other ∈ left.flatten, precedes item other := by
  induction lists generalizing item left with
  | nil => cases popped
  | cons first rest ih =>
    rw [forall_mem_cons] at sorted
    obtain ⟨firstSorted, restSorted⟩ := sorted
    cases first with
    | nil =>
      obtain ⟨⟨other, remaining⟩, poppedRest, same⟩ := Option.map_eq_some_iff.mp popped
      cases same
      simpa using ih poppedRest restSorted
    | cons head tail =>
      obtain ⟨headFirst, -⟩ := pairwise_cons.mp firstSorted
      rw [popFirst] at popped
      split at popped
      next emptyRest =>
        cases popped
        intro other mem
        rw [flatten_cons, popFirst_eq_none emptyRest, append_nil] at mem
        exact headFirst other mem
      next found remaining poppedRest =>
        have foundFirst := ih poppedRest restSorted
        split at popped
        next before =>
          cases popped
          intro other mem
          rcases mem_append.mp (flatten_cons ▸ mem) with inTail | inRest
          · exact headFirst other inTail
          · rcases mem_cons.mp ((popFirst_perm poppedRest).mem_iff.mp inRest) with
              rfl | later
            · exact before
            · exact IsTrans.trans _ _ _ before (foundFirst other later)
        next notBefore =>
          have ahead : precedes found head :=
            (Std.Total.total head found).resolve_left notBefore
          cases popped
          intro other mem
          rcases mem_append.mp (flatten_cons ▸ mem) with inFirst | inRest
          · rcases mem_cons.mp inFirst with rfl | inTail
            · exact ahead
            · exact IsTrans.trans _ _ _ ahead (headFirst other inTail)
          · exact foundFirst other inRest

end

theorem popItems_perm {count : Nat} (enough : lists.flatten.length ≤ count) :
    (popItems precedes count lists).Perm lists.flatten := by
  induction count generalizing lists with
  | zero =>
    rw [length_eq_zero_iff.mp (Nat.le_zero.mp enough)]
    rfl
  | succ count ih =>
    rw [popItems]
    split
    next empty => rw [popFirst_eq_none empty]
    next item left popped =>
      have taken := popFirst_perm popped
      have fewer : left.flatten.length ≤ count := by
        have lengths := taken.length_eq
        rw [length_cons] at lengths
        omega
      exact ((ih fewer).cons item).trans taken.symm

/-- A merge yields every item once. -/
theorem mergeLists_perm (lists : List (List α)) : (mergeLists precedes lists).Perm lists.flatten :=
  popItems_perm le_rfl

/-- A merge of lists in order is in order. -/
theorem mergeLists_sorted [Std.Total precedes] [IsTrans α precedes]
    (sorted : ∀ list ∈ lists, list.Pairwise precedes) :
    (mergeLists precedes lists).Pairwise precedes := by
  suffices ∀ count, lists.flatten.length ≤ count →
      (popItems precedes count lists).Pairwise precedes from this _ le_rfl
  intro count
  induction count generalizing lists with
  | zero => exact fun _ => List.Pairwise.nil
  | succ count ih =>
    intro enough
    rw [popItems]
    split
    next => exact List.Pairwise.nil
    next item left popped =>
      have fewer : left.flatten.length ≤ count := by
        have lengths := (popFirst_perm popped).length_eq
        rw [length_cons] at lengths
        omega
      refine pairwise_cons.mpr
        ⟨fun other mem => ?_, ih (popFirst_sorted popped sorted) fewer⟩
      exact popFirst_first popped sorted other ((popItems_perm fewer).mem_iff.mp mem)

section

variable {K : Type} [LinearOrder K] {key : α → K} {sources : List (List α × Nat)} {wanted : K}

omit [DecidableRel precedes] in
/-- The first item of a list in order that passes a test precedes all others that do. -/
theorem find?_first {test : α → Bool} {items : List α} {other : α}
    (sorted : items.Pairwise precedes) (found : items.find? test = some item)
    (mem : other ∈ items) (passes : test other = true) : item = other ∨ precedes item other := by
  obtain ⟨-, front, back, rfl, rejected⟩ := find?_eq_some_iff_append.mp found
  rcases mem_append.mp mem with inFront | inBack
  · simpa [passes] using rejected other inFront
  · rcases mem_cons.mp inBack with rfl | later
    · exact .inl rfl
    · exact .inr ((pairwise_cons.mp (pairwise_append.mp sorted).2.1).1 other later)

/-- Among lists with numbers, the item with a key comes from the first list that has the key,
when the merge goes by keys and then by the numbers. -/
theorem itemAt_mergeLists {before : α × Nat → α × Nat → Prop} [DecidableRel before]
    [Std.Total before] [IsTrans (α × Nat) before]
    (byNumber : ∀ first second, before first second → key first.1 = key second.1 →
      first.2 ≤ second.2) (byKey : ∀ first second, key first.1 < key second.1 → before first second)
    (numbered : sources.Pairwise (·.2 < ·.2))
    (sorted : ∀ source ∈ sources, KeySorted key source.1) :
    itemAt key ((mergeLists before (sources.map fun source => source.1.map (·, source.2))).map
        Prod.fst) wanted =
      firstHit key (sources.map Prod.fst) wanted := by
  have members (item : α × Nat) : item ∈ mergeLists before
      (sources.map fun source => source.1.map (·, source.2)) ↔
        ∃ source ∈ sources, source.2 = item.2 ∧ item.1 ∈ source.1 := by
    rw [(mergeLists_perm _).mem_iff]
    simp only [mem_flatten, mem_map]
    constructor
    · rintro ⟨-, ⟨source, isSource, rfl⟩, inSource⟩
      obtain ⟨entry, inItems, rfl⟩ := mem_map.mp inSource
      exact ⟨source, isSource, rfl, inItems⟩
    · rintro ⟨source, isSource, sameNumber, inItems⟩
      refine ⟨_, ⟨source, isSource, rfl⟩, mem_map.mpr ⟨item.1, inItems, ?_⟩⟩
      rw [sameNumber]
  have inOrder : (mergeLists before
      (sources.map fun source => source.1.map (·, source.2))).Pairwise before := by
    refine mergeLists_sorted fun list mem => ?_
    obtain ⟨source, isSource, rfl⟩ := mem_map.mp mem
    refine pairwise_map.mpr ((show source.1.Pairwise (key · < key ·) from
      sorted source isSource).imp fun less => byKey _ _ less)
  generalize mergeLists before (sources.map fun source => source.1.map (·, source.2)) = merged
    at members inOrder
  rw [itemAt, find?_map]
  cases hit : firstHit key (sources.map Prod.fst) wanted with
  | none =>
    rw [Option.map_eq_none_iff, find?_eq_none]
    intro item mem
    obtain ⟨source, isSource, -, inItems⟩ := (members item).mp mem
    simpa using itemAt_eq_none.mp
      (firstHit_eq_none.mp hit source.1 (mem_map_of_mem isSource)) item.1 inItems
  | some item =>
    rw [firstHit, findSome?_map, findSome?_eq_some_iff] at hit
    obtain ⟨front, source, back, rfl, found, missing⟩ := hit
    obtain ⟨inItems, rfl⟩ := mem_of_itemAt found
    have isMember : (item, source.2) ∈ merged :=
      (members _).mpr ⟨source, by simp, rfl, inItems⟩
    obtain ⟨first, isFirst⟩ : ∃ first, merged.find?
        ((fun other => decide (key other = key item)) ∘ Prod.fst) = some first :=
      Option.isSome_iff_exists.mp (find?_isSome.mpr ⟨_, isMember, by simp⟩)
    have sameKey : key first.1 = key item := by simpa using find?_some isFirst
    have noLater : first.2 ≤ source.2 := by
      rcases find?_first inOrder isFirst isMember (by simp) with rfl | ahead
      · exact le_rfl
      · exact byNumber _ _ ahead sameKey
    rw [isFirst, Option.map_some, Option.some_inj]
    obtain ⟨other, isOther, number, inOther⟩ :=
      (members first).mp (mem_of_find?_eq_some isFirst)
    rw [pairwise_append, pairwise_cons] at numbered
    rcases mem_append.mp isOther with inFront | inRest
    · exact absurd sameKey (itemAt_eq_none.mp (missing other inFront) first.1 inOther)
    · rcases mem_cons.mp inRest with rfl | inBack
      · have alone := (sorted other (by simp)).itemAt_eq inOther
        rw [sameKey, show itemAt key other.1 (key item) = some item from found] at alone
        exact (Option.some_inj.mp alone).symm
      · have later := numbered.2.1.1 other inBack
        omega

end

end Nanograph.Foundation
