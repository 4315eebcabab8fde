import Nanograph.Foundation.BinarySearch

/-!
# Sorted entries

A finite map kept as a list of entries with increasing keys. A `Window` cuts such
a list around one key: the entries with smaller keys, the value held under the
key if there is one, and the entries with greater keys. Reading, writing and
erasing a key are all described at its window. `Segmented` divides the entries
over segments with increasing lower bounds.
-/

namespace Nanograph.Foundation

open List Option

variable {K V : Type} [LinearOrder K]

/-- Keys increase along the list. -/
abbrev Sorted (entries : List (K × V)) : Prop := entries.Pairwise (·.1 < ·.1)

/-- The value a list of entries holds under a key. -/
def lookup (entries : List (K × V)) (key : K) : Option V :=
  (entries.find? fun entry => entry.1 = key).map (·.2)

theorem lookup_map {W : Type} (change : V → W) (entries : List (K × V)) (key : K) :
    lookup (entries.map fun entry => (entry.1, change entry.2)) key =
      (lookup entries key).map change := by
  rw [lookup, find?_map, Option.map_map, lookup, Option.map_map]
  rfl

theorem mem_of_lookup {entries : List (K × V)} {key : K} {value : V}
    (found : lookup entries key = some value) : (key, value) ∈ entries := by
  obtain ⟨entry, isEntry, rfl⟩ := map_eq_some_iff.mp found
  have isKey : entry.1 = key := by simpa using find?_some isEntry
  rw [← isKey]
  exact mem_of_find?_eq_some isEntry

/-- The index of a key, or the index at which it would be inserted. -/
def searchKey (entries : List (K × V)) (key : K) : Except Nat Nat :=
  binarySearchBy (fun entry => cmp entry.1 key) entries

/-- The entries around one key. -/
structure Window (entries : List (K × V)) (key : K) (before : List (K × V)) (held : Option V)
    (after : List (K × V)) : Prop where
  cut : entries = before ++ (held.toList.map (key, ·) ++ after)
  smaller : ∀ entry ∈ before, entry.1 < key
  greater : ∀ entry ∈ after, key < entry.1

theorem exists_window {entries : List (K × V)} (sorted : Sorted entries) (key : K) :
    ∃ before held after, Window entries key before held after := by
  induction entries with
  | nil => exact ⟨[], none, [], rfl, by simp, by simp⟩
  | cons entry rest ih =>
    rw [Sorted, pairwise_cons] at sorted
    rcases lt_trichotomy entry.1 key with less | equal | greater
    · obtain ⟨before, held, after, window⟩ := ih sorted.2
      refine ⟨entry :: before, held, after, by rw [window.cut, cons_append], ?_, window.greater⟩
      exact forall_mem_cons.mpr ⟨less, window.smaller⟩
    · exact ⟨[], some entry.2, rest, by simp [← equal], by simp, equal ▸ sorted.1⟩
    · refine ⟨[], none, entry :: rest, rfl, by simp, ?_⟩
      exact forall_mem_cons.mpr ⟨greater, fun other mem =>
        greater.trans (sorted.1 other mem)⟩

namespace Window

variable {entries before after : List (K × V)} {key other : K} {held : Option V}

theorem lookup_skip {front rest : List (K × V)} (absent : ∀ entry ∈ front, entry.1 ≠ key) :
    lookup (front ++ rest) key = lookup rest key := by
  have skipped : front.find? (fun entry => entry.1 = key) = none := by simpa using absent
  rw [lookup, lookup, find?_append, skipped, none_or]

theorem lookup_eq_none {entries : List (K × V)} (absent : ∀ entry ∈ entries, entry.1 ≠ key) :
    lookup entries key = none := by
  rw [← append_nil entries, lookup_skip absent]
  rfl

/-- What is held at a window is found under its key only. -/
theorem lookup_held (different : other ≠ key) (held : Option V) :
    lookup (before ++ (held.toList.map (key, ·) ++ after)) other = lookup (before ++ after) other := by
  have skipped : (held.toList.map (key, ·)).find? (fun entry => entry.1 = other) = none := by
    simpa using fun _ _ => Ne.symm different
  simp only [lookup, find?_append, skipped, none_or]

/-- The value under the key of a window. -/
theorem lookup_eq (window : Window entries key before held after) : lookup entries key = held := by
  rw [window.cut, lookup_skip fun entry mem => (window.smaller entry mem).ne]
  cases held with
  | none => exact lookup_eq_none fun entry mem => (window.greater entry mem).ne'
  | some value => simp [lookup]

/-- What is in the entries is found under its key. -/
theorem lookup_of_mem {value : V} (sorted : Sorted entries) (mem : (key, value) ∈ entries) :
    lookup entries key = some value := by
  obtain ⟨before, held, after, window⟩ := exists_window sorted key
  rw [window.lookup_eq]
  rw [window.cut, mem_append, mem_append] at mem
  rcases mem with early | isHeld | late
  · exact absurd (window.smaller _ early) (lt_irrefl key)
  · simpa using isHeld
  · exact absurd (window.greater _ late) (lt_irrefl key)

variable (window : Window entries key before held after)

include window

/-- Writing at a window changes the value under its key only. -/
theorem lookup_write (value : V) (other : K) :
    lookup (before ++ (key, value) :: after) other =
      if other = key then some value else lookup entries other := by
  split
  next equal =>
    subst equal
    rw [lookup_skip fun entry mem => (window.smaller entry mem).ne]
    simp [lookup]
  next different =>
    rw [window.cut, lookup_held different]
    exact lookup_held different (some value)

/-- Erasing at a window leaves nothing under its key. -/
theorem lookup_erase (other : K) :
    lookup (before ++ after) other = if other = key then none else lookup entries other := by
  split
  next equal =>
    subst equal
    apply lookup_eq_none
    intro entry mem
    rcases mem_append.mp mem with early | late
    · exact (window.smaller entry early).ne
    · exact (window.greater entry late).ne'
  next different => rw [window.cut, lookup_held different]

/-- The entries on both sides of a window. -/
theorem sorted_sides (sorted : Sorted entries) : Sorted before ∧ Sorted after := by
  rw [window.cut, Sorted, pairwise_append, pairwise_append] at sorted
  exact ⟨sorted.1, sorted.2.1.2.1⟩

theorem sorted_write (sorted : Sorted entries) (value : V) :
    Sorted (before ++ (key, value) :: after) := by
  obtain ⟨left, right⟩ := window.sorted_sides sorted
  rw [Sorted, pairwise_append, pairwise_cons]
  refine ⟨left, ⟨window.greater, right⟩, ?_⟩
  intro early isEarly late isLate
  have less := window.smaller early isEarly
  rcases mem_cons.mp isLate with rfl | isAfter
  · exact less
  · exact less.trans (window.greater late isAfter)

/-- The entries that stay when the key is erased. -/
theorem erase_sublist : (before ++ after).Sublist entries := by
  rw [window.cut]
  simp

theorem length_eq : entries.length = (before ++ after).length + held.toList.length := by
  rw [window.cut]
  simp only [length_append, length_map]
  omega

/-- The binary search for a key ends at its window. -/
theorem searchKey_eq :
    searchKey entries key = if held.isSome then .ok before.length else .error before.length := by
  have smaller : ∀ entry ∈ before, cmp entry.1 key = .lt := fun entry mem =>
    (cmp_eq_lt_iff _ _).mpr (window.smaller entry mem)
  have greater : ∀ entry ∈ after, cmp entry.1 key = .gt := fun entry mem =>
    (cmp_eq_gt_iff _ _).mpr (window.greater entry mem)
  rw [searchKey, window.cut]
  cases held with
  | none => exact binarySearchBy_missing _ smaller greater
  | some value =>
    have equal : cmp (key, value).1 key = .eq := cmp_self_eq_eq key
    exact binarySearchBy_found smaller equal greater

/-- A window stays one inside entries with smaller keys and entries with greater keys. -/
theorem widen {front back : List (K × V)} (smaller : ∀ entry ∈ front, entry.1 < key)
    (greater : ∀ entry ∈ back, key < entry.1) :
    Window (front ++ (entries ++ back)) key (front ++ before) held (after ++ back) where
  cut := by simp [window.cut]
  smaller := forall_mem_append.mpr ⟨smaller, window.smaller⟩
  greater := forall_mem_append.mpr ⟨window.greater, greater⟩

end Window

/-- Entries divided over segments: every segment has a lower bound, and all its
entries lie between that bound and the bounds of the segments behind it. -/
structure Segmented (segments : List (WithBot K × List (K × V))) : Prop where
  bounds : segments.Pairwise fun left right =>
    left.1 < right.1 ∧ ∀ entry ∈ left.2, (entry.1 : WithBot K) < right.1
  least : ∀ segment ∈ segments, ∀ entry ∈ segment.2, segment.1 ≤ (entry.1 : WithBot K)
  sorted : ∀ segment ∈ segments, Sorted segment.2

namespace Segmented

variable {segments before after new : List (WithBot K × List (K × V))} {low : WithBot K}
  {entries left right : List (K × V)}

theorem entries_sorted (segmented : Segmented segments) : Sorted (segments.flatMap (·.2)) := by
  rw [Sorted, pairwise_flatMap]
  refine ⟨segmented.sorted, segmented.bounds.imp_of_mem ?_⟩
  intro left right _ rightIn apart early isEarly late isLate
  have bounded := (apart.2 early isEarly).trans_le (segmented.least right rightIn late isLate)
  exact WithBot.coe_lt_coe.mp bounded

/-- One segment. -/
theorem one (sorted : Sorted entries) (least : ∀ entry ∈ entries, low ≤ (entry.1 : WithBot K)) :
    Segmented [(low, entries)] where
  bounds := by simp
  least := by simpa using least
  sorted := by simpa using sorted

/-- Two segments, the second one bounded by its first key. -/
theorem two {key : K} (sorted : Sorted (left ++ right)) (nonempty : left ≠ [])
    (least : ∀ entry ∈ left ++ right, low ≤ (entry.1 : WithBot K))
    (first : right.head?.map (·.1) = some key) : Segmented [(low, left), (↑key, right)] := by
  obtain ⟨head, rest, rfl⟩ : ∃ head rest, right = head :: rest := by
    cases right with
    | nil => simp at first
    | cons head rest => exact ⟨head, rest, rfl⟩
  obtain rfl : head.1 = key := by simpa using first
  rw [Sorted, pairwise_append] at sorted
  obtain ⟨leftSorted, rightSorted, apart⟩ := sorted
  have leftBelow : ∀ entry ∈ left, (entry.1 : WithBot K) < head.1 := fun entry mem =>
    WithBot.coe_lt_coe.mpr (apart entry mem head (by simp))
  refine ⟨?_, ?_, ?_⟩
  · obtain ⟨entry, mem⟩ := exists_mem_of_ne_nil left nonempty
    have lowBelow : low < (head.1 : WithBot K) :=
      (least entry (mem_append_left _ mem)).trans_lt (leftBelow entry mem)
    exact pairwise_pair.mpr ⟨lowBelow, leftBelow⟩
  · refine forall_mem_cons.mpr ⟨fun entry mem =>
      least entry (mem_append_left _ mem), forall_mem_singleton.mpr ?_⟩
    refine forall_mem_cons.mpr ⟨le_rfl, fun entry mem => ?_⟩
    exact WithBot.coe_le_coe.mpr ((pairwise_cons.mp rightSorted).1 entry mem).le
  · exact forall_mem_cons.mpr ⟨leftSorted, forall_mem_singleton.mpr rightSorted⟩

/-- Some segments are exchanged for others over the same range of keys. -/
theorem exchange (rest new : List (WithBot K × List (K × V)))
    (segmented : Segmented (before ++ ((low, entries) :: rest ++ after))) (inner : Segmented new)
    (lows : ∀ segment ∈ new, segment.1 = low ∨
      ∃ entry ∈ new.flatMap (·.2), segment.1 = (entry.1 : WithBot K))
    (above : ∀ entry ∈ new.flatMap (·.2), low ≤ (entry.1 : WithBot K))
    (below : ∀ entry ∈ new.flatMap (·.2), ∀ behind ∈ after, (entry.1 : WithBot K) < behind.1) :
    Segmented (before ++ (new ++ after)) := by
  obtain ⟨bounds, least, sorted⟩ := segmented
  rw [pairwise_append, cons_append, pairwise_cons] at bounds
  obtain ⟨beforeBounds, ⟨lowBelow, restBounds⟩, apart⟩ := bounds
  have afterBounds := (pairwise_append.mp restBounds).2.1
  have inNew : ∀ segment ∈ new, ∀ entry ∈ segment.2, entry ∈ new.flatMap (·.2) :=
    fun segment mem entry listed => mem_flatMap.mpr ⟨segment, mem, listed⟩
  have newLow : ∀ segment ∈ new, low ≤ segment.1 := by
    intro segment mem
    rcases lows segment mem with equal | ⟨entry, listed, equal⟩
    · exact equal.ge
    · exact (above entry listed).trans equal.ge
  have newBelow : ∀ segment ∈ new, ∀ behind ∈ after, segment.1 < behind.1 := by
    intro segment mem behind isAfter
    rcases lows segment mem with equal | ⟨entry, listed, equal⟩
    · exact equal.le.trans_lt (lowBelow behind (by simp [isAfter])).1
    · exact equal.le.trans_lt (below entry listed behind isAfter)
  refine ⟨?_, ?_, ?_⟩
  · rw [pairwise_append, pairwise_append]
    refine ⟨beforeBounds, ⟨inner.bounds, afterBounds, ?_⟩, ?_⟩
    · exact fun segment mem behind isAfter => ⟨newBelow segment mem behind isAfter,
        fun entry listed => below entry (inNew segment mem entry listed) behind isAfter⟩
    · intro front isBefore segment mem
      rcases mem_append.mp mem with isNew | isAfter
      · obtain ⟨lower, entriesLower⟩ := apart front isBefore (low, entries) (by simp)
        exact ⟨lower.trans_le (newLow segment isNew), fun entry listed =>
          (entriesLower entry listed).trans_le (newLow segment isNew)⟩
      · exact apart front isBefore segment (by simp [isAfter])
  · intro segment mem
    simp only [mem_append] at mem
    rcases mem with isBefore | isNew | isAfter
    · exact least segment (by simp [isBefore])
    · exact inner.least segment isNew
    · exact least segment (by simp [isAfter])
  · intro segment mem
    simp only [mem_append] at mem
    rcases mem with isBefore | isNew | isAfter
    · exact sorted segment (by simp [isBefore])
    · exact inner.sorted segment isNew
    · exact sorted segment (by simp [isAfter])

/-- The entries of adjacent segments lie between the bound of the first one and the
bounds behind them. -/
theorem within (rest : List (WithBot K × List (K × V)))
    (segmented : Segmented (before ++ ((low, entries) :: rest ++ after))) :
    Sorted (entries ++ rest.flatMap (·.2)) ∧
      ∀ entry ∈ entries ++ rest.flatMap (·.2), low ≤ (entry.1 : WithBot K) ∧
        ∀ behind ∈ after, (entry.1 : WithBot K) < behind.1 := by
  have inner : Segmented ((low, entries) :: rest) := by
    refine ⟨?_, ?_, ?_⟩
    · exact (pairwise_append.mp (pairwise_append.mp segmented.bounds).2.1).1
    · exact fun segment mem => segmented.least segment
        (mem_append_right _ (mem_append_left _ mem))
    · exact fun segment mem => segmented.sorted segment
        (mem_append_right _ (mem_append_left _ mem))
  have apart := (pairwise_append.mp (pairwise_append.mp segmented.bounds).2.1).2.2
  have all : ((low, entries) :: rest).flatMap (·.2) = entries ++ rest.flatMap (·.2) := rfl
  refine ⟨all ▸ inner.entries_sorted, ?_⟩
  rw [← all]
  intro entry mem
  obtain ⟨segment, isSegment, listed⟩ := mem_flatMap.mp mem
  refine ⟨?_, fun behind isAfter => (apart segment isSegment behind isAfter).2 entry listed⟩
  have atLeast := inner.least segment isSegment entry listed
  rcases mem_cons.mp isSegment with rfl | isRest
  · exact atLeast
  · exact ((pairwise_cons.mp inner.bounds).1 segment isRest).1.le.trans atLeast

section

variable (rest : List (WithBot K × List (K × V)))
  (segmented : Segmented (before ++ ((low, entries) :: rest ++ after)))

include segmented

/-- Adjacent segments are exchanged for one segment over some of their entries. -/
theorem join {kept : List (K × V)} (fewer : kept.Sublist (entries ++ rest.flatMap (·.2))) :
    Segmented (before ++ (low, kept) :: after) := by
  obtain ⟨sorted, inside⟩ := segmented.within
  have within (entry : K × V) (mem : entry ∈ kept) := inside entry (fewer.mem mem)
  refine segmented.exchange rest [(low, kept)]
    (.one (sorted.sublist fewer) fun entry mem => (within entry mem).1) (by simp) ?_ ?_
  · simpa using fun key value mem => (within (key, value) mem).1
  · simpa using fun key value mem => (within (key, value) mem).2

/-- Adjacent segments are exchanged for two segments over some of their entries. -/
theorem divide {key : K} (fewer : (left ++ right).Sublist (entries ++ rest.flatMap (·.2)))
    (nonempty : left ≠ []) (first : right.head?.map (·.1) = some key) :
    Segmented (before ++ (low, left) :: (↑key, right) :: after) := by
  obtain ⟨sorted, inside⟩ := segmented.within
  have within (entry : K × V) (mem : entry ∈ left ++ right) := inside entry (fewer.mem mem)
  have all : [(low, left), (↑key, right)].flatMap (·.2) = left ++ right := by simp
  refine segmented.exchange rest [(low, left), (↑key, right)]
    (.two (sorted.sublist fewer) nonempty (fun entry mem => (within entry mem).1) first)
    (forall_mem_cons.mpr ⟨.inl rfl, forall_mem_singleton.mpr (.inr ?_)⟩)
    (fun entry mem => (within entry (all ▸ mem)).1)
    (fun entry mem => (within entry (all ▸ mem)).2)
  obtain ⟨entry, isFirst, rfl⟩ := map_eq_some_iff.mp first
  exact ⟨entry, all ▸ mem_append_right _ (mem_of_mem_head? isFirst), rfl⟩

end

end Segmented

end Nanograph.Foundation
