import Nanograph.Lsm.Merged

/-!
# The iterator of a scan

The iterator of `nanograph-lsm/src/iterator.rs`. Several sources of entries are
merged with a heap that gives out the lowest key first, and among equal keys the
entry of the first source. All later entries of the same key are skipped, and
deletions are not yielded.
-/

namespace Nanograph.Lsm

open List Foundation

/-- An entry in the heap of an iterator, with the priority of its source. -/
abbrev IteratorEntry := Entry × Nat

/-- What the heap compares: the lowest key, then the first source, then the lowest sequence
number come out first. -/
def IteratorEntry.rank (item : IteratorEntry) : Bytes ×ₗ Nat ×ₗ Nat :=
  toLex (item.1.key, toLex (item.2, item.1.sequence))

/-- An entry comes out of the heap before another one. -/
def YieldedBefore (first second : IteratorEntry) : Prop := first.rank ≤ second.rank

instance : DecidableRel YieldedBefore := fun first second =>
  inferInstanceAs (Decidable (first.rank ≤ second.rank))

instance : Std.Total YieldedBefore := ⟨fun first second => le_total first.rank second.rank⟩

instance : IsTrans IteratorEntry YieldedBefore :=
  ⟨fun _ _ _ before after => le_trans (show IteratorEntry.rank _ ≤ _ from before) after⟩

theorem yieldedBefore_iff {first second : IteratorEntry} :
    YieldedBefore first second ↔ first.1.key < second.1.key ∨ first.1.key = second.1.key ∧
      (first.2 < second.2 ∨ first.2 = second.2 ∧ first.1.sequence ≤ second.1.sequence) := by
  simp only [YieldedBefore, IteratorEntry.rank, Prod.Lex.toLex_le_toLex]

/-- Iterator over the pairs of a scan. -/
structure LSMIterator where
  entries : List (Bytes × Bytes)
  position : Nat
  limit : Option Nat

namespace LSMIterator

def pair? (entry : Entry) : Option (Bytes × Bytes) := entry.value.map (entry.key, ·)

/-- Create an iterator by merging several sources. -/
def merge (sources : List (List Entry)) (reverse : Bool) : LSMIterator :=
  let iterators := sources.zipIdx.filter fun (entries, _) => !entries.isEmpty
  let popped := (mergeLists YieldedBefore
    (iterators.map fun (entries, priority) => entries.map (·, priority))).map (·.1)
  -- The loop keeps and drops entries as the one of a compaction does.
  let result := (CompactionExecutor.deduplicateAndFilter none popped).filterMap pair?
  { entries := if reverse then result.reverse else result
    position := 0
    limit := none }

/-- Set a limit on the number of pairs to return. -/
def setLimit (iterator : LSMIterator) (limit : Nat) : LSMIterator :=
  { iterator with limit := some limit }

/-- Yield the next pair. -/
def pollNext (iterator : LSMIterator) : Option (Bytes × Bytes) × LSMIterator :=
  if iterator.limit.any (iterator.position ≥ ·) then (none, iterator)
  else
    match iterator.entries[iterator.position]? with
    | some entry => (some entry, { iterator with position := iterator.position + 1 })
    | none => (none, iterator)

/-- The pairs of a number of polls, up to the end of the iteration. -/
def pollItems : Nat → LSMIterator → List (Bytes × Bytes)
  | 0, _ => []
  | polls + 1, iterator =>
    match iterator.pollNext with
    | (some entry, next) => entry :: pollItems polls next
    | (none, _) => []

section

variable {iterator : LSMIterator}

/-- The pairs that an iterator has yet to yield. -/
def remaining (iterator : LSMIterator) : List (Bytes × Bytes) :=
  (upToLimit iterator.limit iterator.entries).drop iterator.position

/-- A poll yields the first of the pairs that remain. -/
theorem pollNext_eq :
    iterator.pollNext =
      match iterator.remaining with
      | [] => (none, iterator)
      | entry :: _ => (some entry, { iterator with position := iterator.position + 1 }) := by
  have first : iterator.remaining.head? = if iterator.limit.any (iterator.position ≥ ·) then none
      else iterator.entries[iterator.position]? := by
    rw [remaining, head?_drop]
    cases iterator.limit with
    | none => rfl
    | some limit =>
      simp only [upToLimit, getElem?_take, Option.any_some]
      by_cases reached : limit ≤ iterator.position
      · simp [reached, Nat.not_lt.mpr reached]
      · simp [reached, Nat.not_le.mp reached]
  rw [pollNext]
  split
  next reached =>
    rw [if_pos reached, head?_eq_none_iff] at first
    rw [first]
  next unreached =>
    rw [if_neg unreached] at first
    rw [← first]
    cases iterator.remaining <;> rfl

/-- Enough polls yield all that remains. -/
theorem pollItems_eq {polls : Nat} (enough : iterator.remaining.length ≤ polls) :
    pollItems polls iterator = iterator.remaining := by
  induction polls generalizing iterator with
  | zero => rw [length_eq_zero_iff.mp (Nat.le_zero.mp enough)]; rfl
  | succ polls ih =>
    rw [pollItems, pollNext_eq]
    cases isRemaining : iterator.remaining with
    | nil => rfl
    | cons entry rest =>
      have advanced : { iterator with position := iterator.position + 1 }.remaining = rest := by
        have tail := congrArg List.tail isRemaining
        rwa [remaining, tail_drop] at tail
      rw [isRemaining, length_cons] at enough
      simp only
      rw [ih (by rw [advanced]; omega), advanced]

end

section

variable {sources : List (List Entry)}

/-- Sources without entries do not matter. -/
theorem firstHit_nonempty (key : Bytes) :
    firstHit Entry.key ((sources.zipIdx.filter fun (entries, _) => !entries.isEmpty).map Prod.fst)
      key = firstHit Entry.key sources key := by
  have kept : (sources.zipIdx.filter fun (entries, _) => !entries.isEmpty).map Prod.fst =
      sources.filter fun entries => !entries.isEmpty := by
    rw [← zipIdx_map_fst 0 sources, filter_map]
    simp [Function.comp_def]
  rw [kept, firstHit_eq_itemAt_flatten, flatten_filter_not_isEmpty, firstHit_eq_itemAt_flatten]

/-- The entries that come out of the heap: by key, and the one of the first source first. -/
theorem popped_spec (ascending : ∀ entries ∈ sources, Ascending entries) :
    let popped := (mergeLists YieldedBefore
      ((sources.zipIdx.filter fun (entries, _) => !entries.isEmpty).map
        fun (entries, priority) => entries.map (·, priority))).map Prod.fst
    popped.Pairwise (·.key ≤ ·.key) ∧
      ∀ key, entryAt popped key = firstHit Entry.key sources key := by
  have sorted : ∀ source ∈ sources.zipIdx.filter fun (entries, _) => !entries.isEmpty,
      Ascending source.1 := fun source mem =>
    ascending source.1 (fst_mem_of_mem_zipIdx (mem_filter.mp mem).1)
  constructor
  · refine pairwise_map.mpr ((mergeLists_sorted fun list mem => ?_).imp fun before => ?_)
    · obtain ⟨source, isSource, rfl⟩ := mem_map.mp mem
      refine pairwise_map.mpr ((sorted source isSource).imp fun less => ?_)
      exact yieldedBefore_iff.mpr (.inl less)
    · rcases yieldedBefore_iff.mp before with less | ⟨same, -⟩
      · exact less.le
      · exact same.le
  · intro key
    rw [← firstHit_nonempty]
    refine itemAt_mergeLists (fun first second before same => ?_) (fun first second less =>
      yieldedBefore_iff.mpr (.inl less)) ?_ sorted
    · rcases yieldedBefore_iff.mp before with less | ⟨-, earlier | ⟨equal, -⟩⟩
      · exact absurd same less.ne
      · exact earlier.le
      · exact equal.le
    · have increasing : sources.zipIdx.Pairwise (·.2 < ·.2) := by
        refine pairwise_map.mp (?_ : (sources.zipIdx.map Prod.snd).Pairwise (· < ·))
        rw [zipIdx_map_snd]
        exact pairwise_lt_range'
      exact increasing.filter _

/-- A merge has the pairs of all keys whose entry in the first source that has one is not a
deletion, in the order of their keys. -/
theorem merge_spec (ascending : ∀ entries ∈ sources, Ascending entries) :
    KeySorted Prod.fst (merge sources false).entries ∧
      ∀ key value, (key, value) ∈ (merge sources false).entries ↔
        (firstHit Entry.key sources key).bind (·.value) = some value := by
  obtain ⟨sorted, first⟩ := popped_spec ascending
  have kept := (@CompactionExecutor.deduplicateAndFilter_ascending _ none sorted (by simp)).1
  have found (key : Bytes) :=
    @CompactionExecutor.entryAt_deduplicateAndFilter _ none sorted (by simp) key
  simp only [reduceCtorEq, if_false, first] at found
  simp only [merge, Bool.false_eq_true, if_false]
  generalize CompactionExecutor.deduplicateAndFilter none _ = entries at kept found
  constructor
  · refine List.Pairwise.filterMap _ (fun entry other less item isPair second isSecond => ?_) kept
    obtain ⟨value, -, rfl⟩ := Option.map_eq_some_iff.mp isPair
    obtain ⟨otherValue, -, rfl⟩ := Option.map_eq_some_iff.mp isSecond
    exact less
  · intro key value
    have live : (firstHit Entry.key sources key).bind (·.value) =
        (entryAt entries key).bind (·.value) := by
      rw [found]
      cases hit : firstHit Entry.key sources key with
      | none => rfl
      | some entry => cases isValue : entry.value <;> simp [Option.filter, isValue]
    rw [live, mem_filterMap]
    constructor
    · rintro ⟨entry, mem, isPair⟩
      obtain ⟨own, isValue, same⟩ := Option.map_eq_some_iff.mp isPair
      cases same
      rw [entryAt, kept.itemAt_eq mem]
      exact isValue
    · intro hit
      obtain ⟨entry, isEntry, isValue⟩ := Option.bind_eq_some_iff.mp hit
      obtain ⟨mem, rfl⟩ := mem_of_itemAt isEntry
      exact ⟨entry, mem, by rw [pair?, isValue]; rfl⟩

/-- A merge of sources in order yields, by ascending keys or by descending ones when it is
reversed, exactly the pairs of the keys whose entry in the first source that has one is not a
deletion. -/
theorem merge_yields (sources : List (List Entry)) (reverse : Bool)
    (ascending : ∀ entries ∈ sources, Ascending entries) :
    ∃ pairs, (∀ polls, pairs.length ≤ polls → (merge sources reverse).pollItems polls = pairs) ∧
      (pairs.Pairwise fun first second =>
        if reverse then second.1 < first.1 else first.1 < second.1) ∧
      ∀ key value, (key, value) ∈ pairs ↔
        (firstHit Entry.key sources key).bind (·.value) = some value := by
  obtain ⟨sorted, members⟩ := merge_spec ascending
  refine ⟨(merge sources reverse).entries, fun polls enough => pollItems_eq enough, ?_⟩
  cases reverse with
  | false => exact ⟨by simpa [KeySorted] using sorted, members⟩
  | true =>
    have turned : (merge sources true).entries = (merge sources false).entries.reverse := rfl
    refine ⟨?_, fun key value => ?_⟩
    · rw [turned, pairwise_reverse]
      simpa [KeySorted] using sorted
    · rw [turned, mem_reverse, members]

/-- The first source deletes a key that the second one has. -/
theorem merge_yields_not_deleted :
    let sources : List (List Entry) :=
      [[⟨[1], none, 5, none⟩, ⟨[2], some [7], 4, none⟩], [⟨[1], some [8], 9, none⟩]]
    ∃ pairs, (∀ polls, pairs.length ≤ polls → (merge sources true).pollItems polls = pairs) ∧
      (pairs.Pairwise fun first second =>
        if true then second.1 < first.1 else first.1 < second.1) ∧
      ∀ key value, (key, value) ∈ pairs ↔
        (firstHit Entry.key sources key).bind (·.value) = some value :=
  merge_yields _ true (by simp only [Ascending, KeySorted]; decide)

end

end LSMIterator

end Nanograph.Lsm
