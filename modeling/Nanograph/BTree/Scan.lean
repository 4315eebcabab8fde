import Nanograph.BTree.Iterator
import Nanograph.BTree.Links
import Nanograph.BTree.Map

/-!
# What an iterator yields

An iterator stands at a place of the row of leaves with some entries still to
come. Each poll takes the first of them, so draining the iterator gives these
entries up to its end bound and its limit. Both directions need a row without
empty leaves, and the reverse direction needs the `prev` links.
-/

namespace Nanograph.BTree

open List BPlusTree Foundation BPlusTreeIterator

variable {K V : Type} [LinearOrder K]

/-- What is left of the limit after `count` entries. -/
def remaining (iterator : BPlusTreeIterator K V) : Option Nat :=
  iterator.limit.map (· - iterator.count)

/-- `Coming iterator rest` says which entries an iterator has still to come. A poll
takes the first one, unless the limit is reached or the entry is not wanted. -/
def Polls (tree : BPlusTree K V) (wanted : K → Bool)
    (Coming : BPlusTreeIterator K V → List (K × V) → Prop) : Prop :=
  ∀ iterator rest, Coming iterator rest → ∃ item next,
    pollNext iterator tree = .ok (item, next) tree ∧
      if iterator.limit.any (· ≤ iterator.count) then item = none
      else match rest with
        | [] => item = none
        | entry :: others =>
          if wanted entry.1 then
            item = some entry ∧ Coming next others ∧ next.limit = iterator.limit ∧
              next.count = iterator.count + 1
          else item = none

variable {iterator : BPlusTreeIterator K V} {entries : List (K × V)}

omit [LinearOrder K] in
/-- Nothing comes once the limit is reached. -/
theorem upToLimit_reached (reached : iterator.limit.any (· ≤ iterator.count) = true)
    (entries : List (K × V)) : upToLimit (remaining iterator) entries = [] := by
  cases limitEq : iterator.limit with
  | none => simp [limitEq] at reached
  | some limit =>
    have done : limit - iterator.count = 0 := by
      simp only [limitEq, Option.any_some, decide_eq_true_eq] at reached
      omega
    simp [upToLimit, remaining, limitEq, done]

omit [LinearOrder K] in
/-- One entry is taken off what is left of the limit. -/
theorem upToLimit_cons {next : BPlusTreeIterator K V}
    (unreached : ¬ iterator.limit.any (· ≤ iterator.count) = true)
    (limitEq : next.limit = iterator.limit) (countEq : next.count = iterator.count + 1)
    (entry : K × V) (entries : List (K × V)) :
    upToLimit (remaining iterator) (entry :: entries) =
      entry :: upToLimit (remaining next) entries := by
  rw [remaining, remaining, limitEq, countEq]
  cases isLimit : iterator.limit with
  | none => rfl
  | some limit =>
    have split : limit - iterator.count = limit - (iterator.count + 1) + 1 := by
      simp only [isLimit, Option.any_some, decide_eq_true_eq] at unreached
      omega
    simp only [upToLimit, Option.map_some, split, take_succ_cons]

/-- Draining takes the wanted entries up to the limit. -/
theorem drain_eq {tree : BPlusTree K V} {wanted : K → Bool}
    {Coming : BPlusTreeIterator K V → List (K × V) → Prop} (polls : Polls tree wanted Coming)
    {rest : List (K × V)} (coming : Coming iterator rest) (bound : Nat)
    (enough : (upToLimit (remaining iterator) (rest.takeWhile fun entry => wanted entry.1)).length <
      bound) :
    drain bound iterator tree =
      .ok (upToLimit (remaining iterator) (rest.takeWhile fun entry => wanted entry.1)) tree := by
  induction bound generalizing iterator rest with
  | zero => omega
  | succ bound ih =>
    obtain ⟨item, next, polled, outcome⟩ := polls iterator rest coming
    rw [drain, run_bind polled]
    split at outcome
    next reached =>
      rw [outcome, upToLimit_reached reached]
      rfl
    next unreached =>
      cases rest with
      | nil =>
        obtain rfl : item = none := outcome
        cases limitEq : remaining iterator <;> simp [upToLimit]
      | cons entry others =>
        simp only at outcome
        split at outcome
        next isWanted =>
          obtain ⟨rfl, nextComing, limitEq, countEq⟩ := outcome
          rw [takeWhile_cons_of_pos (by simpa using isWanted)] at enough ⊢
          rw [upToLimit_cons unreached limitEq countEq] at enough ⊢
          have drained := ih nextComing (by simpa using enough)
          simp only
          rw [run_bind drained]
          rfl
        next unwanted =>
          rw [outcome, takeWhile_cons_of_neg (by simpa using unwanted)]
          cases limitEq : remaining iterator <;> simp [upToLimit]

/-- The iterator after it has moved to a leaf. -/
def movedTo (iterator : BPlusTreeIterator K V) (place : WithBot K × LeafNode K V) (index : Nat) :
    BPlusTreeIterator K V :=
  { iterator with
    currentLeaf := some place.2.id
    currentEntries := place.2.entries
    currentIndex := some index }

section

variable {iterator : BPlusTreeIterator K V} {leafId : BTreeNodeId} {entry : K × V}
  {place : WithBot K × LeafNode K V} {index : Nat} (tree : BPlusTree K V) (bound : Nat)

/-- A round that finds the limit reached. -/
theorem pollLoop_reached (reached : iterator.limit.any (· ≤ iterator.count) = true) :
    pollLoop (bound + 1) iterator tree = .ok (none, iterator) tree := by
  rw [pollLoop, if_pos reached]
  rfl

variable (unreached : ¬ iterator.limit.any (· ≤ iterator.count) = true)

include unreached

/-- A round without a leaf, or with an empty one. -/
theorem pollLoop_over (finished : iterator.currentLeaf = none ∨ iterator.currentEntries = []) :
    ∃ next, pollLoop (bound + 1) iterator tree = .ok (none, next) tree := by
  rw [pollLoop, if_neg unreached]
  cases leafEq : iterator.currentLeaf with
  | none => exact ⟨iterator, rfl⟩
  | some leafId =>
    have empty : iterator.currentEntries = [] := finished.resolve_left (by simp [leafEq])
    simp only [empty, isEmpty_nil, if_true]
    exact ⟨iterator.ended, rfl⟩

/-- A round that stands at an entry. -/
theorem pollLoop_entry (leaf : iterator.currentLeaf = some leafId)
    (found : iterator.entryAtIndex = some entry) :
    pollLoop (bound + 1) iterator tree =
      .ok (if !iterator.reverse && !iterator.isWithinEndBound entry.1 then (none, iterator.ended)
        else (some entry, iterator.advance)) tree := by
  have nonempty : iterator.currentEntries ≠ [] := by
    intro empty
    simp [entryAtIndex, empty] at found
  rw [pollLoop, if_neg unreached, leaf]
  simp only [found, isEmpty_eq_false_iff.mpr nonempty, Bool.false_eq_true, if_false]
  split <;> rfl

section

variable (leaf : iterator.currentLeaf = some leafId) (nonempty : iterator.currentEntries ≠ [])
  (past : iterator.entryAtIndex = none)

include leaf nonempty past

/-- A round that moves on to a leaf with entries. -/
theorem pollLoop_move (linked : iterator.nextLeaf leafId tree = .ok (some place.2.id) tree)
    (read : getLeafEntries place.2.id tree = .ok place.2.entries tree) (more : place.2.entries ≠ [])
    (start : (if iterator.reverse then place.2.entries.length - 1 else 0) = index) :
    pollLoop (bound + 1) iterator tree = pollLoop bound (movedTo iterator place index) tree := by
  rw [pollLoop, if_neg unreached, leaf]
  simp only [past, isEmpty_eq_false_iff.mpr nonempty, Bool.false_eq_true, if_false]
  rw [run_bind linked]
  simp only
  rw [run_bind read]
  simp only [isEmpty_eq_false_iff.mpr more, Bool.false_eq_true, if_false, start]
  rfl

/-- A round at the end of the last leaf. -/
theorem pollLoop_last (linked : iterator.nextLeaf leafId tree = .ok none tree) :
    pollLoop (bound + 1) iterator tree = .ok (none, iterator.ended) tree := by
  rw [pollLoop, if_neg unreached, leaf]
  simp only [past, isEmpty_eq_false_iff.mpr nonempty, Bool.false_eq_true, if_false]
  rw [run_bind linked]
  rfl

end

end

section

variable {tree : BPlusTree K V} {leaves : LeafRow K V} {levels : List (Level K)}
  (stands : Stands tree leaves levels) {place : WithBot K × LeafNode K V} (mem : place ∈ leaves)

include stands mem

omit [LinearOrder K]

theorem Stands.getLeafEntries :
    BPlusTree.getLeafEntries place.2.id tree = .ok place.2.entries tree := by
  rw [BPlusTree.getLeafEntries, run_bind (run_getNode (stands.leafNode _ mem))]
  rfl

theorem Stands.getNextLeaf : BPlusTree.getNextLeaf place.2.id tree = .ok place.2.next tree := by
  rw [BPlusTree.getNextLeaf, run_bind (run_getNode (stands.leafNode _ mem))]
  rfl

theorem Stands.getPrevLeaf : BPlusTree.getPrevLeaf place.2.id tree = .ok place.2.prev tree := by
  rw [BPlusTree.getPrevLeaf, run_bind (run_getNode (stands.leafNode _ mem))]
  rfl

end

/-- No leaf is empty, unless it is the only one. -/
def Gapless (leaves : LeafRow K V) : Prop :=
  1 < leaves.length → ∀ place ∈ leaves, place.2.entries ≠ []

/-- The iterator has read the leaf between two parts of the row. -/
structure InLeaf (leaves : LeafRow K V) (iterator : BPlusTreeIterator K V) (before : LeafRow K V)
    (place : WithBot K × LeafNode K V) (after : LeafRow K V) : Prop where
  cut : leaves = before ++ place :: after
  leaf : iterator.currentLeaf = some place.2.id
  entries : iterator.currentEntries = place.2.entries

section

variable {tree : BPlusTree K V} {leaves before after : LeafRow K V} {levels : List (Level K)}
  {place : WithBot K × LeafNode K V} {iterator : BPlusTreeIterator K V} {index : Nat}

/-- A forward iterator in a row and the entries it has still to come. -/
inductive ForwardAt (leaves : LeafRow K V) (endBound : Bound K) :
    BPlusTreeIterator K V → List (K × V) → Prop where
  | intro {before after : LeafRow K V} {place : WithBot K × LeafNode K V} {index : Nat}
      {iterator : BPlusTreeIterator K V} (inLeaf : InLeaf leaves iterator before place after)
      (position : iterator.currentIndex = some index) (forward : iterator.reverse = false)
      (bound : iterator.endBound = endBound) :
      ForwardAt leaves endBound iterator (place.2.entries.drop index ++ LeafRow.entries after)

/-- A forward iterator that stands at an entry takes it if it is within the end bound. -/
theorem ForwardAt.entry (tree : BPlusTree K V) (bound : Nat) {endBound : Bound K} {entry : K × V}
    (inLeaf : InLeaf leaves iterator before place after)
    (position : iterator.currentIndex = some index) (forward : iterator.reverse = false)
    (endEq : iterator.endBound = endBound)
    (unreached : ¬ iterator.limit.any (· ≤ iterator.count) = true)
    (found : place.2.entries[index]? = some entry) :
    ∃ item next, pollLoop (bound + 1) iterator tree = .ok (item, next) tree ∧
      if endBound.upToEnd entry.1 then
        item = some entry ∧ ForwardAt leaves endBound next
            (place.2.entries.drop (index + 1) ++ LeafRow.entries after) ∧
          next.limit = iterator.limit ∧ next.count = iterator.count + 1
      else item = none := by
  have current : iterator.entryAtIndex = some entry := by
    rw [entryAtIndex, position, inLeaf.entries, Option.bind_some, found]
  have polled := pollLoop_entry tree bound unreached inLeaf.leaf current
  rw [isWithinEndBound, endEq, forward, Bool.not_false, Bool.true_and] at polled
  by_cases within : endBound.upToEnd entry.1 = true
  · rw [within, Bool.not_true, if_neg (by simp)] at polled
    refine ⟨some entry, iterator.advance, polled, ?_⟩
    rw [if_pos within]
    refine ⟨rfl, .intro ⟨inLeaf.cut, inLeaf.leaf, inLeaf.entries⟩ ?_ forward endEq, rfl, rfl⟩
    simp [advance, forward, position]
  · rw [Bool.eq_false_of_not_eq_true within, Bool.not_false, if_pos rfl] at polled
    exact ⟨none, iterator.ended, polled, by rw [if_neg within]⟩

/-- A forward iterator goes through a row without empty leaves. -/
theorem forward_polls (stands : Stands tree leaves levels) (linked : LinkedTo none leaves.nexts)
    (gapless : Gapless leaves) (endBound : Bound K) :
    Polls tree endBound.upToEnd (ForwardAt leaves endBound) := by
  rintro iterator rest ⟨inLeaf, position, forward, endEq⟩
  rename_i before after place index
  obtain ⟨cut, leaf, entries⟩ := inLeaf
  by_cases reached : iterator.limit.any (· ≤ iterator.count) = true
  · exact ⟨none, iterator, pollLoop_reached _ _ reached, by rw [if_pos reached]⟩
  simp only [if_neg reached]
  have mem : place ∈ leaves := by simp [cut]
  cases found : place.2.entries[index]? with
  | some entry =>
    obtain ⟨inside, atIndex⟩ := List.getElem?_eq_some_iff.mp found
    rw [drop_eq_getElem_cons inside, atIndex, cons_append]
    exact ForwardAt.entry tree 1 ⟨cut, leaf, entries⟩ position forward endEq reached found
  | none =>
    have past : iterator.entryAtIndex = none := by
      rw [entryAtIndex, position, entries, Option.bind_some, found]
    have dropped : place.2.entries.drop index = [] :=
      drop_eq_nil_of_le (getElem?_eq_none_iff.mp found)
    rw [dropped, nil_append]
    cases after with
    | nil =>
      by_cases empty : iterator.currentEntries = []
      · obtain ⟨next, polled⟩ := pollLoop_over tree 1 reached (Or.inr empty)
        exact ⟨none, next, polled, rfl⟩
      · have read : iterator.nextLeaf place.2.id tree = .ok none tree := by
          rw [nextLeaf, forward, if_neg (by simp), stands.getNextLeaf mem]
          rw [LeafRow.next_eq (cut ▸ linked)]
          rfl
        exact ⟨none, _, pollLoop_last tree 1 reached leaf empty past read, rfl⟩
    | cons behind others =>
      have several : 1 < leaves.length := by
        rw [cut, length_append, length_cons, length_cons]
        omega
      have behindMember : behind ∈ leaves := by simp [cut]
      have more := gapless several behind behindMember
      obtain ⟨entry, rest, entriesEq⟩ := exists_cons_of_ne_nil more
      have read : iterator.nextLeaf place.2.id tree = .ok (some behind.2.id) tree := by
        rw [nextLeaf, forward, if_neg (by simp), stands.getNextLeaf mem]
        rw [LeafRow.next_eq (cut ▸ linked)]
        rfl
      have moved := pollLoop_move tree 1 reached leaf (entries ▸ gapless several place mem)
        past read (stands.getLeafEntries behindMember) more (if_neg (by simp [forward]))
      have arrived : InLeaf leaves (movedTo iterator behind 0) (before ++ [place]) behind
          others := ⟨by simpa using cut, rfl, rfl⟩
      have first : behind.2.entries[0]? = some entry := by rw [entriesEq]; rfl
      obtain ⟨item, next, polled, outcome⟩ :=
        ForwardAt.entry tree 0 arrived rfl forward endEq reached first
      refine ⟨item, next, moved.trans polled, ?_⟩
      simpa [entriesEq, movedTo] using outcome

theorem Sound.getLeftmostLeaf {first : WithBot K × LeafNode K V}
    {rest : LeafRow K V} (sound : Sound tree (first :: rest) levels) :
    BPlusTree.getLeftmostLeaf tree = .ok first.2.id tree := by
  rw [BPlusTree.getLeftmostLeaf, run_bind run_get, sound.leftmost]
  rfl

/-- The start of a scan within the leaf of its key. -/
theorem Window.drop_eq {before after : List (K × V)} {key : K} {held : Option V}
    (window : Window entries key before held after) :
    entries.drop before.length = held.toList.map (key, ·) ++ after := by
  rw [window.cut, drop_left]

/-- A scan finds the leaf of its key and the place of the key in the leaf and in the row. -/
theorem Sound.seek (sound : Sound tree leaves levels) (key : K) :
    ∃ before place after front held back, leaves = before ++ place :: after ∧
      BPlusTree.findLeaf tree.loopBound tree.rootId key tree = .ok place.2.id tree ∧
      BPlusTree.getLeafEntries place.2.id tree = .ok place.2.entries tree ∧
      Window place.2.entries key front held back ∧
      binarySearchBy (fun entry => cmp entry.1 key) place.2.entries =
        (if held.isSome then .ok front.length else .error front.length) ∧
      Window leaves.entries key (LeafRow.entries before ++ front) held
        (back ++ LeafRow.entries after) := by
  obtain ⟨before, low, leaf, after, rfl, least, next, found⟩ :=
    sound.stands.findLeaf (items_ordered sound.segmented) key
  have sorted : Sorted leaf.entries := sound.segmented.sorted (low, leaf.entries) (by simp)
  obtain ⟨front, held, back, window⟩ := exists_window sorted key
  exact ⟨before, (low, leaf), after, front, held, back, rfl, found,
    sound.stands.getLeafEntries (by simp), window, LeafNode.findKeyIndex_window window,
    row_window _ sound.segmented least next window⟩

/-- A forward iterator starts before the entries its start bound admits. -/
theorem forward_start (sound : Sound tree leaves levels) (startBound endBound : Bound K)
    (limit : Option Nat) :
    ∃ iterator, BPlusTreeIterator.new startBound endBound false limit tree = .ok iterator tree ∧
      ForwardAt leaves endBound iterator
        (leaves.entries.filter fun entry => startBound.fromStart entry.1) ∧
      iterator.limit = limit ∧ iterator.count = 0 := by
  suffices positioned : ∃ before place after index, leaves = before ++ place :: after ∧
      findForwardStart startBound tree = .ok (some place.2.id, place.2.entries, index) tree ∧
      place.2.entries.drop index ++ LeafRow.entries after =
        leaves.entries.filter fun entry => startBound.fromStart entry.1 by
    obtain ⟨before, place, after, index, cut, found, restEq⟩ := positioned
    refine ⟨{ currentLeaf := some place.2.id, currentEntries := place.2.entries,
              currentIndex := some index, endBound := endBound, reverse := false, limit := limit,
              count := 0 }, ?_, ?_, rfl, rfl⟩
    · rw [BPlusTreeIterator.new, if_neg (by simp), run_bind found]
      rfl
    · rw [← restEq]
      exact .intro ⟨cut, rfl, rfl⟩ rfl rfl rfl
  cases startBound with
  | unbounded =>
    obtain ⟨first, rest, rfl⟩ := exists_cons_of_ne_nil sound.stands.leaves_ne_nil
    refine ⟨[], first, rest, 0, rfl, ?_, ?_⟩
    · rw [findForwardStart, run_bind sound.getLeftmostLeaf,
        run_bind (sound.stands.getLeafEntries (by simp))]
      rfl
    · simp [Bound.fromStart]
  | included key =>
    obtain ⟨before, place, after, front, held, back, rfl, found, read, window, searched, row⟩ :=
      sound.seek key
    refine ⟨before, place, after, front.length, rfl, ?_, ?_⟩
    · rw [findForwardStart, run_bind run_get, run_bind found, run_bind read, searched]
      cases held <;> rfl
    · rw [row.filter_included, Window.drop_eq window]
      simp
  | excluded key =>
    obtain ⟨before, place, after, front, held, back, rfl, found, read, window, searched, row⟩ :=
      sound.seek key
    have dropped := Window.drop_eq window
    rw [row.filter_excluded]
    cases held with
    | some value =>
      refine ⟨before, place, after, front.length + 1, rfl, ?_, ?_⟩
      · have here : place.2.entries[front.length]? = some (key, value) := by simp [window.cut]
        rw [findForwardStart, run_bind run_get, run_bind found, run_bind read, searched]
        simp only [Option.isSome_some, if_true, here, Option.any_some, decide_true]
        rfl
      · rw [← drop_drop, dropped]
        rfl
    | none =>
      refine ⟨before, place, after, front.length, rfl, ?_, ?_⟩
      · have here : place.2.entries[front.length]?.any (·.1 = key) = false := by
          rw [window.cut]
          cases back with
          | nil => simp
          | cons entry rest => simpa using (window.greater entry (by simp)).ne'
        rw [findForwardStart, run_bind run_get, run_bind found, run_bind read, searched]
        simp only [Option.isSome_none, Bool.false_eq_true, if_false, here]
        rfl
      · rw [dropped]
        rfl

/-- A reverse iterator in a row and the entries it has still to come. -/
inductive ReverseAt (leaves : LeafRow K V) : BPlusTreeIterator K V → List (K × V) → Prop where
  | within {before after : LeafRow K V} {place : WithBot K × LeafNode K V} {index : Nat}
      {iterator : BPlusTreeIterator K V} (inLeaf : InLeaf leaves iterator before place after)
      (position : iterator.currentIndex = some index) (inside : index < place.2.entries.length)
      (reverse : iterator.reverse = true) :
      ReverseAt leaves iterator
        ((place.2.entries.take (index + 1)).reverse ++ (LeafRow.entries before).reverse)
  | exhausted {before after : LeafRow K V} {place : WithBot K × LeafNode K V}
      {iterator : BPlusTreeIterator K V} (inLeaf : InLeaf leaves iterator before place after)
      (nonempty : place.2.entries ≠ []) (position : iterator.currentIndex = none)
      (reverse : iterator.reverse = true) :
      ReverseAt leaves iterator (LeafRow.entries before).reverse
  | finished {iterator : BPlusTreeIterator K V}
      (finished : iterator.currentLeaf = none ∨ iterator.currentEntries = []) :
      ReverseAt leaves iterator []

/-- A reverse iterator that stands at an entry takes it. -/
theorem ReverseAt.entry (tree : BPlusTree K V) (bound : Nat)
    (inLeaf : InLeaf leaves iterator before place after)
    (position : iterator.currentIndex = some index) (inside : index < place.2.entries.length)
    (reverse : iterator.reverse = true)
    (unreached : ¬ iterator.limit.any (· ≤ iterator.count) = true) :
    ∃ entry next, pollLoop (bound + 1) iterator tree = .ok (some entry, next) tree ∧
      place.2.entries.take (index + 1) = place.2.entries.take index ++ [entry] ∧
      ReverseAt leaves next
        ((place.2.entries.take index).reverse ++ (LeafRow.entries before).reverse) ∧
      next.limit = iterator.limit ∧ next.count = iterator.count + 1 := by
  have current : iterator.entryAtIndex = some place.2.entries[index] := by
    rw [entryAtIndex, position, inLeaf.entries, Option.bind_some, getElem?_eq_getElem inside]
  have polled := pollLoop_entry tree bound unreached inLeaf.leaf current
  rw [reverse, Bool.not_true, Bool.false_and, if_neg (by simp)] at polled
  refine ⟨_, iterator.advance, polled, take_succ_eq_append_getElem inside, ?_, rfl, rfl⟩
  have advanced : InLeaf leaves iterator.advance before place after :=
    ⟨inLeaf.cut, inLeaf.leaf, inLeaf.entries⟩
  cases index with
  | zero =>
    refine .exhausted advanced (ne_nil_of_length_pos inside) ?_ reverse
    simp [advance, reverse, position]
  | succ index =>
    refine .within advanced ?_ (by omega) reverse
    simp [advance, reverse, position]

/-- A reverse iterator goes back through a row without empty leaves. -/
theorem reverse_polls (stands : Stands tree leaves levels) (linked : LinkedFrom none leaves.prevs)
    (gapless : Gapless leaves) : Polls tree (fun _ => true) (ReverseAt leaves) := by
  intro iterator rest coming
  by_cases reached : iterator.limit.any (· ≤ iterator.count) = true
  · exact ⟨none, iterator, pollLoop_reached _ _ reached, by rw [if_pos reached]⟩
  simp only [if_neg reached, if_true]
  cases coming with
  | within inLeaf position inside reverse =>
    obtain ⟨entry, next, polled, taken, coming, limitEq, countEq⟩ :=
      ReverseAt.entry tree 1 inLeaf position inside reverse reached
    refine ⟨some entry, next, polled, ?_⟩
    rw [taken, reverse_append, reverse_singleton, append_assoc, singleton_append]
    exact ⟨rfl, coming, limitEq, countEq⟩
  | @exhausted before after place _ inLeaf nonempty position reverse =>
    obtain ⟨cut, leaf, entries⟩ := inLeaf
    have mem : place ∈ leaves := by simp [cut]
    have past : iterator.entryAtIndex = none := by rw [entryAtIndex, position, Option.bind_none]
    have here : iterator.currentEntries ≠ [] := entries ▸ nonempty
    have read : iterator.nextLeaf place.2.id tree = .ok (lastOf before.prevs none) tree := by
      rw [nextLeaf, reverse, if_pos rfl, stands.getPrevLeaf mem, LeafRow.prev_eq (cut ▸ linked)]
    rcases eq_nil_or_concat before with rfl | ⟨earlier, last, rfl⟩
    · exact ⟨none, _, pollLoop_last tree 1 reached leaf here past read, rfl⟩
    · rw [concat_eq_append] at cut read ⊢
      have several : 1 < leaves.length := by
        rw [cut]
        simp only [length_append, length_cons]
        omega
      have lastMember : last ∈ leaves := by simp [cut]
      have more := gapless several last lastMember
      have positive := length_pos_of_ne_nil more
      have back : lastOf (LeafRow.prevs (earlier ++ [last])) none = some last.2.id := by
        simp [lastOf]
      rw [back] at read
      have moved := pollLoop_move tree 1 reached leaf here past read
        (stands.getLeafEntries lastMember) more (if_pos reverse)
      have arrived : InLeaf leaves (movedTo iterator last (last.2.entries.length - 1)) earlier
          last (place :: after) := ⟨by simpa using cut, rfl, rfl⟩
      obtain ⟨entry, next, polled, taken, coming, limitEq, countEq⟩ :=
        ReverseAt.entry tree 0 arrived rfl (by omega) reverse reached
      refine ⟨some entry, next, moved.trans polled, ?_⟩
      have whole : last.2.entries = last.2.entries.take (last.2.entries.length - 1) ++ [entry] := by
        rw [← taken, Nat.sub_add_cancel positive, take_length]
      have listed : (LeafRow.entries (earlier ++ [last])).reverse =
          entry :: ((last.2.entries.take (last.2.entries.length - 1)).reverse ++
            (LeafRow.entries earlier).reverse) := by
        rw [LeafRow.entries_append, LeafRow.entries_cons, LeafRow.entries_nil, append_nil]
        nth_rewrite 1 [whole]
        simp
      rw [listed]
      exact ⟨rfl, coming, limitEq, countEq⟩
  | finished done =>
    obtain ⟨next, polled⟩ := pollLoop_over tree 1 reached done
    exact ⟨none, next, polled, rfl⟩

omit [LinearOrder K] in
/-- The `next` links lead to the last leaf. -/
theorem Stands.findRightmostLeaf (stands : Stands tree leaves levels)
    (linked : LinkedTo none leaves.nexts) (before : LeafRow K V)
    (cut : leaves = before ++ place :: after) {bound : Nat} (enough : after.length < bound) :
    ∃ front last, leaves = front ++ [last] ∧
      BPlusTreeIterator.findRightmostLeaf bound place.2.id tree = .ok last.2.id tree := by
  induction after generalizing before place bound with
  | nil =>
    obtain ⟨bound, rfl⟩ : ∃ smaller, bound = smaller + 1 := ⟨bound - 1, by omega⟩
    refine ⟨before, place, cut, ?_⟩
    rw [BPlusTreeIterator.findRightmostLeaf, run_bind (stands.getNextLeaf (by simp [cut])),
      LeafRow.next_eq (cut ▸ linked)]
    rfl
  | cons behind rest ih =>
    obtain ⟨bound, rfl⟩ : ∃ smaller, bound = smaller + 1 := ⟨bound - 1, by omega⟩
    obtain ⟨front, last, lastCut, found⟩ := ih (before ++ [place])
      (show leaves = before ++ [place] ++ behind :: rest by simpa using cut)
      (show rest.length < bound by simpa using enough)
    refine ⟨front, last, lastCut, ?_⟩
    rw [BPlusTreeIterator.findRightmostLeaf, run_bind (stands.getNextLeaf (by simp [cut])),
      LeafRow.next_eq (cut ▸ linked)]
    exact found

/-- A reverse iterator at a position of the row. -/
def reverseFrom (position : Position K V) (endBound : Bound K) (limit : Option Nat) :
    BPlusTreeIterator K V :=
  { currentLeaf := position.1, currentEntries := position.2.1
    currentIndex := some position.2.2, endBound, reverse := true, limit, count := 0 }

omit [LinearOrder K] in
theorem reverseFrom_within (cut : leaves = before ++ place :: after)
    (inside : index < place.2.entries.length) (endBound : Bound K) (limit : Option Nat) :
    ReverseAt leaves (reverseFrom (some place.2.id, place.2.entries, index) endBound limit)
      (LeafRow.entries before ++ place.2.entries.take (index + 1)).reverse := by
  rw [reverse_append]
  exact .within ⟨cut, rfl, rfl⟩ rfl inside rfl

omit [LinearOrder K] in
/-- The end of a leaf is a place in front of everything up to it. -/
theorem reverseFrom_end (cut : leaves = before ++ place :: after) (gapless : Gapless leaves)
    (endBound : Bound K) (limit : Option Nat) :
    ReverseAt leaves (reverseFrom (some place.2.id, place.2.entries, lastIndex place.2.entries)
      endBound limit) (LeafRow.entries (before ++ [place])).reverse := by
  by_cases empty : place.2.entries = []
  · -- Only the one leaf of an empty tree has no entries.
    have alone : before = [] := by
      by_contra nonempty
      refine gapless ?_ place (by simp [cut]) empty
      have positive := length_pos_of_ne_nil nonempty
      rw [cut, length_append, length_cons]
      omega
    simp only [alone, nil_append, LeafRow.entries_cons, LeafRow.entries_nil, empty,
      append_nil, reverse_nil]
    exact .finished (Or.inr rfl)
  · have positive := length_pos_of_ne_nil empty
    have last : lastIndex place.2.entries = place.2.entries.length - 1 := by
      simp [lastIndex, empty]
    have inside : place.2.entries.length - 1 < place.2.entries.length := by omega
    have coming := reverseFrom_within cut inside endBound limit
    rw [Nat.sub_add_cancel positive, take_length] at coming
    rw [last]
    simpa using coming

omit [LinearOrder K] in
/-- The place behind the entries before a position of a leaf. -/
theorem Stands.endBefore (stands : Stands tree leaves levels)
    (backward : LinkedFrom none leaves.prevs) (gapless : Gapless leaves)
    (place : WithBot K × LeafNode K V) (cut : leaves = before ++ place :: after)
    {front back : List (K × V)}
    (entriesEq : place.2.entries = front ++ back) (endBound : Bound K) (limit : Option Nat) :
    ∃ position, (if front.length = 0 then endOfPrevLeaf place.2.id
        else pure (some place.2.id, place.2.entries, front.length - 1)) tree =
        .ok position tree ∧
      ReverseAt leaves (reverseFrom position endBound limit)
        (LeafRow.entries before ++ front).reverse := by
  by_cases atStart : front.length = 0
  · simp only [if_pos atStart]
    rw [eq_nil_of_length_eq_zero atStart, append_nil, endOfPrevLeaf,
      run_bind (stands.getPrevLeaf (by simp [cut])), LeafRow.prev_eq (cut ▸ backward)]
    rcases eq_nil_or_concat before with rfl | ⟨earlier, last, rfl⟩
    · exact ⟨(none, [], 0), rfl, .finished (Or.inl rfl)⟩
    · rw [concat_eq_append] at cut ⊢
      have back : lastOf (LeafRow.prevs (earlier ++ [last])) none = some last.2.id := by
        simp [lastOf]
      refine ⟨(some last.2.id, last.2.entries, lastIndex last.2.entries), ?_,
        reverseFrom_end (show leaves = earlier ++ last :: place :: after by simpa using cut) gapless
          endBound limit⟩
      rw [back]
      simp only
      rw [run_bind (stands.getLeafEntries (by simp [cut]))]
      rfl
  · refine ⟨(some place.2.id, place.2.entries, front.length - 1), by rw [if_neg atStart]; rfl, ?_⟩
    have inside : front.length - 1 < place.2.entries.length := by
      rw [entriesEq, length_append]
      omega
    have taken : place.2.entries.take (front.length - 1 + 1) = front := by
      rw [Nat.sub_add_cancel (by omega), entriesEq, take_left]
    have coming := reverseFrom_within cut inside endBound limit
    rwa [taken] at coming

/-- A reverse iterator starts behind the entries its end bound admits. -/
theorem reverse_start (sound : Sound tree leaves levels) (backward : LinkedFrom none leaves.prevs)
    (gapless : Gapless leaves) (endBound : Bound K) (limit : Option Nat) :
    ∃ position, findReverseStart endBound tree = .ok position tree ∧
      ReverseAt leaves (reverseFrom position endBound limit)
        (leaves.entries.filter fun entry => endBound.upToEnd entry.1).reverse := by
  cases endBound with
  | unbounded =>
    obtain ⟨first, rest, rfl⟩ := exists_cons_of_ne_nil sound.stands.leaves_ne_nil
    have enough : rest.length < tree.loopBound := by
      have counted := sound.stands.length_le_loopBound
      rw [length_cons] at counted
      omega
    obtain ⟨front, last, cut, found⟩ := sound.stands.findRightmostLeaf sound.linked []
      rfl enough
    refine ⟨(some last.2.id, last.2.entries, lastIndex last.2.entries), ?_, ?_⟩
    · rw [findReverseStart, run_bind run_get, run_bind sound.getLeftmostLeaf, run_bind found,
        run_bind (sound.stands.getLeafEntries (by simp [cut]))]
      rfl
    · have coming := reverseFrom_end cut gapless .unbounded limit
      rw [← cut] at coming
      simpa [Bound.upToEnd] using coming
  | included key =>
    obtain ⟨before, place, after, front, held, back, cut, found, read, window, searched, row⟩ :=
      sound.seek key
    rw [row.filter_upTo_included, findReverseStart,
      run_bind run_get, run_bind found, run_bind read, searched]
    cases held with
    | some value =>
      refine ⟨(some place.2.id, place.2.entries, front.length), rfl, ?_⟩
      have inside : front.length < place.2.entries.length := by simp [window.cut]
      have taken : place.2.entries.take (front.length + 1) = front ++ [(key, value)] := by
        rw [window.cut, take_length_add_append]
        rfl
      have coming := reverseFrom_within cut inside (.included key) limit
      rw [taken, ← append_assoc] at coming
      exact coming
    | none =>
      obtain ⟨position, ran, coming⟩ := sound.stands.endBefore backward gapless
        place cut window.cut (.included key) limit
      exact ⟨position, ran, by simpa using coming⟩
  | excluded key =>
    obtain ⟨before, place, after, front, held, back, cut, found, read, window, searched, row⟩ :=
      sound.seek key
    obtain ⟨position, ran, coming⟩ := sound.stands.endBefore backward gapless
      place cut window.cut (.excluded key) limit
    refine ⟨position, ?_, ?_⟩
    · rw [findReverseStart, run_bind run_get, run_bind found, run_bind read, searched]
      cases held <;> exact ran
    · rwa [row.filter_upTo_excluded]

end

variable {tree : BPlusTree K V} {leaves : LeafRow K V} {levels : List (Level K)}

/-- A scan of a tree yields these entries and then ends. -/
def Yields (tree : BPlusTree K V) (startBound endBound : Bound K) (reverse : Bool)
    (limit : Option Nat) (entries : List (K × V)) : Prop :=
  ∀ bound, entries.length < bound →
    scan bound startBound endBound reverse limit tree = .ok entries tree

omit [LinearOrder K] in
/-- The value of a computation that succeeds. -/
def valueOf {ε σ α : Type} : EStateM.Result ε σ α → Option α
  | .ok value _ => some value
  | .error _ _ => none

omit [LinearOrder K] in
/-- A computation with a value goes through its first part. -/
theorem valueOf_bind {α β : Type} {tree : BPlusTree K V} {first : TreeM K V α}
    {rest : α → TreeM K V β} {value : β} (ran : valueOf ((first >>= rest) tree) = some value) :
    ∃ middle changed, first tree = .ok middle changed ∧
      valueOf (rest middle changed) = some value := by
  cases firstEq : first tree with
  | ok middle changed => exact ⟨middle, changed, rfl, by rwa [run_bind firstEq] at ran⟩
  | error fault changed => simp [bind, EStateM.bind, firstEq, valueOf] at ran

/-- A drain that ends does not depend on its bound. -/
theorem drain_more {tree : BPlusTree K V} {bound : Nat}
    (drained : valueOf (drain bound iterator tree) = some entries) (extra : Nat) :
    valueOf (drain (bound + extra) iterator tree) = some entries := by
  induction bound generalizing iterator tree entries with
  | zero => simp [drain, valueOf, throw, throwThe, MonadExceptOf.throw, EStateM.throw] at drained
  | succ bound ih =>
    rw [Nat.add_right_comm, drain]
    obtain ⟨⟨item, next⟩, changed, polled, rest⟩ := valueOf_bind drained
    rw [run_bind polled]
    cases item with
    | none => exact rest
    | some entry =>
      obtain ⟨others, last, drainedRest, whole⟩ := valueOf_bind rest
      have drainedOthers : valueOf (drain bound next changed) = some others := by
        rw [drainedRest]
        rfl
      have more := ih drainedOthers
      cases drainedMore : drain (bound + extra) next changed with
      | error fault final => simp [drainedMore, valueOf] at more
      | ok listed final =>
        obtain rfl : listed = others := by simpa [drainedMore, valueOf] using more
        simp only
        rw [run_bind drainedMore]
        exact whole

/-- A scan yields one list of entries. -/
theorem Yields.unique {tree : BPlusTree K V} {startBound endBound : Bound K} {reverse : Bool}
    {limit : Option Nat} (yields : Yields tree startBound endBound reverse limit entries)
    (bound : Nat) (actual : List (K × V))
    (scanned : valueOf (scan bound startBound endBound reverse limit tree) = some actual) :
    entries = actual := by
  obtain ⟨iterator, changed, created, drained⟩ := valueOf_bind scanned
  have more := drain_more drained (entries.length + 1)
  have yielded := yields (bound + (entries.length + 1)) (by omega)
  rw [scan, run_bind created] at yielded
  rw [yielded] at more
  exact Option.some.inj more

/-- A forward scan yields the entries in range up to the limit. -/
theorem Sound.forward_yields (sound : Sound tree leaves levels) (gapless : Gapless leaves)
    (startBound endBound : Bound K) (limit : Option Nat) :
    Yields tree startBound endBound false limit
      (upToLimit limit (inRange startBound endBound leaves.entries)) := by
  obtain ⟨iterator, created, coming, limitEq, countEq⟩ :=
    forward_start sound startBound endBound limit
  intro bound enough
  have sorted : Sorted (leaves.entries.filter fun entry => startBound.fromStart entry.1) :=
    sound.entries_sorted.filter _
  have wanted : (leaves.entries.filter fun entry => startBound.fromStart entry.1).takeWhile
      (fun entry => endBound.upToEnd entry.1) = inRange startBound endBound leaves.entries := by
    rw [takeWhile_upToEnd sorted, filter_filter]
    exact filter_congr fun entry _ => Bool.and_comm _ _
  have left : remaining iterator = limit := by
    rw [remaining, limitEq, countEq]
    cases limit <;> rfl
  have drained := drain_eq (forward_polls sound.stands sound.linked gapless endBound) coming bound
  rw [wanted, left] at drained
  rw [scan, run_bind created]
  exact drained enough

/-- Splits and merges within bounds keep every leaf of a row filled. -/
theorem Sound.gapless (sound : Sound tree leaves levels)
    (large : 3 ≤ tree.config.maxKeys) (positive : 1 ≤ tree.config.minKeys) : Gapless leaves := by
  let most := tree.config.maxKeys + 2 * tree.config.minKeys
  have bounds : KeyBounds tree.config 1 most :=
    ⟨⟨le_rfl, positive, by omega, by omega⟩, by omega⟩
  have leafBounds : LeafBounds tree.config 1 most := ⟨by omega, positive, by omega, by omega⟩
  intro several place mem empty
  have filled := (sound.filled ⟨1, most, bounds⟩ 1 most leafBounds).atLeast several place mem
  simp [empty] at filled

/-- The entries a history of calls leaves in the map, in key order. -/
def EntriesAfter (calls : List (TreeCall K V)) (entries : List (K × V)) : Prop :=
  Sorted entries ∧ ∀ key, lookup entries key = valueAfter calls.reverse key

/-- With room for three keys and a positive minimum, every forward scan of a tree
yields the first entries in range of the map and ends. -/
theorem forward_scan_correct {config : BPlusTreeConfig} (large : 3 ≤ config.maxKeys)
    (positive : 1 ≤ config.minKeys) (calls : List (TreeCall Bytes Bytes)) :
    ∃ entries, EntriesAfter calls entries ∧ ∀ startBound endBound limit,
      Yields (BPlusTree.call.final (BPlusTree.new config) calls) startBound endBound false limit
        (upToLimit limit (inRange startBound endBound entries)) := by
  have splits : 2 ≤ config.maxKeys := by omega
  obtain ⟨-, leaves, levels, sound, agrees⟩ := holds_final splits calls
  have config := (reached_final splits calls).1
  have gapless := sound.gapless (config.symm ▸ large) (config.symm ▸ positive)
  exact ⟨leaves.entries, ⟨sound.entries_sorted, agrees⟩, sound.forward_yields gapless⟩

theorem forward_scan_correct_order_four :
    ∃ entries, EntriesAfter [.insert [1] [7], .insert [2] [8], .delete [1]] entries ∧
      ∀ startBound endBound limit, Yields (BPlusTree.call.final
          (BPlusTree.new { maxKeys := 4, minKeys := 2 } : BPlusTree Bytes Bytes)
          [.insert [1] [7], .insert [2] [8], .delete [1]]) startBound endBound false limit
          (upToLimit limit (inRange startBound endBound entries)) :=
  forward_scan_correct (by decide) (by decide) _

/-- With room for two keys only, an internal node can be left with a single leaf.
Once that leaf is empty, a forward scan ends there and misses the last key. -/
theorem forward_scan_ends_at_empty_leaf :
    ¬ ∃ entries, EntriesAfter [.insert [10] [], .insert [20] [], .insert [30] [], .insert [25] [],
        .delete [25]] entries ∧
      ∀ startBound endBound limit, Yields (BPlusTree.call.final
          (BPlusTree.new { maxKeys := 2, minKeys := 1 } : BPlusTree Bytes Bytes)
          [.insert [10] [], .insert [20] [], .insert [30] [], .insert [25] [], .delete [25]])
          startBound endBound false limit
          (upToLimit limit (inRange startBound endBound entries)) := by
  rintro ⟨entries, ⟨-, agrees⟩, yields⟩
  have all : upToLimit none (inRange .unbounded .unbounded entries) = entries := by
    simp [upToLimit, inRange, Bound.fromStart, Bound.upToEnd]
  have scanned := (yields .unbounded .unbounded none).unique 3
    [([10], []), ([20], [])] (by decide +kernel)
  obtain rfl := all.symm.trans scanned
  exact absurd (agrees [30]) (by decide)

section

variable (sound : Sound tree leaves levels) (backward : LinkedFrom none leaves.prevs)
  (gapless : Gapless leaves) (startBound endBound : Bound K) (limit : Option Nat)

include sound backward gapless startBound endBound limit

/-- A reverse scan yields everything up to the end bound, whatever its start bound. -/
theorem Sound.reverse_yields :
    Yields tree startBound endBound true limit
      (upToLimit limit (leaves.entries.filter fun entry => endBound.upToEnd entry.1).reverse) := by
  obtain ⟨position, found, coming⟩ := reverse_start sound backward gapless endBound limit
  have created : BPlusTreeIterator.new startBound endBound true limit tree =
      .ok (reverseFrom position endBound limit) tree := by
    rw [BPlusTreeIterator.new, if_pos rfl, run_bind found]
    rfl
  have left : remaining (reverseFrom position endBound limit) = limit := by
    cases limit <;> rfl
  intro bound enough
  have drained := drain_eq (reverse_polls sound.stands backward gapless) coming bound
  rw [left, takeWhile_eq_self_iff.mpr fun _ _ => rfl] at drained
  rw [scan, run_bind created]
  exact drained enough

/-- A reverse scan of a doubly linked row is right exactly when its start bound does
not matter. -/
theorem Sound.reverse_yields_iff :
    Yields tree startBound endBound true limit
      (upToLimit limit (inRange startBound endBound leaves.entries).reverse) ↔
      (∀ entry ∈ leaves.entries, endBound.upToEnd entry.1 = true →
        startBound.fromStart entry.1 = true) ∨
      ∃ count, limit = some count ∧
        count ≤ (inRange startBound endBound leaves.entries).length := by
  have actual := sound.reverse_yields backward gapless startBound endBound limit
  rw [reverse_upToEnd_split sound.entries_sorted startBound endBound] at actual
  have same : Yields tree startBound endBound true limit
      (upToLimit limit (inRange startBound endBound leaves.entries).reverse) ↔
      upToLimit limit ((inRange startBound endBound leaves.entries).reverse ++
        ((leaves.entries.filter fun entry => endBound.upToEnd entry.1).filter fun entry =>
          !startBound.fromStart entry.1).reverse) =
      upToLimit limit (inRange startBound endBound leaves.entries).reverse := by
    constructor
    · intro yields
      have scanned := actual _ (Nat.lt_succ_self _)
      exact (yields.unique _ _ (by rw [scanned]; rfl)).symm
    · intro equal
      rwa [equal] at actual
  rw [same, upToLimit_append_eq, reverse_eq_nil_iff, filter_eq_nil_iff, length_reverse]
  simp [and_imp]

end

/-- With room for three keys, a positive minimum and no split of a leaf that has a
next leaf, a reverse scan yields the last entries in range of the map exactly when
no entry up to the end bound lies before the start bound, or enough entries are in
range to reach the limit. -/
theorem reverse_scan_correct_iff {config : BPlusTreeConfig} (large : 3 ≤ config.maxKeys)
    (positive : 1 ≤ config.minKeys) (calls : List (TreeCall Bytes Bytes))
    (outside : BPlusTree.call.Along (fun tree input => ¬ SplitsInside tree input)
      (BPlusTree.new config) calls) :
    ∃ entries, EntriesAfter calls entries ∧ ∀ startBound endBound limit,
      (Yields (BPlusTree.call.final (BPlusTree.new config) calls) startBound endBound true limit
        (upToLimit limit (inRange startBound endBound entries).reverse) ↔
        (∀ entry ∈ entries, endBound.upToEnd entry.1 = true → startBound.fromStart entry.1 = true) ∨
        ∃ count, limit = some count ∧ count ≤ (inRange startBound endBound entries).length) := by
  have splits : 2 ≤ config.maxKeys := by omega
  obtain ⟨-, other, otherLevels, otherSound, agrees⟩ := holds_final splits calls
  obtain ⟨sameConfig, leaves, levels, sound, backward⟩ := linked_final splits outside
  have gapless := sound.gapless (sameConfig.symm ▸ large) (sameConfig.symm ▸ positive)
  refine ⟨leaves.entries, ⟨sound.entries_sorted, fun key => ?_⟩,
    sound.reverse_yields_iff backward gapless⟩
  rw [sound.lookup_unique otherSound, agrees]

/-- The leaf for a key is the last one. -/
def reachesLast (tree : BPlusTree Bytes Bytes) (key : Bytes) : Bool :=
  match findLeaf tree.loopBound tree.rootId key tree with
  | .ok leafId _ =>
    match tree.node? leafId with
    | some (.leaf leaf) => leaf.next.isNone
    | _ => false
  | .error _ _ => false

theorem not_splitsInside {tree : BPlusTree Bytes Bytes} {key value : Bytes}
    (isLast : reachesLast tree key = true) : ¬ SplitsInside tree (.insert key value) := by
  rintro ⟨leafId, leaf, found, stored, hasNext, -⟩
  rw [reachesLast, found] at isLast
  simp only [stored, Option.isNone_iff_eq_none] at isLast
  exact hasNext isLast

/-- The fourth of five ascending keys splits the only leaf, and the fifth goes to the new one. -/
theorem reverse_scan_correct_iff_order_four :
    let tree : BPlusTree Bytes Bytes := BPlusTree.new { maxKeys := 4, minKeys := 2 }
    let calls : List (TreeCall Bytes Bytes) :=
      [.insert [1] [7], .insert [2] [], .insert [3] [], .insert [4] [], .insert [5] []]
    BPlusTree.call.Along (fun tree input => ¬ SplitsInside tree input) tree calls ∧
    ∃ entries, EntriesAfter calls entries ∧ ∀ startBound endBound limit,
      (Yields (BPlusTree.call.final tree calls) startBound endBound true limit
        (upToLimit limit (inRange startBound endBound entries).reverse) ↔
        (∀ entry ∈ entries, endBound.upToEnd entry.1 = true → startBound.fromStart entry.1 = true) ∨
        ∃ count, limit = some count ∧ count ≤ (inRange startBound endBound entries).length) := by
  intro tree calls
  have outside : BPlusTree.call.Along (fun tree input => ¬ SplitsInside tree input) tree calls := by
    refine ⟨?_, ?_, ?_, ?_, ?_, trivial⟩
    all_goals exact not_splitsInside (by decide +kernel)
  exact ⟨outside, reverse_scan_correct_iff (by decide) (by decide) _ outside⟩

/-- A reverse scan goes on below its start bound, and it follows a stale `prev` link
past the leaf that a split put in between. -/
theorem reverse_scan_wrong :
    (¬ ∃ entries, EntriesAfter [.insert [1] [], .insert [2] []] entries ∧
      ∀ startBound endBound limit, Yields (BPlusTree.call.final
          (BPlusTree.new { maxKeys := 4, minKeys := 2 } : BPlusTree Bytes Bytes)
          [.insert [1] [], .insert [2] []]) startBound endBound true limit
          (upToLimit limit (inRange startBound endBound entries).reverse)) ∧
    ¬ ∃ entries, EntriesAfter [.insert [10] [], .insert [20] [], .insert [30] [], .insert [40] [],
        .insert [5] [], .insert [7] []] entries ∧
      ∀ startBound endBound limit, Yields (BPlusTree.call.final
          (BPlusTree.new { maxKeys := 4, minKeys := 2 } : BPlusTree Bytes Bytes)
          [.insert [10] [], .insert [20] [], .insert [30] [], .insert [40] [], .insert [5] [],
            .insert [7] []]) startBound endBound true limit
          (upToLimit limit (inRange startBound endBound entries).reverse) := by
  constructor
  · rintro ⟨entries, ⟨-, agrees⟩, yields⟩
    have scanned := (yields (.included [2]) .unbounded none).unique 3
      [([2], []), ([1], [])] (by decide +kernel)
    have listed : ([1], []) ∈ (inRange (.included [2]) .unbounded entries).reverse := by
      rw [show (inRange (.included [2]) .unbounded entries).reverse = _ from scanned]
      simp
    simp only [inRange, mem_reverse, mem_filter, Bound.fromStart] at listed
    exact absurd listed.2 (by decide)
  · rintro ⟨entries, ⟨-, agrees⟩, yields⟩
    have scanned := (yields .unbounded .unbounded none).unique 5
      [([40], []), ([30], []), ([7], []), ([5], [])] (by decide +kernel)
    have all :
        upToLimit none (inRange .unbounded .unbounded entries).reverse = entries.reverse := by
      simp [upToLimit, inRange, Bound.fromStart, Bound.upToEnd]
    obtain rfl : entries = [([5], []), ([7], []), ([30], []), ([40], [])] := by
      rw [← reverse_inj, ← all, scanned]
      rfl
    exact absurd (agrees [10]) (by decide)

end Nanograph.BTree
