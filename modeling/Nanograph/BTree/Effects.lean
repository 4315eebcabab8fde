import Nanograph.BTree.Delete

/-!
# Effects on the leaves

What an insert and a delete do to the row of leaves as a whole, read off
`Inserted` and `Deleted`: the entries all leaves hold together, the links between
the leaves, and the number of entries of each leaf.
-/

namespace Nanograph.BTree

open List Foundation LeafRow

variable {K V : Type}

namespace LeafRow

variable (prevId : BTreeNodeId) (leaves : LeafRow K V)

@[simp] theorem segments_relink : segments (leaves.relink prevId) = leaves.segments := by
  cases leaves <;> rfl

@[simp] theorem entries_relink : entries (leaves.relink prevId) = leaves.entries := by
  cases leaves <;> rfl

@[simp] theorem nexts_relink : nexts (leaves.relink prevId) = leaves.nexts := by
  cases leaves <;> rfl

@[simp] theorem ids_relink : ids (leaves.relink prevId) = leaves.ids := by
  cases leaves <;> rfl

/-- Every leaf behind a relinked one keeps its entries. -/
theorem entries_of_relink {place : WithBot K × LeafNode K V}
    (mem : place ∈ leaves.relink prevId) : ∃ old ∈ leaves, place.2.entries = old.2.entries := by
  cases leaves with
  | nil => simp [relink] at mem
  | cons first rest =>
    rcases mem_cons.mp mem with rfl | isRest
    · exact ⟨first, by simp, rfl⟩
    · exact ⟨place, mem_cons_of_mem _ isRest, rfl⟩

theorem linkedFrom_relink {outside : Option BTreeNodeId}
    (linked : LinkedFrom outside leaves.prevs) :
    LinkedFrom (some prevId) (prevs (leaves.relink prevId)) := by
  cases leaves with
  | nil => trivial
  | cons first rest => exact ⟨rfl, linked.2⟩

end LeafRow

variable [LinearOrder K] {config : BPlusTreeConfig} {levels : List (Level K)} {key : K} {value : V}
  {leaves new before after : LeafRow K V} {result : Bool} {low : WithBot K} {leaf : LeafNode K V}

/-- The window of a key in its leaf is the window in all entries. -/
theorem row_window (before : LeafRow K V) {front back : List (K × V)} {held : Option V}
    (segmented : Segmented (segments (before ++ (low, leaf) :: after)))
    (least : low ≤ (key : WithBot K)) (next : ∀ place ∈ after, (key : WithBot K) < place.1)
    (window : Window leaf.entries key front held back) :
    Window (entries (before ++ (low, leaf) :: after)) key (before.entries ++ front) held
      (back ++ after.entries) := by
  rw [entries_append, entries_cons]
  refine window.widen ?_ ?_
  · intro entry mem
    obtain ⟨place, isBefore, listed⟩ := mem_flatMap.mp mem
    have bounds := segmented.bounds
    rw [segments_append, segments_cons, pairwise_append] at bounds
    have below := (bounds.2.2 (place.1, place.2.entries) (mem_map_of_mem isBefore)
      (low, leaf.entries) (by simp)).2 entry listed
    exact WithBot.coe_lt_coe.mp (below.trans_le least)
  · intro entry mem
    obtain ⟨place, isAfter, listed⟩ := mem_flatMap.mp mem
    have above := segmented.least (place.1, place.2.entries)
      (mem_map.mpr ⟨place, by simp [isAfter], rfl⟩) entry listed
    exact WithBot.coe_lt_coe.mp ((next place isAfter).trans_le above)

section

variable (inserted : Inserted config key value leaves new)

include inserted

/-- An insert writes at the window of its key. -/
theorem Inserted.window (segmented : Segmented leaves.segments) :
    ∃ front held back, Window leaves.entries key front held back ∧
      new.entries = front ++ (key, value) :: back := by
  cases inserted with
  | put least next window room =>
    exact ⟨_, _, _, row_window _ segmented least next window, by simp⟩
  | @split before after low leaf front back left right held separator pivot newId least next window
      full cut half fresh =>
      refine ⟨_, _, _, row_window _ segmented least next window, ?_⟩
      calc
        _ = before.entries ++ ((left ++ (separator, pivot) :: right) ++ after.entries) := by simp
        _ = before.entries ++ ((front ++ (key, value) :: back) ++ after.entries) := by rw [cut]
        _ = _ := by simp

/-- An insert keeps the chain of `next` links. -/
theorem Inserted.linked (linked : LinkedTo none leaves.nexts) : LinkedTo none new.nexts := by
  cases inserted with
  | put => simpa using linked
  | split =>
    simp only [nexts_append, nexts_cons, linkedTo_append, LinkedTo, firstOf_cons] at linked ⊢
    exact ⟨linked.1, trivial, linked.2⟩

/-- The first leaf stays the first one. -/
theorem Inserted.first : new.ids.head? = leaves.ids.head? := by
  cases inserted <;> simp

end

section

variable (deleted : Deleted config levels key leaves result new)

include deleted

/-- A delete erases at the window of its key and reports what was there. -/
theorem Deleted.window (segmented : Segmented leaves.segments) :
    ∃ front held back, Window leaves.entries key front held back ∧
      new.entries = front ++ back ∧ result = held.isSome := by
  cases deleted with
  | missing least next window =>
    refine ⟨_, _, _, row_window _ segmented least next window, ?_, rfl⟩
    simp [window.cut]
  | plain least next window kept =>
    exact ⟨_, _, _, row_window _ segmented least next window, by simp, rfl⟩
  | @borrowLeft before after low siblingLow leaf sibling front back kept value moved least next
      window short given spare =>
      have found := row_window (before ++ [(siblingLow, sibling)])
        (by simpa using segmented) least next window
      exact ⟨_, _, _, by simpa using found, by simp [given], rfl⟩
  | borrowRight least next window short given spare =>
    exact ⟨_, _, _, row_window _ segmented least next window, by simp [given], rfl⟩
  | @mergeLeft before after low siblingLow leaf sibling front back value least next window short
      full =>
      have found := row_window (before ++ [(siblingLow, sibling)])
        (by simpa using segmented) least next window
      exact ⟨_, _, _, by simpa using found, by simp, rfl⟩
  | mergeRight least next window short full =>
    exact ⟨_, _, _, row_window _ segmented least next window, by simp, rfl⟩

/-- A delete keeps the leaves segmented. -/
theorem Deleted.segmented (segmented : Segmented leaves.segments) : Segmented new.segments := by
  cases deleted with
  | missing => exact segmented
  | plain least next window kept =>
    simp only [segments_append, segments_cons] at segmented ⊢
    exact segmented.join [] (by simpa using window.erase_sublist)
  | @borrowLeft before after low siblingLow leaf sibling front back kept value moved least next
      window short given spare =>
      simp only [segments_append, segments_cons] at segmented ⊢
      refine segmented.divide [(low, leaf.entries)] ?_ (ne_nil_of_length_pos (by omega)) rfl
      rw [given, append_assoc]
      simpa using (window.erase_sublist.cons_cons moved).append_left kept
  | @borrowRight before after low siblingLow leaf sibling front back kept value moved first least
      next window short given spare =>
      simp only [segments_append, segments_cons] at segmented ⊢
      refine segmented.divide [(siblingLow, sibling.entries)] ?_ (by simp) rfl
      simpa [given] using window.erase_sublist.append_right (moved :: first :: kept)
  | @mergeLeft before after low siblingLow leaf sibling front back value least next window short
      full =>
      simp only [segments_append, segments_cons, segments_relink]
        at segmented ⊢
      exact segmented.join [(low, leaf.entries)]
        (by simpa using window.erase_sublist.append_left sibling.entries)
  | @mergeRight before after low siblingLow leaf sibling front back value least next window short
      full =>
      simp only [segments_append, segments_cons, segments_relink]
        at segmented ⊢
      exact segmented.join [(siblingLow, sibling.entries)]
        (by simpa using window.erase_sublist.append_right sibling.entries)

/-- A delete keeps the chain of `next` links. -/
theorem Deleted.linked (linked : LinkedTo none leaves.nexts) : LinkedTo none new.nexts := by
  cases deleted with
  | missing => exact linked
  | plain | borrowLeft | borrowRight => simpa using linked
  | mergeLeft | mergeRight =>
    simp only [nexts_append, nexts_cons, nexts_relink, linkedTo_append,
      LinkedTo, firstOf_cons] at linked ⊢
    exact ⟨linked.1, linked.2.2⟩

theorem Deleted.first : new.ids.head? = leaves.ids.head? := by
  cases deleted <;> simp

/-- A delete keeps the chain of `prev` links. -/
theorem Deleted.linkedBack (linked : LinkedFrom none leaves.prevs) : LinkedFrom none new.prevs := by
  cases deleted with
  | missing => exact linked
  | plain | borrowLeft | borrowRight => simpa using linked
  | mergeLeft | mergeRight =>
    simp only [prevs_append, prevs_cons, linkedFrom_append, LinkedFrom]
      at linked ⊢
    exact ⟨linked.1, linked.2.1, linkedFrom_relink _ _ linked.2.2.2⟩

end

/-- Bounds on the number of entries that splits and merges of leaves keep: `low`
for every leaf but a root, `high` for all of them. -/
structure LeafBounds (config : BPlusTreeConfig) (low high : Nat) : Prop where
  half : low ≤ config.maxKeys / 2
  least : low ≤ config.minKeys
  full : config.maxKeys ≤ high + 1
  merged : 2 * config.minKeys ≤ high + 1

/-- Every leaf has a number of entries within bounds; a leaf that stands alone may
have fewer. -/
structure LeafRow.Filled (least most : Nat) (leaves : LeafRow K V) : Prop where
  atMost : ∀ place ∈ leaves, place.2.entries.length ≤ most
  atLeast : 1 < leaves.length → ∀ place ∈ leaves, least ≤ place.2.entries.length

section

variable {least most : Nat} {mid rebuilt behind : LeafRow K V}

omit [LinearOrder K] in
/-- Some leaves are exchanged for others within the bounds. -/
theorem LeafRow.Filled.exchange (mid rebuilt : LeafRow K V)
    (filled : Filled least most (before ++ (mid ++ after))) (nonempty : mid ≠ [])
    (kept : ∀ place ∈ behind, ∃ old ∈ after, place.2.entries = old.2.entries)
    (atMost : ∀ place ∈ rebuilt, place.2.entries.length ≤ most)
    (atLeast : 1 < (before ++ (rebuilt ++ behind)).length →
      ∀ place ∈ rebuilt, least ≤ place.2.entries.length) :
    Filled least most (before ++ (rebuilt ++ behind)) := by
  have others : ∀ place ∈ before ++ behind, ∃ old ∈ before ++ after,
      place.2.entries = old.2.entries := by
    intro place mem
    rcases mem_append.mp mem with isBefore | isBehind
    · exact ⟨place, by simp [isBefore], rfl⟩
    · obtain ⟨old, isAfter, equal⟩ := kept place isBehind
      exact ⟨old, by simp [isAfter], equal⟩
  have either :
      ∀ place ∈ before ++ (rebuilt ++ behind), place ∈ rebuilt ∨ place ∈ before ++ behind := by
    intro place mem
    simp only [mem_append] at mem ⊢
    tauto
  have inRow : ∀ old ∈ before ++ after, old ∈ before ++ (mid ++ after) := by
    intro old mem
    simp only [mem_append] at mem ⊢
    tauto
  refine ⟨fun place mem => ?_, fun several place mem => ?_⟩
  · rcases either place mem with isNew | isOther
    · exact atMost place isNew
    · obtain ⟨old, isOld, equal⟩ := others place isOther
      exact equal ▸ filled.atMost old (inRow old isOld)
  · rcases either place mem with isNew | isOther
    · exact atLeast several place isNew
    · obtain ⟨old, isOld, equal⟩ := others place isOther
      refine equal ▸ filled.atLeast ?_ old (inRow old isOld)
      have midLength := length_pos_of_ne_nil nonempty
      have otherLength := length_pos_of_mem isOld
      simp only [length_append] at otherLength ⊢
      omega

omit [LinearOrder K] in
/-- Two adjacent leaves are both within the bounds. -/
theorem LeafRow.Filled.pair {first second : WithBot K × LeafNode K V}
    (filled : Filled least most (before ++ first :: second :: after)) :
    (least ≤ first.2.entries.length ∧ first.2.entries.length ≤ most) ∧
      least ≤ second.2.entries.length ∧ second.2.entries.length ≤ most := by
  have several : 1 < (before ++ first :: second :: after).length := by
    simp only [length_append, length_cons]
    omega
  exact ⟨⟨filled.atLeast several first (by simp), filled.atMost first (by simp)⟩,
    filled.atLeast several second (by simp), filled.atMost second (by simp)⟩

omit [LinearOrder K] in
/-- Some leaves are exchanged for two leaves within the bounds. -/
theorem LeafRow.Filled.divide (mid : LeafRow K V) {first second : WithBot K × LeafNode K V}
    (filled : Filled least most (before ++ (mid ++ after))) (nonempty : mid ≠ [])
    (firstWithin : least ≤ first.2.entries.length ∧ first.2.entries.length ≤ most)
    (secondWithin : least ≤ second.2.entries.length ∧ second.2.entries.length ≤ most) :
    Filled least most (before ++ first :: second :: after) :=
  filled.exchange mid [first, second] nonempty (fun place mem => ⟨place, mem, rfl⟩)
    (forall_mem_cons.mpr ⟨firstWithin.2, forall_mem_singleton.mpr secondWithin.2⟩)
    fun _ => forall_mem_cons.mpr
      ⟨firstWithin.1, forall_mem_singleton.mpr secondWithin.1⟩

omit [LinearOrder K] in
/-- Some leaves are exchanged for one leaf within the bounds. -/
theorem LeafRow.Filled.join (mid : LeafRow K V) {place : WithBot K × LeafNode K V}
    (filled : Filled least most (before ++ (mid ++ after))) (nonempty : mid ≠ [])
    (kept : ∀ place ∈ behind, ∃ old ∈ after, place.2.entries = old.2.entries)
    (atMost : place.2.entries.length ≤ most)
    (atLeast : 1 < (before ++ place :: behind).length → least ≤ place.2.entries.length) :
    Filled least most (before ++ place :: behind) :=
  filled.exchange mid [place] nonempty kept (forall_mem_singleton.mpr atMost)
    fun several => forall_mem_singleton.mpr (atLeast several)

/-- An insert keeps the number of entries of every leaf within bounds. -/
theorem Inserted.filled (inserted : Inserted config key value leaves new)
    (bounds : LeafBounds config least most) (splits : 2 ≤ config.maxKeys)
    (filled : leaves.Filled least most) : new.Filled least most := by
  have capacity := bounds.full
  have halves := bounds.half
  cases inserted with
  | @put before after low leaf front back held lowest next window room =>
    have length := window.length_eq
    have single : held.toList.length ≤ 1 := by cases held <;> simp
    refine filled.join [(low, leaf)] (by simp) (fun place mem => ⟨place, mem, rfl⟩) ?_
      fun several => ?_
    · simp only
      omega
    · have enough : least ≤ leaf.entries.length :=
        filled.atLeast (by simpa using several) (low, leaf) (by simp)
      simp only [length_append, length_cons] at enough length ⊢
      omega
  | @split before after low leaf front back left right held separator pivot newId lowest next window
      full cut half fresh =>
      have length := window.length_eq
      have total := congrArg List.length cut
      have atMost : leaf.entries.length ≤ most := filled.atMost (low, leaf) (by simp)
      simp only [length_append, length_cons] at length total half full
      refine filled.divide [(low, leaf)] (by simp) ?_ ?_
      · simp only
        omega
      · simp only [length_cons]
        omega

/-- A delete keeps the number of entries of every leaf within bounds. -/
theorem Deleted.filled (deleted : Deleted config levels key leaves result new)
    (bounds : LeafBounds config least most) (alone : Bare levels → leaves.length = 1)
    (filled : leaves.Filled least most) : new.Filled least most := by
  have enough := bounds.least
  have merged := bounds.merged
  cases deleted with
  | missing => exact filled
  | @plain before after low leaf front back value lowest next window kept =>
    have length := window.length_eq
    have atMost : leaf.entries.length ≤ most := filled.atMost (low, leaf) (by simp)
    refine filled.join [(low, leaf)] (by simp) (fun place mem => ⟨place, mem, rfl⟩) ?_
      fun several => ?_
    · simp only
      omega
    · have several : 1 < (before ++ (low, leaf) :: after).length := by simpa using several
      have stays := kept.resolve_right fun bare => (alone bare).not_gt several
      exact enough.trans stays
  | @borrowLeft before after low siblingLow leaf sibling front back kept value moved lowest next
      window short given spare =>
      have length := window.length_eq
      have givenLength := congrArg List.length given
      obtain ⟨⟨-, siblingMost⟩, leafLeast, -⟩ := filled.pair
      simp only [Option.toList_some, length_append, length_singleton]
        at length givenLength siblingMost leafLeast short
      refine filled.divide [(siblingLow, sibling), (low, leaf)] (by simp) ?_ ?_
      · simp only
        omega
      · simp only [length_cons, length_append]
        omega
  | @borrowRight before after low siblingLow leaf sibling front back kept value moved first lowest
      next window short given spare =>
      have length := window.length_eq
      have givenLength := congrArg List.length given
      obtain ⟨⟨leafLeast, -⟩, -, siblingMost⟩ := filled.pair
      simp only [Option.toList_some, length_append, length_cons, length_nil]
        at length givenLength siblingMost leafLeast short spare
      refine filled.divide [(low, leaf), (siblingLow, sibling)] (by simp) ?_ ?_
      · simp only [length_append, length_singleton]
        omega
      · simp only [length_cons]
        omega
  | @mergeLeft before after low siblingLow leaf sibling front back value lowest next window short
      full =>
      obtain ⟨⟨siblingLeast, -⟩, -⟩ := filled.pair
      simp only [length_append] at siblingLeast short
      refine filled.join [(siblingLow, sibling), (low, leaf)] (by simp)
        (fun place mem => entries_of_relink _ _ mem) ?_ fun _ => ?_
      all_goals
        simp only [length_append]
        omega
  | @mergeRight before after low siblingLow leaf sibling front back value lowest next window short
      full =>
      obtain ⟨-, siblingLeast, -⟩ := filled.pair
      simp only [length_append] at siblingLeast short
      refine filled.join [(low, leaf), (siblingLow, sibling)] (by simp)
        (fun place mem => entries_of_relink _ _ mem) ?_ fun _ => ?_
      all_goals
        simp only [length_append]
        omega

end

end Nanograph.BTree
