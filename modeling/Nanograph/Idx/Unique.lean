import Nanograph.Idx.Ordered

/-!
# Unique values

A hash index, and a B-tree index of unique values, refuse an entry when the first entry that a
scan for its value finds has another primary key, and a row of a table when there is an entry
with its key. Both checks look at texts. The values stay unique, and no insert is refused in
error, exactly as long as each check gives the answer that the values give.
-/

namespace Nanograph.Idx

open Foundation Kvt PersistentIndexStore IndexEntry

/-- The indexes that ask for unique values. -/
inductive UniqueKind where
  | hash
  | btree

/-- Calls that add entries to an index. -/
inductive IndexCall where
  | insert (entry : IndexEntry)
  | build (tableData : List (Bytes × Bytes))

variable {Cache : Type} [LruCache Cache]

/-- An index with unique values answers a call. -/
def UniqueKind.step (kind : UniqueKind) (format : EntryFormat) :
    Machine (PersistentIndexStore Cache) IndexCall (Except IndexError Unit) :=
  fun storage call =>
    match kind, call with
    | .hash, .insert entry =>
      ((HashIndex.mk storage).insert format entry).map id (·.storage)
    | .hash, .build tableData =>
      ((HashIndex.mk storage).build format tableData).map id (·.storage)
    | .btree, .insert entry =>
      ((BTreeIndex.mk storage true).insert format entry).map id (·.storage)
    | .btree, .build tableData =>
      ((BTreeIndex.mk storage true).build format tableData).map id (·.storage)

/-- No two entries have the same value and different primary keys. -/
def UniqueValues (held : List IndexEntry) : Prop :=
  ∀ first ∈ held, ∀ second ∈ held, first.indexedValue = second.indexedValue →
    first.primaryKey = second.primaryKey

/-- There is an entry with the same value and another primary key. -/
def Taken (held : List IndexEntry) (entry : IndexEntry) : Prop :=
  ∃ other ∈ held, other.indexedValue = entry.indexedValue ∧ other.primaryKey ≠ entry.primaryKey

/-- Behind a call the values are unique, and an insert is refused as a violation only when its
value is taken. -/
def Rightful (kind : UniqueKind) (format : EntryFormat) (storage : PersistentIndexStore Cache)
    (call : IndexCall) : Prop :=
  UniqueValues ((kind.step format storage call).2.heldEntries format) ∧
    ∀ entry message, call = .insert entry →
      (kind.step format storage call).1 = .error (.uniqueViolation message) →
        Taken (storage.heldEntries format) entry

/-- A text is between a value and the value followed by the highest byte. -/
def Near (value text : Bytes) : Prop := value ≤ text ∧ text ≤ value ++ [0xFF]

/-- The first of the entries with a text near the value has another primary key. -/
def FirstDiffers (held : List IndexEntry) (entry : IndexEntry) : Prop :=
  ∃ first ∈ held, Near entry.indexedValue first.text ∧
    (∀ other ∈ held, Near entry.indexedValue other.text → first.text ≤ other.text) ∧
      first.primaryKey ≠ entry.primaryKey

/-- Up to a row whose text is the one of an entry, all rows of a table have new values. -/
def NewValues : List IndexEntry → List (Bytes × Bytes) → Prop
  | _, [] => True
  | held, (primaryKey, rowData) :: rest =>
    (∃ entry ∈ held, entry.text = rowData ++ primaryKey) ∨
      (∀ entry ∈ held, entry.indexedValue ≠ rowData) ∧
        NewValues (insertItem text ⟨rowData, primaryKey, none⟩ held) rest

/-- The check of a call agrees with the values. -/
def Told (format : EntryFormat) (storage : PersistentIndexStore Cache) : IndexCall → Prop
  | .insert entry =>
    FirstDiffers (storage.heldEntries format) entry ↔ Taken (storage.heldEntries format) entry
  | .build tableData => NewValues (storage.heldEntries format) tableData

variable {format : EntryFormat} {storage : PersistentIndexStore Cache} {held : List IndexEntry}
  {entry : IndexEntry}

/-- An entry leaves the values unique when its value is not taken. -/
theorem uniqueValues_insertItem_iff (sorted : KeySorted text held) (unique : UniqueValues held) :
    UniqueValues (insertItem text entry held) ↔ ¬Taken held entry := by
  constructor
  · rintro still ⟨other, mem, sameValue, otherKey⟩
    have otherText : other.text ≠ entry.text := by
      rw [text, text, sameValue]
      exact fun same => otherKey (List.append_cancel_left same)
    exact otherKey (still other (sorted.mem_insertItem_iff.mpr (.inr ⟨mem, otherText⟩)) entry
      (sorted.mem_insertItem_iff.mpr (.inl rfl)) sameValue)
  · intro free first firstIn second secondIn sameValue
    rcases sorted.mem_insertItem_iff.mp firstIn with rfl | ⟨firstOld, _⟩
    · rcases sorted.mem_insertItem_iff.mp secondIn with rfl | ⟨secondOld, _⟩
      · rfl
      · by_contra differs
        exact free ⟨second, secondOld, sameValue.symm, Ne.symm differs⟩
    · rcases sorted.mem_insertItem_iff.mp secondIn with rfl | ⟨secondOld, _⟩
      · by_contra differs
        exact free ⟨first, firstOld, sameValue, differs⟩
      · exact unique first firstOld second secondOld sameValue

/-- What is held after the rows of a table were added. -/
def heldAfter : List IndexEntry → List (Bytes × Bytes) → List IndexEntry
  | held, [] => held
  | held, (primaryKey, rowData) :: rest =>
    if ∃ entry ∈ held, entry.text = rowData ++ primaryKey then held
    else heldAfter (insertItem text ⟨rowData, primaryKey, none⟩ held) rest

/-- The rows of a table replace no entry. -/
theorem mem_heldAfter (sorted : KeySorted text held) {tableData : List (Bytes × Bytes)}
    (mem : entry ∈ held) : entry ∈ heldAfter held tableData := by
  induction tableData generalizing held with
  | nil => exact mem
  | cons row rest ih =>
    rw [heldAfter]
    split
    next => exact mem
    next absent =>
      refine ih (sorted.insertItem _) (sorted.mem_insertItem_iff.mpr (.inr ?_))
      exact ⟨mem, fun sameText => absent ⟨entry, mem, sameText⟩⟩

/-- The rows of a table leave the values unique when those that are added have new ones. -/
theorem uniqueValues_heldAfter_iff (sorted : KeySorted text held)
    (unique : UniqueValues held) (tableData : List (Bytes × Bytes)) :
    UniqueValues (heldAfter held tableData) ↔ NewValues held tableData := by
  induction tableData generalizing held with
  | nil => exact iff_of_true unique trivial
  | cons row rest ih =>
    obtain ⟨primaryKey, rowData⟩ := row
    rw [heldAfter, NewValues]
    split
    next present => exact iff_of_true unique (.inl present)
    next absent =>
      rw [or_iff_right absent]
      have added := sorted.insertItem ⟨rowData, primaryKey, none⟩
      have free : ¬Taken held ⟨rowData, primaryKey, none⟩ ↔
          ∀ entry ∈ held, entry.indexedValue ≠ rowData := by
        constructor
        · intro notTaken other mem sameValue
          refine notTaken ⟨other, mem, sameValue, fun sameKey => absent ⟨other, mem, ?_⟩⟩
          rw [text, sameValue, sameKey]
        · rintro newValue ⟨other, mem, sameValue, _⟩
          exact newValue other mem sameValue
      constructor
      · intro after
        have between : UniqueValues
            (insertItem text ⟨rowData, primaryKey, none⟩ held) :=
          fun first firstIn second secondIn => after first (mem_heldAfter added firstIn) second
            (mem_heldAfter added secondIn)
        exact ⟨free.mp ((uniqueValues_insertItem_iff sorted unique).mp between),
          (ih added between).mp after⟩
      · rintro ⟨newValue, restNew⟩
        have between := (uniqueValues_insertItem_iff sorted unique).mpr (free.mpr newValue)
        exact (ih added between).mpr restNew

section

theorem scanned_exact_iff {config : PersistenceConfig} {value text : Bytes} :
    Scanned config (.included value) (.included value) text ↔ Near value text := by
  simp [Scanned, Bound.fromStart, scansTo, Near]

/-- What the check of an insert finds: the first of the entries near the value. -/
theorem exists_existing (holds : Holds format storage held) (entry : IndexEntry) :
    ∃ existing, storage.scanEntries format ((IndexQuery.exact entry.indexedValue).withLimit 1) =
        .ok existing ∧
      ∀ first, existing.head? = some first ↔ first ∈ held ∧ Near entry.indexedValue first.text ∧
          ∀ other ∈ held, Near entry.indexedValue other.text → first.text ≤ other.text := by
  refine ⟨_, holds.scanEntries_limit (.included entry.indexedValue)
    (.included entry.indexedValue) 1, fun first => ?_⟩
  have found : KeySorted text (held.filter fun other => Scanned storage.config
      (.included entry.indexedValue) (.included entry.indexedValue) other.text) :=
    holds.sorted.filter _
  rw [List.head?_take, if_neg one_ne_zero, found.head?_eq_some_iff]
  simp only [List.mem_filter, decide_eq_true_eq, scanned_exact_iff, and_imp, and_assoc]

theorem refuseOther_differs {message : String} {existing : List IndexEntry} {first : IndexEntry}
    (isFirst : existing.head? = some first) (differs : first.primaryKey ≠ entry.primaryKey) :
    refuseOther message entry existing =
      .error (.uniqueViolation (message ++ debugBytes entry.indexedValue)) := by
  rw [refuseOther, isFirst]
  simp [differs]

theorem refuseOther_agrees {message : String} {existing : List IndexEntry}
    (agrees : ∀ first, existing.head? = some first → first.primaryKey = entry.primaryKey) :
    refuseOther message entry existing = .ok () := by
  rw [refuseOther]
  split
  next first isFirst => simp [agrees first isFirst]
  next => rfl

variable (kind : UniqueKind)

section

variable (holds : Holds format storage held)

include holds

/-- Both indexes refuse an insert for the first entry near the value, with messages of their
own. -/
theorem step_insert (entry : IndexEntry) :
    ∃ message existing, (∀ first, existing.head? = some first ↔
        first ∈ held ∧ Near entry.indexedValue first.text ∧
          ∀ other ∈ held, Near entry.indexedValue other.text → first.text ≤ other.text) ∧
      kind.step format storage (.insert entry) =
        match refuseOther message entry existing with
        | .ok () => (.ok (), storage.storeEntry format entry)
        | .error error => (.error error, storage) := by
  obtain ⟨existing, found, isFirst⟩ := exists_existing holds entry
  cases kind with
  | hash =>
    refine ⟨"Value already exists in unique index: ", existing, isFirst, ?_⟩
    have query : (HashIndex.mk storage).query format
        ((IndexQuery.exact entry.indexedValue).withLimit 1) = .ok existing := by
      simpa [HashIndex.query, IndexQuery.exact, IndexQuery.withLimit] using found
    simp only [UniqueKind.step, HashIndex.insert, query, bind, Except.bind]
    cases refuseOther "Value already exists in unique index: " entry existing <;> rfl
  | btree =>
    refine ⟨"Duplicate indexed value: ", existing, isFirst, ?_⟩
    simp only [UniqueKind.step, BTreeIndex.insert, BTreeIndex.query, found, bind, Except.bind,
      if_true]
    cases refuseOther "Duplicate indexed value: " entry existing <;> rfl

/-- An insert is refused when the first entry near the value has another primary key. -/
theorem step_insert_refused (differs : FirstDiffers held entry) :
    ∃ message, kind.step format storage (.insert entry) =
      (.error (.uniqueViolation message), storage) := by
  obtain ⟨first, mem, near, least, otherKey⟩ := differs
  obtain ⟨message, existing, isFirst, called⟩ := step_insert kind holds entry
  rw [called, refuseOther_differs ((isFirst first).mpr ⟨mem, near, least⟩) otherKey]
  exact ⟨_, rfl⟩

/-- Otherwise the entry is written. -/
theorem step_insert_written (agrees : ¬FirstDiffers held entry) :
    kind.step format storage (.insert entry) = (.ok (), storage.storeEntry format entry) := by
  obtain ⟨message, existing, isFirst, called⟩ := step_insert kind holds entry
  have sameKey : ∀ first, existing.head? = some first → first.primaryKey = entry.primaryKey := by
    intro first hit
    by_contra otherKey
    obtain ⟨mem, near, least⟩ := (isFirst first).mp hit
    exact agrees ⟨first, mem, near, least, otherKey⟩
  rw [called, refuseOther_agrees sameKey]

/-- The rows of a table are added up to the first one with the text of an entry. -/
theorem holds_buildRows (tableData : List (Bytes × Bytes)) :
    Holds format (buildRows format true storage tableData).2 (heldAfter held tableData) := by
  induction tableData generalizing storage held with
  | nil => exact holds
  | cons row rest ih =>
    obtain ⟨primaryKey, rowData⟩ := row
    rw [buildRows, extractIndexedValue, heldAfter, Bool.true_and]
    by_cases present : ∃ entry ∈ held, entry.text = rowData ++ primaryKey
    · rw [if_pos (holds.hasEntry_iff.mpr present), if_pos present]
      exact holds
    · rw [if_neg (mt holds.hasEntry_iff.mp present), if_neg present]
      exact ih (holds.storeEntry _)

end

theorem step_build (storage : PersistentIndexStore Cache) (tableData : List (Bytes × Bytes)) :
    kind.step format storage (.build tableData) = buildRows format true storage tableData := by
  cases kind <;> rfl

/-- Every call leaves entries that are ordered by their texts. -/
theorem exists_holds_step (holds : Holds format storage held) (call : IndexCall) :
    ∃ after, Holds format (kind.step format storage call).2 after := by
  cases call with
  | insert entry =>
    by_cases differs : FirstDiffers held entry
    · obtain ⟨message, refused⟩ := step_insert_refused kind holds differs
      rw [refused]
      exact ⟨held, holds⟩
    · rw [step_insert_written kind holds differs]
      exact ⟨_, holds.storeEntry entry⟩
  | build tableData =>
    rw [step_build]
    exact ⟨_, holds_buildRows holds tableData⟩

/-- With unique values a call does right exactly when its check agrees with the values. -/
theorem rightful_iff_told (holds : Holds format storage held) (unique : UniqueValues held)
    (call : IndexCall) : Rightful kind format storage call ↔ Told format storage call := by
  cases call with
  | insert entry =>
    rw [Rightful, Told, holds.heldEntries_eq]
    by_cases differs : FirstDiffers held entry
    · obtain ⟨message, refused⟩ := step_insert_refused kind holds differs
      rw [refused, holds.heldEntries_eq, iff_true_left differs]
      constructor
      · rintro ⟨_, right⟩
        exact right entry message rfl rfl
      · intro taken
        refine ⟨unique, ?_⟩
        rintro _ _ ⟨⟩ _
        exact taken
    · rw [step_insert_written kind holds differs, (holds.storeEntry entry).heldEntries_eq,
        uniqueValues_insertItem_iff holds.sorted unique, iff_false_left differs]
      simp
  | build tableData =>
    rw [Rightful, Told, step_build, holds.heldEntries_eq,
      (holds_buildRows holds tableData).heldEntries_eq,
      uniqueValues_heldAfter_iff holds.sorted unique]
    simp

end

/-- In a sequence of calls on an empty index the values are unique after every call, and no
insert is refused as a violation unless its value is taken, exactly when the check of every call
agrees with the values. -/
theorem unique_along_iff (kind : UniqueKind) (format : EntryFormat) (config : PersistenceConfig)
    (calls : List IndexCall) :
    (kind.step format).Along (Rightful kind format) (.new Cache config Shard.empty) calls ↔
      (kind.step format).Along (Told format) (.new Cache config Shard.empty) calls := by
  have kept : ∀ (storage : PersistentIndexStore Cache) call,
      (∃ held, Holds format storage held ∧ UniqueValues held) →
      Rightful kind format storage call →
      ∃ held, Holds format (kind.step format storage call).2 held ∧ UniqueValues held := by
    rintro storage call ⟨held, holds, _⟩ right
    obtain ⟨after, holdsAfter⟩ := exists_holds_step kind holds call
    exact ⟨after, holdsAfter, holdsAfter.heldEntries_eq ▸ right.1⟩
  have initial : ∃ held, Holds format (.new Cache config Shard.empty) held ∧ UniqueValues held :=
    ⟨[], Holds.new config, by simp [UniqueValues]⟩
  refine Machine.along_congr _ kept ?_ initial
  rintro storage call ⟨held, holds, unique⟩
  exact rightful_iff_told kind holds unique call

/-- Rows with one value and two primary keys are both added, an entry behind one with a primary
key above the highest byte is added, and an insert is refused because of a longer value. -/
theorem values_not_unique :
    let held := fun (kind : UniqueKind) calls =>
      ((kind.step .ofMarked).final (.new RecentEntries ⟨⟨⟨1⟩⟩, 10⟩ Shard.empty) calls).heldEntries
        .ofMarked
    let answers := fun (kind : UniqueKind) calls =>
      (kind.step .ofMarked).answers (.new RecentEntries ⟨⟨⟨1⟩⟩, 10⟩ Shard.empty) calls
    ∀ kind, ¬UniqueValues (held kind [.build [([1], [97]), ([2], [97])]]) ∧ ¬UniqueValues
        (held kind [.insert ⟨[97], [255, 255], none⟩, .insert ⟨[97], [255, 254], none⟩]) ∧
      ((answers kind [.insert ⟨[97, 98], [1], none⟩, .insert ⟨[97], [2], none⟩])[1]?.any
        (fun answer => answer matches .error (.uniqueViolation _))) = true ∧
      ¬Taken (held kind [.insert ⟨[97, 98], [1], none⟩]) ⟨[97], [2], none⟩ := by
  intro held answers kind
  refine ⟨fun unique => ?_, fun unique => ?_, ?_, ?_⟩
  · have both : ⟨[97], [1], none⟩ ∈ held kind [.build [([1], [97]), ([2], [97])]] ∧
        ⟨[97], [2], none⟩ ∈ held kind [.build [([1], [97]), ([2], [97])]] := by
      cases kind <;> decide +kernel
    exact absurd (unique _ both.1 _ both.2 rfl) (by decide)
  · have both : ⟨[97], [255, 255], none⟩ ∈
          held kind [.insert ⟨[97], [255, 255], none⟩, .insert ⟨[97], [255, 254], none⟩] ∧
        ⟨[97], [255, 254], none⟩ ∈
          held kind [.insert ⟨[97], [255, 255], none⟩, .insert ⟨[97], [255, 254], none⟩] := by
      cases kind <;> decide +kernel
    exact absurd (unique _ both.1 _ both.2 rfl) (by decide)
  · cases kind <;> decide +kernel
  · have one : held kind [.insert ⟨[97, 98], [1], none⟩] = [⟨[97, 98], [1], none⟩] := by
      cases kind <;> decide +kernel
    rw [one]
    simp [Taken]

end Nanograph.Idx
