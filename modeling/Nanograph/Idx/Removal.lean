import Nanograph.Idx.Sharing
import Nanograph.Idx.Unique

/-!
# Deletions and updates

An entry is deleted by its primary key, for which an index is asked for all its entries. A hash
index refuses to answer, and a B-tree index deletes only the first entry it finds. An update
deletes the old entry before it is known whether the new one is accepted and written. Any scan
and any change of the storage may fail.
-/

namespace Nanograph.Idx

open List Foundation Kvt PersistentIndexStore

/-- Nothing with a property is left behind the first one exactly if there is at most one. -/
theorem forall_mem_eraseP_iff {α : Type} (property : α → Bool) (items : List α) :
    (∀ item ∈ items.eraseP property, ¬property item = true) ↔ items.countP property ≤ 1 := by
  induction items with
  | nil => simp
  | cons item rest ih =>
    by_cases hit : property item = true
    · rw [eraseP_cons_of_pos hit, countP_cons_of_pos hit]
      simp
    · rw [eraseP_cons_of_neg hit, countP_cons_of_neg hit, ← ih]
      simp [hit]

/-- What fails during a call on an index: its scan, or the change of its storage. -/
structure IndexFaults where
  scan : Option String
  change : Faults
deriving DecidableEq

def IndexFaults.none : IndexFaults := ⟨.none, .none⟩

/-- What is found by a scan that may fail. -/
def IndexFaults.scanned (faults : IndexFaults) (found : Except IndexError (List IndexEntry)) :
    Except IndexError (List IndexEntry) :=
  match faults.scan with
  | some message => .error (.storage message)
  | .none => found

theorem IndexFaults.scanned_none (found : Except IndexError (List IndexEntry)) :
    IndexFaults.none.scanned found = found := rfl

theorem IndexFaults.scanned_failed {faults : IndexFaults} (fails : faults.scan ≠ .none)
    (found : Except IndexError (List IndexEntry)) :
    ∃ message, faults.scanned found = .error (.storage message) := by
  obtain ⟨_ | message, change⟩ := faults
  · exact absurd rfl fails
  · exact ⟨message, rfl⟩

variable {Cache : Type} [LruCache Cache]

variable (Cache) in
/-- A B-tree index or a hash index. -/
inductive OrderedIndex where
  | btree (index : BTreeIndex Cache)
  | hash (index : HashIndex Cache)

/-- Serialize an entry that passed its check and write it. -/
def PersistentIndexStore.storeChecked (format : EntryFormat) (faults : Faults) (entry : IndexEntry)
    (checked : Except IndexError Unit) (storage : PersistentIndexStore Cache) :
    Except IndexError Unit × PersistentIndexStore Cache :=
  match checked with
  | .ok () =>
    let data := format.serialize entry
    (storage.step (.writeEntry entry.indexedValue entry.primaryKey data, faults)).map
      (·.map fun _ => ()) id
  | .error error => (.error error, storage)

namespace OrderedIndex

def storage : OrderedIndex Cache → PersistentIndexStore Cache
  | .btree index => index.storage
  | .hash index => index.storage

def withStorage (index : OrderedIndex Cache) (storage : PersistentIndexStore Cache) :
    OrderedIndex Cache :=
  match index with
  | .btree tree => .btree { tree with storage }
  | .hash _ => .hash ⟨storage⟩

/-- The number behind the one of the index is the first one. -/
def IsLast (index : OrderedIndex Cache) : Prop :=
  index.storage.config.indexId.object.raw = 0xFFFFFFFF

instance (index : OrderedIndex Cache) : Decidable index.IsLast :=
  inferInstanceAs (Decidable (_ = _))

variable (format : EntryFormat)

/-- The check of an entry where values are unique. -/
def checkUnique (faults : IndexFaults) (entry : IndexEntry) :
    OrderedIndex Cache → Except IndexError Unit
  | .btree index => do
    if index.isUnique then
      let existing ← faults.scanned
        (index.query format ((IndexQuery.exact entry.indexedValue).withLimit 1))
      refuseOther "Duplicate indexed value: " entry existing
  | .hash index => do
    let existing ← faults.scanned
      (index.query format ((IndexQuery.exact entry.indexedValue).withLimit 1))
    refuseOther "Value already exists in unique index: " entry existing

def insert (faults : IndexFaults) (entry : IndexEntry) (index : OrderedIndex Cache) :
    Except IndexError Unit × OrderedIndex Cache :=
  (index.storage.storeChecked format faults.change entry
    (index.checkUnique format faults entry)).map id index.withStorage

def delete (faults : IndexFaults) (primaryKey : Bytes) :
    OrderedIndex Cache → Except IndexError Unit × OrderedIndex Cache
  | .btree index =>
    match faults.scanned (index.query format .all) with
    | .ok entries =>
      match entries.find? (·.primaryKey = primaryKey) with
      | some entry =>
        (index.storage.step (.deleteEntry entry.indexedValue primaryKey, faults.change)).map
          (·.map fun _ => ()) fun storage => .btree { index with storage }
      | none => (.ok (), .btree index)
    | .error error => (.error error, .btree index)
  -- The query of a hash index is refused before anything is scanned.
  | .hash index => (index.delete format primaryKey).map id .hash

/-- Update an entry: the old one is deleted, then the new one inserted. -/
def update (deletion insertion : IndexFaults) (oldEntry newEntry : IndexEntry)
    (index : OrderedIndex Cache) : Except IndexError Unit × OrderedIndex Cache :=
  match index.delete format deletion oldEntry.primaryKey with
  | (.ok _, next) => next.insert format insertion newEntry
  | failed => failed

def build (tableData : List (Bytes × Bytes)) :
    OrderedIndex Cache → Except IndexError Unit × OrderedIndex Cache
  | .btree index => (index.build format tableData).map id .btree
  | .hash index => (index.build format tableData).map id .hash

/-- A deletion during which nothing fails succeeds, leaves no entry with the primary key and all
others. -/
def Removes (index : OrderedIndex Cache) (primaryKey : Bytes) : Prop :=
  let deleted := index.delete format .none primaryKey
  deleted.1 = .ok () ∧
    (∀ entry ∈ deleted.2.storage.heldEntries format, entry.primaryKey ≠ primaryKey) ∧
      ∀ entry ∈ index.storage.heldEntries format, entry.primaryKey ≠ primaryKey →
        entry ∈ deleted.2.storage.heldEntries format

/-- An update that fails leaves the entries as they were. -/
def KeepsOnError (index : OrderedIndex Cache) (deletion insertion : IndexFaults)
    (oldEntry newEntry : IndexEntry) : Prop :=
  let updated := index.update format deletion insertion oldEntry newEntry
  ∀ error, updated.1 = .error error → ∀ entry,
    entry ∈ updated.2.storage.heldEntries format ↔ entry ∈ index.storage.heldEntries format

/-- An insert into a B-tree index fails: the entry cannot be written, or the check for unique
values fails or refuses it. -/
def InsertFails (isUnique : Bool) (faults : IndexFaults) (held : List IndexEntry)
    (entry : IndexEntry) : Prop :=
  faults.change ≠ .none ∨ isUnique = true ∧ (faults.scan ≠ none ∨ FirstDiffers held entry)

variable {format} {index : OrderedIndex Cache} {tree : BTreeIndex Cache} {held : List IndexEntry}
  {faults : IndexFaults} (primaryKey : Bytes)

section

variable (storage : PersistentIndexStore Cache) {change : Faults}

/-- A write that fails changes nothing. -/
theorem step_write_failed (fails : change ≠ .none) (indexedValue value : Bytes) :
    ∃ message, storage.step (.writeEntry indexedValue primaryKey value, change) =
      (.error (.storage message), storage) := by
  obtain ⟨_ | message, _ | other⟩ := change
  · exact absurd rfl fails
  all_goals exact ⟨_, rfl⟩

/-- A deletion that fails leaves the shard as it was. -/
theorem step_delete_failed (fails : change ≠ .none) (indexedValue : Bytes) :
    ∃ message next, storage.step (.deleteEntry indexedValue primaryKey, change) =
      (.error (.storage message), next) ∧ next.store = storage.store ∧
        next.config = storage.config := by
  obtain ⟨_ | message, _ | other⟩ := change
  · exact absurd rfl fails
  all_goals exact ⟨_, _, rfl, rfl, rfl⟩

end

/-- While nothing fails, a B-tree index deletes as it says. -/
theorem delete_none : (btree tree).delete format .none primaryKey =
    (tree.delete format primaryKey).map id .btree := by
  simp only [delete, BTreeIndex.delete, IndexFaults.scanned_none]
  cases tree.query format .all with
  | error error => rfl
  | ok entries =>
    simp only [PersistentIndexStore.deleteFirst]
    cases entries.find? (·.primaryKey = primaryKey) <;> rfl

theorem query_all (holds : Holds format tree.storage held) :
    tree.query format .all = .ok (if (btree tree).IsLast then [] else held) := by
  refine (holds.scanEntries_all .unbounded .unbounded).trans (congrArg Except.ok ?_)
  have scanned : ∀ text, Scanned tree.storage.config .unbounded .unbounded text ↔
      ¬(btree tree).IsLast := fun text => and_iff_right rfl
  simp only [scanned]
  split <;> simp [*]

/-- A B-tree index deletes the first entry with a primary key. -/
theorem delete_btree (holds : Holds format tree.storage held) :
    ∃ storage, (btree tree).delete format .none primaryKey =
        (.ok (), .btree { tree with storage }) ∧
      Holds format storage (if (btree tree).IsLast then held
        else held.eraseP (·.primaryKey = primaryKey)) := by
  refine ⟨tree.storage.deleteFirst primaryKey (if (btree tree).IsLast then [] else held), ?_, ?_⟩
  · rw [delete_none, BTreeIndex.delete, query_all holds]
    rfl
  · split
    · exact holds
    · exact holds.deleteFirst primaryKey

/-- A deletion does what it should exactly in a B-tree index with at most one entry for the
primary key, and with none if the index has the last number. -/
theorem removes_iff (holds : Holds format index.storage held) :
    index.Removes format primaryKey ↔ (∃ tree, index = .btree tree) ∧
        held.countP (·.primaryKey = primaryKey) ≤ if index.IsLast then 0 else 1 := by
  cases index with
  | hash hash => exact iff_of_false (fun removes => by cases removes.1) (by simp)
  | btree tree =>
    obtain ⟨storage, deleted, after⟩ := delete_btree primaryKey holds
    have before : (btree tree).storage.heldEntries format = held := holds.heldEntries_eq
    simp only [Removes, deleted, before]
    change True ∧ (∀ entry ∈ storage.heldEntries format, _) ∧
      (∀ entry ∈ held, _ → entry ∈ storage.heldEntries format) ↔ _
    rw [after.heldEntries_eq]
    split
    next => simp +contextual
    next =>
      have kept : ∀ entry ∈ held, entry.primaryKey ≠ primaryKey →
          entry ∈ held.eraseP (·.primaryKey = primaryKey) :=
        fun entry mem other => (mem_eraseP_of_neg (by simpa using other)).mpr mem
      have rest := forall_mem_eraseP_iff (fun entry => decide (entry.primaryKey = primaryKey)) held
      simp only [decide_eq_true_eq] at rest
      rw [iff_true_intro kept, and_true, true_and]
      exact rest.trans (and_iff_right ⟨tree, rfl⟩).symm

/-- An index deletes an entry only if it has one. -/
theorem mem_eraseP_iff_mem (sorted : KeySorted IndexEntry.text held) :
    (∀ entry, entry ∈ held.eraseP (·.primaryKey = primaryKey) ↔ entry ∈ held) ↔
      ∀ entry ∈ held, entry.primaryKey ≠ primaryKey := by
  constructor
  · intro same entry mem hasKey
    have nodup : held.Nodup := sorted.imp fun less => ne_of_apply_ne IndexEntry.text less.ne
    have fits := (subperm_of_subset nodup fun entry => (same entry).mpr).length_le
    have shorter := length_eraseP_add_one (p := (·.primaryKey = primaryKey)) mem
      (decide_eq_true hasKey)
    omega
  · intro absent
    rw [eraseP_of_forall_not (by simpa using absent)]
    exact fun _ => Iff.rfl

/-- A deletion that fails, or that has nothing to delete, leaves the entries. -/
theorem delete_keeps (holds : Holds format tree.storage held)
    (keeps : (btree tree).IsLast ∨ (∀ entry ∈ held, entry.primaryKey ≠ primaryKey) ∨
      faults ≠ .none) :
    ∃ answer storage, (btree tree).delete format faults primaryKey =
        (answer, .btree { tree with storage }) ∧ Holds format storage held := by
  by_cases nothing : faults = .none
  · obtain ⟨storage, deleted, after⟩ := delete_btree primaryKey holds
    refine ⟨_, storage, nothing ▸ deleted, ?_⟩
    split at after
    next => exact after
    next notLast =>
      have absent := (keeps.resolve_left notLast).resolve_right (not_not.mpr nothing)
      rwa [eraseP_of_forall_not (by simpa using absent)] at after
  · simp only [delete, query_all holds]
    by_cases scans : faults.scan = none
    · obtain ⟨_, change⟩ := faults
      cases scans
      have fails : change ≠ .none := fun none => nothing (none ▸ rfl)
      simp only [IndexFaults.scanned]
      cases (if (btree tree).IsLast then [] else held).find? (·.primaryKey = primaryKey) with
      | none => exact ⟨_, _, rfl, holds⟩
      | some entry =>
        obtain ⟨message, next, failed, sameStore, sameConfig⟩ :=
          step_delete_failed primaryKey tree.storage fails entry.indexedValue
        refine ⟨_, next, congrArg (Prod.map _ _) failed, ⟨?_⟩⟩
        rw [sameStore, sameConfig, holds.entries_eq]
    · obtain ⟨message, failed⟩ := IndexFaults.scanned_failed scans _
      rw [failed]
      exact ⟨_, _, rfl, holds⟩

section

variable {entry : IndexEntry} {storage : PersistentIndexStore Cache} {isUnique : Bool}

theorem storeChecked_failed (format : EntryFormat) (entry : IndexEntry)
    (storage : PersistentIndexStore Cache) {change : Faults} {checked : Except IndexError Unit}
    (fails : change ≠ .none ∨ checked ≠ .ok ()) :
    ∃ error, storage.storeChecked format change entry checked = (.error error, storage) := by
  cases checked with
  | error error => exact ⟨error, rfl⟩
  | ok checked =>
    obtain ⟨message, failed⟩ := step_write_failed entry.primaryKey storage
      (fails.resolve_right (not_not.mpr rfl)) entry.indexedValue (format.serialize entry)
    exact ⟨_, congrArg (Prod.map _ _) failed⟩

section

variable (holds : Holds format storage held)

include holds

/-- An entry passes the check of a B-tree index. -/
theorem checkUnique_btree :
    (btree ⟨storage, isUnique⟩).checkUnique format faults entry = .ok () ↔
      ¬(isUnique = true ∧ (faults.scan ≠ none ∨ FirstDiffers held entry)) := by
  cases isUnique
  · exact iff_of_true rfl (by simp)
  obtain ⟨existing, found, isFirst⟩ := exists_existing holds entry
  simp only [checkUnique, BTreeIndex.query, found]
  by_cases scans : faults.scan = none
  · obtain ⟨_, change⟩ := faults
    cases scans
    change refuseOther _ entry existing = .ok () ↔ _
    by_cases differs : FirstDiffers held entry
    · obtain ⟨first, mem, near, least, otherKey⟩ := id differs
      rw [refuseOther_differs ((isFirst first).mpr ⟨mem, near, least⟩) otherKey]
      simp [differs]
    · have sameKey : ∀ first, existing.head? = some first →
          first.primaryKey = entry.primaryKey := by
        intro first hit
        by_contra otherKey
        obtain ⟨mem, near, least⟩ := (isFirst first).mp hit
        exact differs ⟨first, mem, near, least, otherKey⟩
      simp [refuseOther_agrees sameKey, differs]
  · obtain ⟨message, failed⟩ := IndexFaults.scanned_failed scans (.ok existing)
    simp [failed, scans, bind, Except.bind]

/-- An insert that fails changes nothing. -/
theorem insert_failed (fails : InsertFails isUnique faults held entry) :
    ∃ error, (btree ⟨storage, isUnique⟩).insert format faults entry =
      (.error error, .btree ⟨storage, isUnique⟩) := by
  obtain ⟨error, failed⟩ := storeChecked_failed format entry storage
    (fails.imp_right fun refused => mt (checkUnique_btree holds).mp (not_not.mpr refused))
  exact ⟨error, congrArg (Prod.map id (btree ⟨storage, isUnique⟩).withStorage) failed⟩

theorem insert_written (succeeds : ¬InsertFails isUnique faults held entry) :
    ((btree ⟨storage, isUnique⟩).insert format faults entry).1 = .ok () := by
  obtain ⟨writes, passes⟩ := not_or.mp succeeds
  rw [insert, (checkUnique_btree holds).mpr passes, not_not.mp writes]
  rfl

end

end

theorem update_of_deleted {deletion insertion : IndexFaults} {oldEntry newEntry : IndexEntry}
    {next : OrderedIndex Cache}
    (deleted : index.delete format deletion oldEntry.primaryKey = (.ok (), next)) :
    index.update format deletion insertion oldEntry newEntry =
      next.insert format insertion newEntry := by
  rw [update, deleted]

/-- An update that fails leaves the entries that its deletion left. -/
theorem holds_update_failed {deletion insertion : IndexFaults} {oldEntry newEntry : IndexEntry}
    {answer : Except IndexError Unit} {storage : PersistentIndexStore Cache} {error : IndexError}
    (deleted : (btree tree).delete format deletion oldEntry.primaryKey =
      (answer, .btree { tree with storage })) (holds : Holds format storage held)
    (failed : ((btree tree).update format deletion insertion oldEntry newEntry).1 = .error error) :
    Holds format ((btree tree).update format deletion insertion oldEntry newEntry).2.storage
      held := by
  cases answer with
  | error =>
    rw [update, deleted]
    exact holds
  | ok =>
    rw [update_of_deleted deleted] at failed ⊢
    by_cases fails : InsertFails tree.isUnique insertion held newEntry
    · obtain ⟨reason, refused⟩ := insert_failed holds fails
      rw [refused]
      exact holds
    · rw [insert_written holds fails] at failed
      cases failed

/-- An update that fails leaves the entries as they were, unless an old entry was deleted and a
B-tree index then does not take the new one. -/
theorem keepsOnError_iff (holds : Holds format index.storage held)
    (deletion insertion : IndexFaults) (oldEntry newEntry : IndexEntry) :
    index.KeepsOnError format deletion insertion oldEntry newEntry ↔
      index.IsLast ∨ (∀ entry ∈ held, entry.primaryKey ≠ oldEntry.primaryKey) ∨
        deletion ≠ .none ∨ ∀ tree, index = .btree tree → ¬InsertFails tree.isUnique insertion
            (held.eraseP (·.primaryKey = oldEntry.primaryKey)) newEntry := by
  cases index with
  | hash index =>
    have failed : (hash index).update format deletion insertion oldEntry newEntry =
      (.error (.queryFailed "Hash indexes only support exact match queries"), hash index) := rfl
    rw [KeepsOnError, failed]
    simp
  | btree tree =>
    have before : (btree tree).storage.heldEntries format = held := holds.heldEntries_eq
    rw [KeepsOnError, before]
    by_cases keeps : (btree tree).IsLast ∨
        (∀ entry ∈ held, entry.primaryKey ≠ oldEntry.primaryKey) ∨ deletion ≠ .none
    · obtain ⟨answer, storage, deleted, after⟩ := delete_keeps oldEntry.primaryKey holds keeps
      refine iff_of_true (fun error failed => ?_) (by tauto)
      rw [(holds_update_failed deleted after failed).heldEntries_eq]
      simp
    · obtain ⟨notLast, present, nothing⟩ := by simpa only [not_or] using keeps
      obtain ⟨storage, deleted, after⟩ := delete_btree oldEntry.primaryKey holds
      rw [if_neg notLast] at after
      rw [not_not.mp nothing]
      simp only [update_of_deleted deleted]
      by_cases fails : InsertFails tree.isUnique insertion
          (held.eraseP (·.primaryKey = oldEntry.primaryKey)) newEntry
      · refine iff_of_false (fun same => present ?_) (by simp [notLast, present, fails])
        obtain ⟨error, refused⟩ := insert_failed after fails
        have kept := same error (congrArg Prod.fst refused)
        rw [refused, show (btree ⟨storage, tree.isUnique⟩).storage.heldEntries format = _ from
          after.heldEntries_eq] at kept
        exact (mem_eraseP_iff_mem _ holds.sorted).mp kept
      · refine iff_of_true (fun error failed => ?_) (by simp [fails])
        rw [insert_written after fails] at failed
        cases failed

/-- Calls that change an index, with what fails during them. -/
inductive ChangeCall where
  | insert (faults : IndexFaults) (entry : IndexEntry)
  | delete (faults : IndexFaults) (primaryKey : Bytes)
  | update (deletion insertion : IndexFaults) (oldEntry newEntry : IndexEntry)
  | build (tableData : List (Bytes × Bytes))

def step (format : EntryFormat) : Machine (OrderedIndex Cache) ChangeCall (Except IndexError Unit)
  | index, .insert faults entry => index.insert format faults entry
  | index, .delete faults primaryKey => index.delete format faults primaryKey
  | index, .update deletion insertion oldEntry newEntry =>
    index.update format deletion insertion oldEntry newEntry
  | index, .build tableData => index.build format tableData

section

variable (holds : ∃ held, Holds format index.storage held)

include holds

theorem exists_holds_insert (faults : IndexFaults) (entry : IndexEntry) :
    ∃ held, Holds format (index.insert format faults entry).2.storage held := by
  obtain ⟨held, holds⟩ := holds
  have kept : (index.insert format faults entry).2.storage = (index.storage.storeChecked format
      faults.change entry (index.checkUnique format faults entry)).2 := by
    cases index <;> rfl
  rw [kept]
  by_cases fails : faults.change ≠ .none ∨ index.checkUnique format faults entry ≠ .ok ()
  · obtain ⟨error, failed⟩ := storeChecked_failed format entry index.storage fails
    rw [failed]
    exact ⟨held, holds⟩
  · obtain ⟨writes, passes⟩ := not_or.mp fails
    rw [not_not.mp writes, not_not.mp passes]
    exact ⟨_, holds.storeEntry entry⟩

theorem exists_holds_delete (faults : IndexFaults) (primaryKey : Bytes) :
    ∃ held, Holds format (index.delete format faults primaryKey).2.storage held := by
  obtain ⟨held, holds⟩ := holds
  cases index with
  | hash index => exact ⟨held, holds⟩
  | btree tree =>
    by_cases nothing : faults = .none
    · obtain ⟨storage, deleted, after⟩ := delete_btree primaryKey holds
      rw [nothing, deleted]
      exact ⟨_, after⟩
    · obtain ⟨answer, storage, deleted, after⟩ :=
        delete_keeps primaryKey holds (.inr (.inr nothing))
      rw [deleted]
      exact ⟨_, after⟩

end

theorem exists_holds_buildRows {storage : PersistentIndexStore Cache}
    (holds : Holds format storage held) (unique : Bool) (tableData : List (Bytes × Bytes)) :
    ∃ after, Holds format (buildRows format unique storage tableData).2 after := by
  induction tableData generalizing storage held with
  | nil => exact ⟨held, holds⟩
  | cons row rest ih =>
    rw [buildRows]
    split
    · exact ⟨held, holds⟩
    · exact ih (holds.storeEntry _)

/-- Whatever is called on an index over an empty shard and whatever fails, the shard holds
entries of the index and nothing else. -/
theorem exists_holds_final (isNew : index.storage.store = Shard.empty) (calls : List ChangeCall) :
    ∃ held, Holds format (Machine.final (step format) index calls).storage held := by
  refine Machine.invariant
    (fun index : OrderedIndex Cache => ∃ held, Holds format index.storage held)
    (fun index call holds => ?_) ⟨[], ⟨congrArg Shard.entries isNew⟩⟩ calls
  cases call with
  | insert faults entry => exact exists_holds_insert holds faults entry
  | delete faults primaryKey => exact exists_holds_delete holds faults primaryKey
  | update deletion insertion oldEntry newEntry =>
    have deleted := exists_holds_delete holds deletion oldEntry.primaryKey
    rw [step, update]
    split
    next next isDeleted =>
      rw [isDeleted] at deleted
      exact exists_holds_insert deleted insertion newEntry
    next => exact deleted
  | build tableData =>
    obtain ⟨held, holds⟩ := holds
    cases index with
    | btree tree => exact exists_holds_buildRows holds tree.isUnique tableData
    | hash index => exact exists_holds_buildRows holds true tableData

/-- Some entries written one after the other. -/
def written (entries : List IndexEntry) : PersistentIndexStore RecentEntries :=
  entries.foldl (·.storeEntry .ofMarked) (.new RecentEntries ⟨⟨⟨1⟩⟩, 10⟩ Shard.empty)

/-- Entries with different values and primary keys. -/
theorem removes_first : (btree ⟨written [⟨[97], [1], none⟩, ⟨[98], [2], none⟩], true⟩).Removes
    .ofMarked [1] :=
  (removes_iff [1] (((Holds.new _).storeEntry ⟨[97], [1], none⟩).storeEntry
    ⟨[98], [2], none⟩)).mpr ⟨⟨_, rfl⟩, by decide⟩

/-- A hash index deletes nothing, and a B-tree index only the first of two entries. -/
theorem not_removed :
    (∀ primaryKey, (hash ⟨written [⟨[97], [1], none⟩]⟩).delete .ofMarked .none primaryKey =
        (.error (.queryFailed "Hash indexes only support exact match queries"),
          hash ⟨written [⟨[97], [1], none⟩]⟩)) ∧
      ((btree ⟨written [⟨[97], [1], none⟩, ⟨[98], [1], none⟩], false⟩).delete
        .ofMarked .none [1]).2.storage.heldEntries .ofMarked = [⟨[98], [1], none⟩] :=
  ⟨fun _ => rfl, by decide +kernel⟩

/-- The value is free, and the log refuses the deletion. -/
theorem keepsOnError_free :
    let index := btree ⟨written [⟨[97], [1], none⟩], true⟩
    index.KeepsOnError .ofMarked .none .none ⟨[97], [1], none⟩ ⟨[98], [1], none⟩ ∧
      index.KeepsOnError .ofMarked ⟨none, some "log", none⟩ .none ⟨[97], [1], none⟩
        ⟨[98], [1], none⟩ :=
  have holds := (Holds.new _).storeEntry ⟨[97], [1], none⟩
  ⟨(keepsOnError_iff holds _ _ _ _).mpr (.inr (.inr (.inr fun _ _ => by
      simp [InsertFails, IndexFaults.none, FirstDiffers, insertItem]))),
    (keepsOnError_iff holds _ _ _ _).mpr (.inr (.inr (.inl (by decide))))⟩

/-- The old entry is lost when the value of the new one is taken, and also when the values need
not be unique but the log refuses the new entry. -/
theorem lost_on_error :
    let refused := (btree ⟨written [⟨[97], [1], none⟩, ⟨[98], [2], none⟩], true⟩).update .ofMarked
      .none .none ⟨[97], [1], none⟩ ⟨[98], [1], none⟩
    let unlogged := (btree ⟨written [⟨[97], [1], none⟩], false⟩).update .ofMarked
      .none ⟨none, some "log", none⟩ ⟨[97], [1], none⟩ ⟨[98], [1], none⟩
    (refused.1 matches .error (.uniqueViolation _)) = true ∧
      refused.2.storage.heldEntries .ofMarked = [⟨[98], [2], none⟩] ∧
      (unlogged.1 matches .error (.storage _)) = true ∧
      unlogged.2.storage.heldEntries .ofMarked = [] := by
  decide +kernel

end OrderedIndex

end Nanograph.Idx
