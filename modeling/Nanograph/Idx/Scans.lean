import Nanograph.Idx.Ordered

/-!
# Scans of a B-tree index

After a sequence of inserts a scan should find, for each pair of an indexed value in the range
and a primary key, the entry inserted last for the pair. The store tells entries apart by their
texts alone, and it compares texts with bounds where indexed values are meant. The scans are
exact when this makes no difference to the entries that were inserted.
-/

namespace Nanograph.Idx

open List Foundation Kvt PersistentIndexStore IndexEntry

variable (inserted : List IndexEntry) (wanted : Bytes → Prop)

/-- An entry is the last one inserted for its indexed value and its primary key. -/
def Latest (entry : IndexEntry) : Prop :=
  inserted.reverse.find? (fun other =>
    other.indexedValue = entry.indexedValue ∧ other.primaryKey = entry.primaryKey) = some entry

/-- An entry is the last one inserted with its text. -/
def Kept (entry : IndexEntry) : Prop :=
  itemAt text inserted.reverse entry.text = some entry

/-- Of the entries inserted last for their pairs, those with a wanted value are listed, each
once. -/
structure ListsLatest (entries : List IndexEntry) : Prop where
  nodup : entries.Nodup
  mem_iff : ∀ entry, entry ∈ entries ↔ wanted entry.indexedValue ∧ Latest inserted entry

/-- The indexed values ascend. -/
def Ascending (entries : List IndexEntry) : Prop :=
  entries.Pairwise (·.indexedValue ≤ ·.indexedValue)

/-- No entry with a wanted value was replaced by an entry of another pair. -/
def Unshadowed : Prop :=
  ∀ entry, Latest inserted entry → wanted entry.indexedValue → Kept inserted entry

/-- A value is wanted when the text of the entry is scanned. -/
def Aligned (scanned : Bytes → Prop) : Prop :=
  ∀ entry, Kept inserted entry → (wanted entry.indexedValue ↔ scanned entry.text)

/-- The texts are in the order of the wanted values. -/
def InOrder : Prop :=
  ∀ first second, Kept inserted first → Kept inserted second → wanted first.indexedValue →
    wanted second.indexedValue → first.indexedValue < second.indexedValue → first.text < second.text

variable {inserted wanted} {held : List IndexEntry} {scanned : Bytes → Prop} [DecidablePred scanned]

/-- An entry that was not replaced is the last one of its pair. -/
theorem Kept.latest {entry : IndexEntry} (kept : Kept inserted entry) : Latest inserted entry := by
  obtain ⟨_, front, back, split, skipped⟩ := find?_eq_some_iff_append.mp kept
  refine find?_eq_some_iff_append.mpr ⟨by simp, front, back, split, ?_⟩
  intro other mem
  have differs := skipped other mem
  simp only [Bool.not_eq_true', decide_eq_false_iff_not] at differs ⊢
  rintro ⟨sameValue, sameKey⟩
  exact differs (by rw [text, sameValue, sameKey, text])

section

variable (sorted : KeySorted text held) (members : ∀ entry, entry ∈ held ↔ Kept inserted entry)

include sorted members

/-- What a scan finds is exact when no wanted entry was replaced and the wanted values are the
scanned ones. -/
theorem listsLatest_filter_iff :
    ListsLatest inserted wanted (held.filter fun entry => scanned entry.text) ↔
      Unshadowed inserted wanted ∧ Aligned inserted wanted scanned := by
  have found : ∀ entry, (entry ∈ held.filter fun entry => scanned entry.text) ↔
      Kept inserted entry ∧ scanned entry.text := by
    intro entry
    rw [mem_filter, members, decide_eq_true_iff]
  constructor
  · intro lists
    refine ⟨fun entry latest isWanted => ?_, fun entry kept => ⟨fun isWanted => ?_, ?_⟩⟩
    · exact ((found entry).mp ((lists.mem_iff entry).mpr ⟨isWanted, latest⟩)).1
    · exact ((found entry).mp ((lists.mem_iff entry).mpr ⟨isWanted, kept.latest⟩)).2
    · intro isScanned
      exact ((lists.mem_iff entry).mp ((found entry).mpr ⟨kept, isScanned⟩)).1
  · rintro ⟨unshadowed, aligned⟩
    refine ⟨(sorted.imp fun less => ne_of_apply_ne text less.ne).filter _, ?_⟩
    intro entry
    rw [found]
    constructor
    · rintro ⟨kept, isScanned⟩
      exact ⟨(aligned entry kept).mpr isScanned, kept.latest⟩
    · rintro ⟨isWanted, latest⟩
      have kept := unshadowed entry latest isWanted
      exact ⟨kept, (aligned entry kept).mp isWanted⟩

/-- The values that are found ascend when the texts are in their order. -/
theorem ascending_filter_iff (aligned : Aligned inserted wanted scanned) :
    Ascending (held.filter fun entry => scanned entry.text) ↔ InOrder inserted wanted := by
  have foundSorted := sorted.filter fun entry => decide (scanned entry.text)
  constructor
  · intro ascending first second firstKept secondKept firstWanted secondWanted less
    have listed : ∀ entry, Kept inserted entry → wanted entry.indexedValue →
        entry ∈ held.filter fun entry => scanned entry.text := by
      intro entry kept isWanted
      exact mem_filter.mpr ⟨(members entry).mpr kept,
        decide_eq_true ((aligned entry kept).mp isWanted)⟩
    have forward : (held.filter fun entry => scanned entry.text).Pairwise fun one other =>
        one.indexedValue < other.indexedValue → one.text < other.text := by
      refine foundSorted.imp ?_
      exact fun less _ => less
    exact forward.forall_of_forall_of_flip (fun _ _ less => absurd less (lt_irrefl _))
      (ascending.imp fun notGreater greater => absurd greater notGreater.not_gt)
      (listed first firstKept firstWanted) (listed second secondKept secondWanted) less
  · intro inOrder
    refine List.Pairwise.imp_of_mem (fun {first second} firstIn secondIn less => ?_) foundSorted
    have firstKept := (members first).mp (mem_of_mem_filter firstIn)
    have secondKept := (members second).mp (mem_of_mem_filter secondIn)
    have firstWanted := (aligned first firstKept).mpr (of_decide_eq_true (mem_filter.mp firstIn).2)
    have secondWanted :=
      (aligned second secondKept).mpr (of_decide_eq_true (mem_filter.mp secondIn).2)
    refine not_lt.mp fun greater => less.asymm ?_
    exact inOrder second first secondKept firstKept secondWanted firstWanted greater

end

namespace BTreeIndex

variable {Cache : Type} [LruCache Cache] {format : EntryFormat} {config : PersistenceConfig}

/-- An insert into an index whose values need not be unique writes the entry. -/
theorem insert_of_not_unique {index : BTreeIndex Cache} (notUnique : index.isUnique = false)
    (entry : IndexEntry) :
    index.insert format entry =
      (.ok (), { index with storage := index.storage.storeEntry format entry }) := by
  simp [insert, notUnique, pure, Except.pure]

/-- What an index holds after a sequence of inserts. -/
theorem holds_final (index : BTreeIndex Cache) (notUnique : index.isUnique = false)
    (holds : Holds format index.storage held) (inserted : List IndexEntry) :
    Holds format (Machine.final (insert format) index inserted).storage
      (inserted.foldl (fun held entry => insertItem text entry held) held) := by
  induction inserted generalizing index held with
  | nil => exact holds
  | cons entry rest ih =>
    rw [Machine.final, foldl_cons, insert_of_not_unique notUnique]
    exact ih _ notUnique (holds.storeEntry entry)

theorem config_final (index : BTreeIndex Cache) (notUnique : index.isUnique = false)
    (inserted : List IndexEntry) :
    (Machine.final (insert format) index inserted).storage.config = index.storage.config := by
  induction inserted generalizing index with
  | nil => rfl
  | cons entry rest ih =>
    rw [Machine.final, insert_of_not_unique notUnique]
    exact ih _ notUnique

variable (Cache) in
/-- The index is a list of the entries that were not replaced, in the order of their texts. -/
theorem exists_held (format : EntryFormat) (config : PersistenceConfig)
    (inserted : List IndexEntry) :
    ∃ held, Holds format
        (Machine.final (insert format) (new Cache config Shard.empty false) inserted).storage held ∧
      ∀ entry, entry ∈ held ↔ Kept inserted entry := by
  refine ⟨_, holds_final _ rfl (Holds.new config) inserted, fun entry => ?_⟩
  obtain ⟨found, sorted⟩ : itemAt text _ _ = _ ∧ _ :=
    itemAt_foldl_insertItem inserted entry.text
  rw [Kept, ← found]
  exact sorted.mem_iff

/-- Indexed values within two bounds. -/
def Within (start last : Bound Bytes) (value : Bytes) : Prop :=
  start.fromStart value = true ∧ last.upToEnd value = true

/-- The texts that a scan for some first bytes finds: those that start with the bytes, only the
bytes themselves if the last one is the highest byte, and none if there are no bytes. -/
def PrefixScanned (bytes text : Bytes) : Prop :=
  match bytes.getLast? with
  | some last => if last < 255 then bytes <+: text else text = bytes
  | none => False

theorem scanned_endPrefix (bytes text : Bytes) :
    Scanned config (.included bytes) (.excluded (endPrefix bytes)) text ↔
      PrefixScanned bytes text := by
  have bounds : ∀ last, Scanned config (.included bytes) (.excluded last) text ↔
      bytes ≤ text ∧ text < last := by
    simp [Scanned, Bound.fromStart, scansTo]
  rw [bounds]
  exact between_endPrefix bytes text

variable (Cache) in
/-- A scan without limit over the entries that were inserted. -/
theorem query_final (format : EntryFormat) (config : PersistenceConfig)
    (inserted : List IndexEntry) :
    ∃ held, KeySorted text held ∧ (∀ entry, entry ∈ held ↔ Kept inserted entry) ∧
      ∀ start last,
        (Machine.final (insert format) (new Cache config Shard.empty false) inserted).query format
            ⟨start, last, none, false⟩ =
          .ok (held.filter fun entry => Scanned config start last entry.text) := by
  obtain ⟨held, holds, members⟩ := exists_held Cache format config inserted
  refine ⟨held, holds.sorted, members, fun start last => ?_⟩
  have scan := holds.scanEntries_all start last
  rwa [config_final _ rfl] at scan

/-- A range scan is exact and ascending iff no pair with a value in the range was overwritten by
another pair with the same text, the values in the range are those whose texts are scanned, and
the texts are in the order of the values. -/
theorem rangeScan_exact_iff (format : EntryFormat) (config : PersistenceConfig)
    (inserted : List IndexEntry) (start last : Bound Bytes) :
    (∃ entries,
        (Machine.final (insert format) (new Cache config Shard.empty false) inserted).rangeScan
          format start last none false = .ok entries ∧
        ListsLatest inserted (Within start last) entries ∧ Ascending entries) ↔
      Unshadowed inserted (Within start last) ∧
        Aligned inserted (Within start last) (Scanned config start last) ∧
          InOrder inserted (Within start last) := by
  obtain ⟨held, sorted, members, scan⟩ := query_final Cache format config inserted
  rw [rangeScan, scan]
  simp only [Except.ok.injEq, exists_eq_left']
  rw [listsLatest_filter_iff sorted members, and_assoc]
  refine and_congr_right fun _ => and_congr_right fun aligned => ?_
  exact ascending_filter_iff sorted members aligned

/-- A prefix scan is exact iff no pair with such a value was overwritten by another pair with the
same text and the values with the prefix are those whose texts are scanned. -/
theorem prefixScan_exact_iff (format : EntryFormat) (config : PersistenceConfig)
    (inserted : List IndexEntry) (bytes : Bytes) :
    (∃ entries,
        (Machine.final (insert format) (new Cache config Shard.empty false) inserted).prefixScan
          format bytes none = .ok entries ∧
        ListsLatest inserted (bytes <+: ·) entries) ↔
      Unshadowed inserted (bytes <+: ·) ∧ Aligned inserted (bytes <+: ·) (PrefixScanned bytes) := by
  obtain ⟨held, sorted, members, scan⟩ := query_final Cache format config inserted
  rw [prefixScan, scan]
  simp only [Except.ok.injEq, exists_eq_left']
  rw [listsLatest_filter_iff sorted members]
  refine and_congr_right fun _ => forall₂_congr fun entry _ => ?_
  rw [scanned_endPrefix]

/-- What the scans of an index find after inserts into an empty one. -/
theorem scans_exact_iff (format : EntryFormat) (config : PersistenceConfig)
    (inserted : List IndexEntry) :
    let index := Machine.final (insert format) (new Cache config Shard.empty false) inserted
    (∀ start last, (∃ entries, index.rangeScan format start last none false = .ok entries ∧
          ListsLatest inserted (Within start last) entries ∧ Ascending entries) ↔
        Unshadowed inserted (Within start last) ∧
          Aligned inserted (Within start last) (Scanned config start last) ∧
            InOrder inserted (Within start last)) ∧
    ∀ bytes, (∃ entries, index.prefixScan format bytes none = .ok entries ∧
          ListsLatest inserted (bytes <+: ·) entries) ↔
        Unshadowed inserted (bytes <+: ·) ∧ Aligned inserted (bytes <+: ·) (PrefixScanned bytes) :=
  ⟨rangeScan_exact_iff format config inserted, prefixScan_exact_iff format config inserted⟩

/-- Two pairs with one text, of which the first is lost, a value behind the range that is found,
and an empty prefix, which should find everything. -/
theorem scans_not_exact :
    let after := fun inserted =>
      Machine.final (insert .ofMarked) (new RecentEntries ⟨⟨⟨1⟩⟩, 10⟩ Shard.empty false) inserted
    let pairs : List IndexEntry := [⟨[97], [98], none⟩, ⟨[97, 98], [], none⟩]
    let longer : List IndexEntry := [⟨[97, 98], [1], none⟩]
    (after pairs).rangeScan .ofMarked .unbounded .unbounded none false =
        .ok [⟨[97, 98], [], none⟩] ∧
      (after longer).rangeScan .ofMarked (.included [97]) (.included [97]) none false = .ok longer ∧
      (after longer).prefixScan .ofMarked [] none = .ok [] ∧
      ¬∃ entries, (after longer).rangeScan .ofMarked (.included [97]) (.included [97]) none false =
        .ok entries ∧ ListsLatest longer (Within (.included [97]) (.included [97])) entries := by
  intro after pairs longer
  have stray : (after longer).rangeScan .ofMarked (.included [97]) (.included [97]) none false =
      .ok longer := by decide +kernel
  refine ⟨by decide +kernel, stray, by decide +kernel, ?_⟩
  rintro ⟨entries, found, lists⟩
  rw [stray, Except.ok.injEq] at found
  subst found
  exact absurd ((lists.mem_iff ⟨[97, 98], [1], none⟩).mp (by decide)).1.2 (by decide)

end BTreeIndex

end Nanograph.Idx
