import Nanograph.Foundation.ListCut
import Nanograph.Mvcc.Tree

/-!
# The chains of a leaf

Every operation of a leaf is described by what it does to the versions of each key. A
key without versions is not in the leaf.
-/

namespace Nanograph.Mvcc

open List hiding lookup
open Foundation BTree

/-- The commit timestamps of versions get smaller along the list, and all of them lie before
the next one. -/
structure Stamped (next : Nat) (versions : List VersionedValue) : Prop where
  positive : ∀ version ∈ versions, 0 < version.commitTs
  earlier : ∀ version ∈ versions, version.commitTs < next
  descending : versions.Pairwise (·.commitTs > ·.commitTs)

namespace Stamped

variable {next later : Nat} {versions kept : List VersionedValue}

theorem mono (stamped : Stamped next versions) (le : next ≤ later) : Stamped later versions :=
  ⟨stamped.positive, fun version mem => (stamped.earlier version mem).trans_le le,
    stamped.descending⟩

theorem sublist (stamped : Stamped next versions) (isKept : kept.Sublist versions) :
    Stamped next kept :=
  ⟨fun version mem => stamped.positive version (isKept.subset mem),
    fun version mem => stamped.earlier version (isKept.subset mem),
    stamped.descending.sublist isKept⟩

/-- A version in front that is newer than all others. -/
theorem cons (stamped : Stamped next versions) {version : VersionedValue}
    (positive : 0 < version.commitTs) (earlier : version.commitTs < next)
    (newest : ∀ other ∈ versions, other.commitTs < version.commitTs) :
    Stamped next (version :: versions) :=
  ⟨forall_mem_cons.mpr ⟨positive, stamped.positive⟩, forall_mem_cons.mpr ⟨earlier, stamped.earlier⟩,
    pairwise_cons.mpr ⟨newest, stamped.descending⟩⟩

end Stamped

namespace VersionChain

variable {minSnapshotTs maxVersions snapshotTs next : Nat} {versions : List VersionedValue}

/-- A garbage collection keeps the version that is visible at a snapshot: the newest one, or
one of the newest that is also newer than the least snapshot. A deletion may go. -/
def Spares (minSnapshotTs maxVersions snapshotTs : Nat) (versions : List VersionedValue) : Prop :=
  ∀ version ∈ versions.find? (·.isVisible snapshotTs), version.value.isSome →
    versions.head? = some version ∨ minSnapshotTs < version.commitTs ∧
      versions.findIdx (·.isVisible snapshotTs) < maxVersions

instance : Decidable (Spares minSnapshotTs maxVersions snapshotTs versions) := by
  unfold Spares
  infer_instance

theorem retainVersions_sublist (keepCount : Nat) (versions : List VersionedValue) :
    (retainVersions minSnapshotTs maxVersions keepCount versions).Sublist versions := by
  induction versions generalizing keepCount with
  | nil => exact List.Sublist.refl _
  | cons version rest ih =>
    rw [retainVersions]
    split
    next => exact (ih 1).cons_cons version
    next =>
      split
      next => exact (ih (keepCount + 1)).cons_cons version
      next => exact (ih keepCount).cons version

/-- Behind the first version, a garbage collection keeps the versions up to a point. -/
theorem retainVersions_eq_take {keepCount : Nat} (some_ : 0 < keepCount)
    (descending : versions.Pairwise (·.commitTs > ·.commitTs)) :
    ∃ count, retainVersions minSnapshotTs maxVersions keepCount versions = versions.take count ∧
      ∀ index version, versions[index]? = some version →
        (index < count ↔ minSnapshotTs < version.commitTs ∧ keepCount + index < maxVersions) := by
  induction versions generalizing keepCount with
  | nil => exact ⟨0, rfl, by simp⟩
  | cons first rest ih =>
    rw [pairwise_cons] at descending
    rw [retainVersions, if_neg some_.ne']
    split
    next kept =>
      obtain ⟨count, retained, exact_⟩ :=
        ih (Nat.succ_pos keepCount) descending.2
      refine ⟨count + 1, by rw [retained, take_succ_cons], ?_⟩
      rintro (_ | index) version found
      · cases found
        simpa using kept
      · rw [Nat.add_lt_add_iff_right, exact_ index version found]
        omega
    next dropped =>
      -- what comes behind a version that is dropped is older, so it is dropped as well
      have behind : ∀ index version, (first :: rest)[index]? = some version →
          ¬(minSnapshotTs < version.commitTs ∧ keepCount + index < maxVersions) := by
        rintro (_ | index) version found
        · cases found
          simpa using dropped
        · have older := descending.1 version (mem_of_getElem? found)
          omega
      obtain ⟨count, retained, exact_⟩ := ih some_ descending.2
      refine ⟨0, ?_, fun index version found => by simp [behind index version found]⟩
      rw [retained]
      cases rest with
      | nil => simp
      | cons second others =>
        have none_ : ¬0 < count := by
          rw [exact_ 0 second rfl]
          have older := descending.1 second (by simp)
          omega
        simp [Nat.eq_zero_of_not_pos none_]

/-- A reader sees the same behind a garbage collection exactly if its version is spared. -/
theorem get_gcVersions_iff (descending : versions.Pairwise (·.commitTs > ·.commitTs)) :
    get (gcVersions ⟨versions⟩ minSnapshotTs maxVersions) snapshotTs = get ⟨versions⟩ snapshotTs ↔
      Spares minSnapshotTs maxVersions snapshotTs versions := by
  cases versions with
  | nil => simp [get, gcVersions, retainVersions, Spares]
  | cons first rest =>
    obtain ⟨count, retained, exact_⟩ := @retainVersions_eq_take minSnapshotTs maxVersions rest 1
      Nat.one_pos (pairwise_cons.mp descending).2
    have kept : retainVersions minSnapshotTs maxVersions 0 (first :: rest) =
        (first :: rest).take (count + 1) := by
      rw [retainVersions, if_pos rfl, retained, take_succ_cons]
    simp only [get, gcVersions, kept, find?_take, Spares]
    cases found : (first :: rest).find? (·.isVisible snapshotTs) with
    | none => simp
    | some version =>
      have atIndex := found
      rw [find?_eq_getElem?_findIdx] at atIndex
      have spared : (first :: rest).findIdx (·.isVisible snapshotTs) < count + 1 ↔
          (first :: rest).head? = some version ∨ minSnapshotTs < version.commitTs ∧
            (first :: rest).findIdx (·.isVisible snapshotTs) < maxVersions := by
        have visible : version.isVisible snapshotTs = true := by
          simpa using find?_some found
        have newest : (first :: rest).head? = some version →
            (first :: rest).findIdx (·.isVisible snapshotTs) = 0 := by
          rintro ⟨⟩
          rw [findIdx_cons, visible]
          rfl
        generalize (first :: rest).findIdx (·.isVisible snapshotTs) = index at atIndex newest ⊢
        cases index with
        | zero => exact iff_of_true (Nat.succ_pos count) (.inl atIndex)
        | succ index =>
          rw [Nat.add_lt_add_iff_right, exact_ index version atIndex, Nat.add_comm 1]
          exact (or_iff_right fun isHead => Nat.succ_ne_zero index (newest isHead)).symm
      by_cases inside : (first :: rest).findIdx (·.isVisible snapshotTs) < count + 1
      · rw [if_pos inside]
        exact iff_of_true rfl fun _ isVersion _ => by cases isVersion; exact spared.mp inside
      · rw [if_neg inside]
        have lost := mt spared.mpr inside
        cases value : version.value with
        | none => simp [value]
        | some bytes => simpa [value] using lost

end VersionChain

namespace MvccLeafNode

def versionsOf (leaf : MvccLeafNode) (key : Bytes) : List VersionedValue :=
  (lookup leaf.entries key).elim [] (·.versions)

/-- The keys of a leaf are in order, and each of them has a version. -/
structure WellFormed (leaf : MvccLeafNode) : Prop where
  sorted : Sorted leaf.entries
  nonempty : ∀ entry ∈ leaf.entries, entry.2.versions ≠ []

variable {before after : List (Bytes × VersionChain)}
  {writes : List (Bytes × Option Bytes)} {versions : List VersionedValue}

section

variable {leaf : MvccLeafNode} {key : Bytes}

theorem wellFormed_new : WellFormed new := ⟨List.Pairwise.nil, by simp [new]⟩

theorem stamped_new (next : Nat) (key : Bytes) : Stamped next (new.versionsOf key) :=
  ⟨nofun, nofun, List.Pairwise.nil⟩

/-- The search of a leaf ends at the window of the key. -/
theorem findKeyIndex_window {held : Option VersionChain}
    (window : Window leaf.entries key before held after) :
    leaf.findKeyIndex key = if held.isSome then .ok before.length else .error before.length :=
  window.searchKey_eq

/-- What is looked up in a leaf by a search is looked up in the versions of the key. -/
theorem search_eq (wellFormed : WellFormed leaf) (key : Bytes) {α : Type} (missing : α)
    (found : VersionChain → α) (agrees : found ⟨[]⟩ = missing) :
    (match leaf.findKeyIndex key with
      | .ok idx => found (leaf.chainAtIndex idx)
      | .error _ => missing) = found ⟨leaf.versionsOf key⟩ := by
  obtain ⟨before, held, after, window⟩ := exists_window wellFormed.sorted key
  rw [findKeyIndex_window window, versionsOf, window.lookup_eq]
  cases held with
  | none => exact agrees.symm
  | some chain =>
    simp [chainAtIndex, window.cut]

theorem get_eq (wellFormed : WellFormed leaf) (snapshotTs : Nat) :
    leaf.get key snapshotTs = VersionChain.get ⟨leaf.versionsOf key⟩ snapshotTs :=
  search_eq wellFormed key none (·.get snapshotTs) rfl

theorem getLatest_eq (wellFormed : WellFormed leaf) :
    leaf.getLatest key = VersionChain.getLatest ⟨leaf.versionsOf key⟩ :=
  search_eq wellFormed key none (·.getLatest) rfl

/-- The versions of a key that a write is applied to. A deletion of a key without versions
adds none. -/
def addWrite (createdTs commitTs : Nat) (value : Option Bytes)
    (versions : List VersionedValue) : List VersionedValue :=
  if value = none ∧ versions = [] then [] else ⟨value, createdTs, commitTs⟩ :: versions

section

variable {before after : List (Bytes × VersionChain)} {held : Option VersionChain}

theorem insert_window (window : Window leaf.entries key before held after) (value : Bytes)
    (createdTs : Nat) :
    (leaf.insert key value createdTs).1 =
      ⟨before ++ (key, ⟨.new (some value) createdTs :: held.elim [] (·.versions)⟩) :: after⟩ := by
  rw [MvccLeafNode.insert, findKeyIndex_window window]
  cases held with
  | none => simp [window.cut, insertIdx_cut, VersionChain.withVersion]
  | some chain => simp [window.cut, modify_cut, VersionChain.addVersion]

theorem remove_window (window : Window leaf.entries key before held after) (createdTs : Nat) :
    (leaf.remove key createdTs).1 =
      held.elim leaf fun chain => ⟨before ++ (key, chain.addVersion none createdTs) :: after⟩ := by
  rw [remove, findKeyIndex_window window]
  cases held with
  | none => rfl
  | some chain => simp [window.cut, modify_cut]

/-- A chain with versions at the window of a key. -/
theorem write_window (wellFormed : WellFormed leaf)
    (window : Window leaf.entries key before held after) {chain : VersionChain}
    (nonempty : chain.versions ≠ []) :
    WellFormed ⟨before ++ (key, chain) :: after⟩ ∧
      ∀ other, versionsOf ⟨before ++ (key, chain) :: after⟩ other =
        if other = key then chain.versions else leaf.versionsOf other := by
  refine ⟨⟨window.sorted_write wellFormed.sorted chain, ?_⟩, fun other => ?_⟩
  · intro entry mem
    rcases mem_append.mp mem with early | late
    · apply wellFormed.nonempty
      exact window.erase_sublist.subset (mem_append_left _ early)
    · rcases mem_cons.mp late with rfl | isAfter
      · exact nonempty
      · apply wellFormed.nonempty
        exact window.erase_sublist.subset (mem_append_right _ isAfter)
  · rw [versionsOf, window.lookup_write]
    split <;> rfl

/-- A write changes the versions of its key. -/
theorem applyWrite_spec (wellFormed : WellFormed leaf) (createdTs : Nat)
    (write : Bytes × Option Bytes) :
    WellFormed (applyWrite createdTs leaf write) ∧
      ∀ key, (applyWrite createdTs leaf write).versionsOf key =
        if key = write.1 then addWrite createdTs 0 write.2 (leaf.versionsOf key)
        else leaf.versionsOf key := by
  obtain ⟨written, value⟩ := write
  obtain ⟨before, held, after, window⟩ := exists_window wellFormed.sorted written
  have isHeld : leaf.versionsOf written = held.elim [] (·.versions) := by
    rw [versionsOf, window.lookup_eq]
  cases value with
  | some value =>
    rw [show applyWrite createdTs leaf (written, some value) =
      (leaf.insert written value createdTs).1 from rfl, insert_window window]
    obtain ⟨next, versions⟩ := write_window wellFormed window
      (cons_ne_nil (VersionedValue.new (some value) createdTs) (held.elim [] (·.versions)))
    refine ⟨next, fun key => ?_⟩
    rw [versions]
    split
    next same =>
      rw [same, isHeld, addWrite, if_neg (by simp)]
      rfl
    next => rfl
  | none =>
    rw [show applyWrite createdTs leaf (written, none) =
      (leaf.remove written createdTs).1 from rfl, remove_window window]
    cases held with
    | none =>
      refine ⟨wellFormed, fun key => ?_⟩
      split
      next same =>
        subst same
        rw [isHeld, addWrite, if_pos ⟨rfl, rfl⟩]
        exact isHeld
      next => rfl
    | some chain =>
      have mem : (written, chain) ∈ leaf.entries := by simp [window.cut]
      obtain ⟨next, versions⟩ := write_window wellFormed window
        (cons_ne_nil (VersionedValue.new none createdTs) chain.versions)
      refine ⟨next, fun key => ?_⟩
      rw [Option.elim_some, VersionChain.addVersion, versions]
      split
      next same =>
        rw [same, isHeld, addWrite, if_neg (by simpa using wellFormed.nonempty _ mem)]
        rfl
      next => rfl

end

/-- The versions of a key that a list of writes is applied to. -/
def addWrites (createdTs commitTs : Nat) (writes : List (Bytes × Option Bytes))
    (key : Bytes) (versions : List VersionedValue) : List VersionedValue :=
  (lookup writes key).elim versions (addWrite createdTs commitTs · versions)

/-- A key gets no version, or one in front of those that it has. -/
theorem addWrites_cases (createdTs commitTs : Nat)
    (writes : List (Bytes × Option Bytes)) (key : Bytes) (versions : List VersionedValue) :
    addWrites createdTs commitTs writes key versions = versions ∨
      ∃ value, (key, value) ∈ writes ∧ addWrites createdTs commitTs writes key versions =
        ⟨value, createdTs, commitTs⟩ :: versions := by
  rw [addWrites]
  cases found : lookup writes key with
  | none => exact .inl rfl
  | some value =>
    rw [Option.elim_some, addWrite]
    split
    next nothing => exact .inl nothing.2.symm
    next => exact .inr ⟨value, mem_of_lookup found, rfl⟩

/-- A key that is written gets a version, unless it is deleted and has none. -/
theorem addWrites_of_mem (createdTs commitTs : Nat) {write : Bytes × Option Bytes}
    (mem : write ∈ writes)
    (deleted : ∀ value, (write.1, value) ∈ writes → value = none → versions ≠ []) :
    ∃ value, addWrites createdTs commitTs writes write.1 versions =
      ⟨value, createdTs, commitTs⟩ :: versions := by
  rw [addWrites]
  cases found : lookup writes write.1 with
  | none =>
    rw [lookup, Option.map_eq_none_iff, find?_eq_none] at found
    have missing := found write mem
    simp at missing
  | some value =>
    have isWritten := deleted value (mem_of_lookup found)
    rw [Option.elim_some, addWrite, if_neg fun nothing => isWritten nothing.1 nothing.2]
    exact ⟨value, rfl⟩

/-- The newest value of a key that is written. -/
theorem head?_addWrites (createdTs commitTs : Nat)
    (writes : List (Bytes × Option Bytes)) (key : Bytes) (versions : List VersionedValue) :
    (addWrites createdTs commitTs writes key versions).head?.bind (·.value) =
      (lookup writes key).elim (versions.head?.bind (·.value)) id := by
  rw [addWrites]
  cases lookup writes key with
  | none => rfl
  | some value =>
    rw [Option.elim_some, addWrite]
    split
    next nothing => rw [nothing.1]; rfl
    next => rfl

/-- Writes of different keys change the versions of their keys. -/
theorem applyWrites_spec (createdTs : Nat) (distinct : (writes.map Prod.fst).Nodup)
    (wellFormed : WellFormed leaf) :
    WellFormed (writes.foldl (applyWrite createdTs) leaf) ∧
      ∀ key, (writes.foldl (applyWrite createdTs) leaf).versionsOf key =
        addWrites createdTs 0 writes key (leaf.versionsOf key) := by
  induction writes generalizing leaf with
  | nil => exact ⟨wellFormed, fun _ => rfl⟩
  | cons write rest ih =>
    rw [map_cons, nodup_cons] at distinct
    obtain ⟨next, first⟩ := applyWrite_spec wellFormed createdTs write
    obtain ⟨last, others⟩ := ih distinct.2 next
    refine ⟨last, fun key => ?_⟩
    rw [foldl_cons, others, first, addWrites, addWrites]
    by_cases same : key = write.1
    · have absent : lookup rest key = none := by
        apply Window.lookup_eq_none
        intro entry mem equal
        exact distinct.1 (same ▸ equal ▸ mem_map_of_mem mem)
      rw [if_pos same, absent, lookup, find?_cons_of_pos (by simpa using same.symm)]
      rfl
    · rw [if_neg same, lookup, lookup, find?_cons_of_neg (by simpa using Ne.symm same)]

section

variable (wellFormed : WellFormed leaf)

include wellFormed

theorem mapChains_spec {change : VersionChain → VersionChain} (empty : (change ⟨[]⟩).versions = [])
    (nonempty : ∀ chain, chain.versions ≠ [] → (change chain).versions ≠ []) :
    WellFormed (leaf.mapChains change) ∧
      ∀ key, (leaf.mapChains change).versionsOf key = (change ⟨leaf.versionsOf key⟩).versions := by
  refine ⟨⟨?_, ?_⟩, fun key => ?_⟩
  · exact pairwise_map.mpr wellFormed.sorted
  · intro entry mem
    obtain ⟨old, isOld, rfl⟩ := mem_map.mp mem
    exact nonempty _ (wellFormed.nonempty old isOld)
  · rw [versionsOf, versionsOf, mapChains, lookup_map]
    cases lookup leaf.entries key with
    | none => exact empty.symm
    | some chain => rfl

theorem commitVersions_spec (createdTs commitTs : Nat) :
    WellFormed (leaf.commitVersions createdTs commitTs) ∧
      ∀ key, (leaf.commitVersions createdTs commitTs).versionsOf key =
        (VersionChain.commitVersions ⟨leaf.versionsOf key⟩ createdTs commitTs).versions := by
  apply mapChains_spec wellFormed rfl
  simp [VersionChain.commitVersions]

theorem gcVersions_spec (minSnapshotTs maxVersions : Nat) :
    WellFormed (leaf.gcVersions minSnapshotTs maxVersions) ∧
      ∀ key, (leaf.gcVersions minSnapshotTs maxVersions).versionsOf key =
        VersionChain.retainVersions minSnapshotTs maxVersions 0 (leaf.versionsOf key) := by
  apply mapChains_spec wellFormed rfl
  rintro ⟨versions⟩ nonempty
  obtain ⟨version, rest, rfl⟩ := exists_cons_of_ne_nil nonempty
  simp [VersionChain.gcVersions, VersionChain.retainVersions]

theorem gcVersions_sublist (minSnapshotTs maxVersions : Nat) (key : Bytes) :
    ((leaf.gcVersions minSnapshotTs maxVersions).versionsOf key).Sublist (leaf.versionsOf key) := by
  rw [(gcVersions_spec wellFormed _ _).2]
  exact VersionChain.retainVersions_sublist 0 _

theorem versionsOf_entry {entry : Bytes × VersionChain} (mem : entry ∈ leaf.entries) :
    leaf.versionsOf entry.1 = entry.2.versions := by
  rw [versionsOf, Window.lookup_of_mem wellFormed.sorted mem]
  rfl

/-- A transaction without versions in a leaf takes nothing away when it is rolled back. -/
theorem rollbackVersions_eq_self {createdTs : Nat}
    (absent : ∀ key, ∀ version ∈ leaf.versionsOf key, version.createdTs ≠ createdTs) :
    leaf.rollbackVersions createdTs = leaf := by
  have kept : ∀ entry ∈ leaf.entries, entry.2.rollbackVersions createdTs = entry.2 := by
    intro entry mem
    rw [VersionChain.rollbackVersions, filter_eq_self.mpr]
    intro version isVersion
    simpa using absent entry.1 version (by rwa [versionsOf_entry wellFormed mem])
  have same : (leaf.mapChains (·.rollbackVersions createdTs)).entries = leaf.entries := by
    calc leaf.entries.map (fun entry => (entry.1, entry.2.rollbackVersions createdTs))
      _ = leaf.entries.map id :=
          map_congr_left fun entry mem => Prod.ext rfl (kept entry mem)
      _ = leaf.entries := map_id _
  rw [rollbackVersions, same, filter_eq_self.mpr]
  intro entry mem
  simpa [VersionChain.isEmpty] using wellFormed.nonempty entry mem

end

/-- New versions get their timestamp, and those that have one keep it. -/
theorem commitVersions_addWrites {createdTs : Nat} (commitTs : Nat)
    (writes : List (Bytes × Option Bytes))
    (committed : ∀ version ∈ versions, 0 < version.commitTs) :
    (VersionChain.commitVersions ⟨addWrites createdTs 0 writes key versions⟩
        createdTs commitTs).versions = addWrites createdTs commitTs writes key versions := by
  have old : versions.map (fun version => if version.createdTs = createdTs ∧
      version.isUncommitted then { version with commitTs } else version) = versions := by
    calc versions.map _
      _ = versions.map id := by
          apply map_congr_left
          intro version mem
          have positive := committed version mem
          simp [VersionedValue.isUncommitted, positive.ne']
      _ = versions := map_id _
  rw [addWrites, addWrites, VersionChain.commitVersions]
  cases lookup writes key with
  | none => exact old
  | some value =>
    simp only [Option.elim_some, addWrite]
    split
    next => rfl
    next => rw [map_cons, old]; simp [VersionedValue.isUncommitted]

end

end MvccLeafNode

def MvccBPlusTree.versionsOf (tree : MvccBPlusTree) (key : Bytes) : List VersionedValue :=
  tree.root.versionsOf key

/-- The outcomes of a commit: nothing changes for a conflict, and otherwise the written keys
have a version more. -/
inductive Committing (tree : MvccBPlusTree) (writes : List (Bytes × Option Bytes))
    (snapshotTs createdTs commitTs : Nat) : Except BTreeError Unit × MvccBPlusTree → Prop
  | conflict (message : String) {write : Bytes × Option Bytes} (mem : write ∈ writes)
      {version : VersionedValue} (isVersion : version ∈ tree.versionsOf write.1)
      (later : snapshotTs < version.commitTs) :
      Committing tree writes snapshotTs createdTs commitTs (.error (.internal message), tree)
  | done
      (unchanged : ∀ write ∈ writes, ∀ version ∈ tree.versionsOf write.1,
        version.commitTs ≤ snapshotTs)
      {root : MvccLeafNode} (wellFormed : root.WellFormed)
      (versions : ∀ key, root.versionsOf key =
        MvccLeafNode.addWrites createdTs commitTs writes key (tree.versionsOf key)) :
      Committing tree writes snapshotTs createdTs commitTs (.ok (), { tree with root })

/-- In a tree where all versions are committed, and none by the transaction itself. -/
theorem MvccBPlusTree.atomicCommit_spec {tree : MvccBPlusTree}
    {writes : List (Bytes × Option Bytes)} {createdTs : Nat} (snapshotTs commitTs : Nat)
    (wellFormed : tree.root.WellFormed)
    (committed : ∀ key, ∀ version ∈ tree.versionsOf key, 0 < version.commitTs)
    (absent : ∀ key, ∀ version ∈ tree.versionsOf key, version.createdTs ≠ createdTs)
    (distinct : (writes.map Prod.fst).Nodup) :
    Committing tree writes snapshotTs createdTs commitTs
      (tree.atomicCommit writes snapshotTs createdTs commitTs) := by
  have conflicts (key : Bytes) : tree.root.hasConflict key snapshotTs = true ↔
      ∃ version ∈ tree.versionsOf key, snapshotTs < version.commitTs := by
    rw [show tree.root.hasConflict key snapshotTs = _ from MvccLeafNode.search_eq wellFormed key
      false (·.hasConflict snapshotTs) rfl, VersionChain.hasConflict, any_eq_true]
    constructor
    · rintro ⟨version, mem, conflict⟩
      have positive := committed key version mem
      refine ⟨version, mem, ?_⟩
      simpa [VersionedValue.isUncommitted, positive.ne'] using conflict
    · rintro ⟨version, mem, later⟩
      exact ⟨version, mem, by simp [later]⟩
  rw [atomicCommit]
  split
  next key value found =>
    have hit := find?_some found
    obtain ⟨version, isVersion, later⟩ := (conflicts key).mp hit
    rw [rollbackVersions, MvccLeafNode.rollbackVersions_eq_self wellFormed absent]
    exact .conflict _ (mem_of_find?_eq_some found) isVersion later
  next missing =>
    obtain ⟨applied, versions⟩ :=
      MvccLeafNode.applyWrites_spec createdTs distinct wellFormed
    obtain ⟨stamped, chains⟩ := MvccLeafNode.commitVersions_spec applied createdTs commitTs
    refine .done (fun write mem version isVersion => ?_) stamped fun key => ?_
    · rw [find?_eq_none] at missing
      by_contra later
      exact missing write mem
        ((conflicts write.1).mpr ⟨version, isVersion, not_le.mp later⟩)
    · rw [chains, versions]
      exact MvccLeafNode.commitVersions_addWrites commitTs writes (committed key)

end Nanograph.Mvcc
