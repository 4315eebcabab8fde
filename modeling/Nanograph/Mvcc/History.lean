import Nanograph.Foundation.Keyed
import Nanograph.Mvcc.Chains
import Nanograph.Mvcc.Manager

/-!
# Histories of a manager

Operations that come one at a time leave committed versions only, each newer than the
ones behind it, and the newest version of a key is the one committed last. What a
transaction reads is the value committed last before it began, as long as every garbage
collection spares that version.
-/

namespace Nanograph.Mvcc

open List hiding lookup
open Foundation BTree MvccLeafNode MvccTransactionManager

namespace WriteBuffer

variable (buffer : WriteBuffer)

theorem keys_writes : buffer.writes.map Prod.fst = buffer.operations.keys := by
  rw [writes, map_map, AList.keys, List.keys]
  apply map_congr_left
  intro entry mem
  exact buffer.keyed entry.1 entry.2 (AList.mem_lookup_iff.mpr mem)

/-- Every key is written once. -/
theorem nodup_writes : (buffer.writes.map Prod.fst).Nodup := by
  rw [keys_writes]
  exact buffer.operations.nodupKeys

end WriteBuffer

namespace History

variable (commitTs : Nat) (tx : MvccTransaction) (log : List CommittedWrite) (key : Bytes)

theorem lastValue_logged :
    lastValue (logged commitTs tx ++ log) key =
      (lookup tx.writeBuffer.writes key).elim (lastValue log key) id := by
  have isLogged : (logged commitTs tx).find? (fun write => write.key = key) =
      (tx.writeBuffer.writes.find? fun write => write.1 = key).map
        fun write => ⟨commitTs, write.1, write.2⟩ := find?_map
  have isWrite : lookup tx.writeBuffer.writes key =
      (tx.writeBuffer.writes.find? fun write => write.1 = key).map (·.2) := by
    rw [lookup]
    congr!
  rw [lastValue, find?_append, isLogged, isWrite, lastValue]
  cases tx.writeBuffer.writes.find? fun write => write.1 = key with
  | none => rfl
  | some write => rfl

/-- Writes after a timestamp do not count at it. -/
theorem valueAt_logged {timestamp : Nat} (earlier : timestamp < commitTs) :
    valueAt (logged commitTs tx ++ log) key timestamp = valueAt log key timestamp := by
  have later : (logged commitTs tx).find?
      (fun write => write.key = key ∧ write.commitTs ≤ timestamp) = none := by
    rw [find?_eq_none]
    intro write mem
    obtain ⟨_, _, rfl⟩ := mem_map.mp mem
    simp [earlier]
  rw [valueAt, find?_append, later, Option.none_or, valueAt]

end History

open History

/-- What holds of the leaf, the transactions and the log between two operations. -/
structure Consistent (root : MvccLeafNode) (nextCommitTs nextTxId : Nat)
    (transactions : AList fun _ : TxId => MvccTransaction) (log : List CommittedWrite) : Prop where
  wellFormed : root.WellFormed
  started : 0 < nextCommitTs
  stamped : ∀ key, Stamped nextCommitTs (root.versionsOf key)
  ended : ∀ key, ∀ version ∈ root.versionsOf key,
    ∃ tx, transactions.lookup ⟨version.createdTs⟩ = some tx ∧ tx.active = false
  begun : ∀ id, ∀ tx ∈ transactions.lookup id,
    tx.id = id ∧ id.raw < nextTxId ∧ tx.snapshotTs < nextCommitTs
  logged : ∀ write ∈ log, write.commitTs < nextCommitTs
  latest : ∀ key, (root.versionsOf key).head?.bind (·.value) = lastValue log key

/-- Every transaction reads the values committed last at its snapshot, apart from its own
writes. -/
def ReadsRight (root : MvccLeafNode) (transactions : AList fun _ : TxId => MvccTransaction)
    (log : List CommittedWrite) : Prop :=
  ∀ id, ∀ tx ∈ transactions.lookup id, tx.active = true →
    ∀ key, tx.writeBuffer.operations.lookup key = none →
      root.get key tx.snapshotTs = valueAt log key tx.snapshotTs

namespace Consistent

variable {root : MvccLeafNode} {nextCommitTs nextTxId : Nat}
  {transactions : AList fun _ : TxId => MvccTransaction} {log : List CommittedWrite}
  {id : TxId} {tx : MvccTransaction}
  (consistent : Consistent root nextCommitTs nextTxId transactions log)

include consistent

theorem getLatest_eq (key : Bytes) : root.getLatest key = lastValue log key := by
  rw [MvccLeafNode.getLatest_eq consistent.wellFormed, VersionChain.getLatest, ← consistent.latest]
  cases isVersions : root.versionsOf key with
  | nil => rfl
  | cons version rest =>
    have positive := (consistent.stamped key).positive version (by simp [isVersions])
    rw [find?_cons_of_pos (by simpa using positive)]
    rfl

/-- A snapshot behind all commits sees the values committed last. -/
theorem get_latest_snapshot (key : Bytes) :
    root.get key (nextCommitTs - 1) = valueAt log key (nextCommitTs - 1) := by
  have visible : ∀ version ∈ root.versionsOf key,
      version.isVisible (nextCommitTs - 1) = decide (version.commitTs > 0) := by
    intro version mem
    have earlier := (consistent.stamped key).earlier version mem
    simp only [VersionedValue.isVisible, Bool.and_eq_left_iff_imp, decide_eq_true_eq]
    omega
  have covered : valueAt log key (nextCommitTs - 1) = lastValue log key := by
    have always : ∀ write ∈ log,
        decide (write.key = key ∧ write.commitTs ≤ nextCommitTs - 1) = decide (write.key = key) := by
      intro write mem
      have earlier := consistent.logged write mem
      simp only [decide_eq_decide, and_iff_left_iff_imp]
      omega
    rw [valueAt, lastValue, find?_congr always]
  rw [covered, ← consistent.getLatest_eq, MvccLeafNode.get_eq consistent.wellFormed,
    MvccLeafNode.getLatest_eq consistent.wellFormed, VersionChain.get, VersionChain.getLatest,
    find?_congr visible]

/-- A transaction that has not ended has no versions yet. -/
theorem absent (found : transactions.lookup id = some tx) (active : tx.active = true) :
    ∀ key, ∀ version ∈ root.versionsOf key, version.createdTs ≠ tx.id.raw := by
  intro key version mem own
  obtain ⟨creator, isCreator, ended⟩ := consistent.ended key version mem
  rw [own, show (⟨tx.id.raw⟩ : TxId) = id from (consistent.begun id tx found).1, found]
    at isCreator
  cases isCreator
  rw [active] at ended
  cases ended

/-- A transaction in the place of its earlier state. -/
theorem insert (found : transactions.lookup id = some tx) (changed : MvccTransaction)
    (same : changed.id = tx.id) (snapshot : changed.snapshotTs = tx.snapshotTs)
    (stays : tx.active = false → changed.active = false) :
    Consistent root nextCommitTs nextTxId (transactions.insert id changed) log where
  wellFormed := consistent.wellFormed
  started := consistent.started
  stamped := consistent.stamped
  logged := consistent.logged
  latest := consistent.latest
  ended key version mem := by
    refine exists_lookup_insert (consistent.ended key version mem) fun held isHeld inactive => ?_
    cases found.symm.trans isHeld
    exact stays inactive
  begun := forall_lookup_insert (by rw [same, snapshot]; exact consistent.begun id tx found)
    fun other _ => consistent.begun other

/-- The next commit timestamp may grow. -/
theorem mono {later : Nat} (le : nextCommitTs ≤ later) :
    Consistent root later nextTxId transactions log where
  wellFormed := consistent.wellFormed
  started := consistent.started.trans_le le
  stamped key := (consistent.stamped key).mono le
  ended := consistent.ended
  begun id tx found := by
    obtain ⟨same, number, snapshot⟩ := consistent.begun id tx found
    exact ⟨same, number, snapshot.trans_le le⟩
  logged write mem := (consistent.logged write mem).trans_le le
  latest := consistent.latest

/-- A new transaction. -/
theorem begin :
    Consistent root nextCommitTs (nextTxId + 1)
      (transactions.insert ⟨nextTxId⟩ (.new ⟨nextTxId⟩ (nextCommitTs - 1))) log where
  wellFormed := consistent.wellFormed
  started := consistent.started
  stamped := consistent.stamped
  logged := consistent.logged
  latest := consistent.latest
  ended key version mem := by
    refine exists_lookup_insert (consistent.ended key version mem) fun held isHeld _ => ?_
    exact absurd (consistent.begun _ held isHeld).2.1 (lt_irrefl nextTxId)
  begun := by
    refine forall_lookup_insert ⟨rfl, Nat.lt_succ_self nextTxId,
      Nat.sub_lt consistent.started Nat.one_pos⟩ fun other _ held found => ?_
    obtain ⟨same, number, snapshot⟩ := consistent.begun other held found
    exact ⟨same, number.trans (Nat.lt_succ_self nextTxId), snapshot⟩

/-- A garbage collection. -/
theorem gc (minSnapshotTs maxVersions : Nat) :
    Consistent (root.gcVersions minSnapshotTs maxVersions) nextCommitTs nextTxId transactions
      log := by
  obtain ⟨wellFormed, versions⟩ :=
    gcVersions_spec consistent.wellFormed minSnapshotTs maxVersions
  have kept := gcVersions_sublist consistent.wellFormed minSnapshotTs maxVersions
  refine ⟨wellFormed, consistent.started, fun key => ?_, fun key version mem => ?_,
    consistent.begun, consistent.logged, fun key => ?_⟩
  · exact (consistent.stamped key).sublist (kept key)
  · exact consistent.ended key version ((kept key).subset mem)
  · rw [versions, ← consistent.latest]
    cases root.versionsOf key <;> rfl

/-- The writes of a transaction in front of the versions of their keys. -/
theorem commit (found : transactions.lookup id = some tx) {next : MvccLeafNode}
    (wellFormed : next.WellFormed)
    (versions : ∀ key, next.versionsOf key =
      addWrites tx.id.raw nextCommitTs tx.writeBuffer.writes key
        (root.versionsOf key)) :
    Consistent next (nextCommitTs + 1) nextTxId (transactions.insert id { tx with active := false })
      (History.logged nextCommitTs tx ++ log) := by
  have kept : Consistent root (nextCommitTs + 1) nextTxId
      (transactions.insert id { tx with active := false }) log :=
    (consistent.insert found { tx with active := false } rfl rfl fun _ => rfl).mono
      (Nat.le_succ nextCommitTs)
  refine ⟨wellFormed, kept.started, fun key => ?_, fun key version mem => ?_, kept.begun,
    fun write mem => ?_, fun key => ?_⟩
  · rw [versions]
    rcases addWrites_cases tx.id.raw nextCommitTs tx.writeBuffer.writes key
      (root.versionsOf key) with same | ⟨value, -, added⟩
    · rw [same]
      exact kept.stamped key
    · rw [added]
      exact (kept.stamped key).cons consistent.started (Nat.lt_succ_self nextCommitTs)
        (consistent.stamped key).earlier
  · rw [versions] at mem
    rcases addWrites_cases tx.id.raw nextCommitTs tx.writeBuffer.writes key
      (root.versionsOf key) with same | ⟨value, -, added⟩
    · exact kept.ended key version (same ▸ mem)
    · rw [added] at mem
      rcases mem_cons.mp mem with rfl | old
      · refine ⟨{ tx with active := false }, ?_, rfl⟩
        rw [show (⟨tx.id.raw⟩ : TxId) = id from (consistent.begun id tx found).1]
        exact AList.lookup_insert _
      · exact kept.ended key version old
  · rcases mem_append.mp mem with isNew | old
    · obtain ⟨_, _, rfl⟩ := mem_map.mp isNew
      exact Nat.lt_succ_self nextCommitTs
    · exact kept.logged write old
  · rw [versions, head?_addWrites, consistent.latest, lastValue_logged]

end Consistent

/-- A garbage collection spares the versions that the open transactions read. -/
def SparesReaders (minSnapshotTs maxVersions : Nat) (root : MvccLeafNode)
    (transactions : AList fun _ : TxId => MvccTransaction) : Prop :=
  ∀ opened ∈ transactions.entries, opened.2.active = true → ∀ entry ∈ root.entries,
    opened.2.writeBuffer.operations.lookup entry.1 = none →
      VersionChain.Spares minSnapshotTs maxVersions opened.2.snapshotTs entry.2.versions

instance (minSnapshotTs maxVersions : Nat) (root : MvccLeafNode)
    (transactions : AList fun _ : TxId => MvccTransaction) :
    Decidable (SparesReaders minSnapshotTs maxVersions root transactions) :=
  inferInstanceAs (Decidable (∀ opened ∈ transactions.entries, _ → ∀ entry ∈ root.entries, _))

namespace ReadsRight

variable {root : MvccLeafNode} {nextCommitTs nextTxId : Nat}
  {transactions : AList fun _ : TxId => MvccTransaction} {log : List CommittedWrite}
  {id : TxId} {tx : MvccTransaction}

theorem insert (right : ReadsRight root transactions log)
    (found : transactions.lookup id = some tx) (changed : MvccTransaction)
    (snapshot : changed.snapshotTs = tx.snapshotTs)
    (stays : changed.active = true → tx.active = true ∧
      ∀ key, changed.writeBuffer.operations.lookup key = none →
        tx.writeBuffer.operations.lookup key = none) :
    ReadsRight root (transactions.insert id changed) log := by
  refine forall_lookup_insert (fun active key absent => ?_) fun other _ => right other
  rw [snapshot]
  exact right id tx found (stays active).1 key ((stays active).2 key absent)

section

variable (right : ReadsRight root transactions log)
  (consistent : Consistent root nextCommitTs nextTxId transactions log)

include right consistent

theorem begin :
    ReadsRight root (transactions.insert ⟨nextTxId⟩ (.new ⟨nextTxId⟩ (nextCommitTs - 1))) log :=
  forall_lookup_insert (fun _ key _ => consistent.get_latest_snapshot key) fun other _ => right other

/-- A commit is later than all snapshots. -/
theorem commit {next : MvccLeafNode} (wellFormed : next.WellFormed)
    (versions : ∀ key, next.versionsOf key =
      addWrites tx.id.raw nextCommitTs tx.writeBuffer.writes key
        (root.versionsOf key)) :
    ReadsRight next (transactions.insert id { tx with active := false })
      (History.logged nextCommitTs tx ++ log) := by
  refine forall_lookup_insert nofun fun other _ otherTx isOther active key absent => ?_
  have snapshot := (consistent.begun other otherTx isOther).2.2
  rw [valueAt_logged _ _ _ _ snapshot, ← right other otherTx isOther active key absent,
    MvccLeafNode.get_eq wellFormed, MvccLeafNode.get_eq consistent.wellFormed, versions]
  rcases addWrites_cases tx.id.raw nextCommitTs tx.writeBuffer.writes key
    (root.versionsOf key) with same | ⟨value, -, added⟩
  · rw [same]
  · rw [added, VersionChain.get, find?_cons_of_neg (by
      simpa [VersionedValue.isVisible, consistent.started] using snapshot)]
    rfl

/-- All reads stay right behind a garbage collection exactly if it spares their versions. -/
theorem gc_iff (minSnapshotTs maxVersions : Nat) :
    ReadsRight (root.gcVersions minSnapshotTs maxVersions) transactions log ↔
      SparesReaders minSnapshotTs maxVersions root transactions := by
  obtain ⟨wellFormed, versions⟩ :=
    gcVersions_spec consistent.wellFormed minSnapshotTs maxVersions
  have spares (key : Bytes) (snapshotTs : Nat) :
      (root.gcVersions minSnapshotTs maxVersions).get key snapshotTs = root.get key snapshotTs ↔
        VersionChain.Spares minSnapshotTs maxVersions snapshotTs (root.versionsOf key) := by
    rw [← VersionChain.get_gcVersions_iff (consistent.stamped key).descending,
      MvccLeafNode.get_eq wellFormed, MvccLeafNode.get_eq consistent.wellFormed, versions]
    rfl
  constructor
  · intro after opened isOpen active entry mem absent
    have isTx := AList.mem_lookup_iff.mpr isOpen
    have same := (after opened.1 opened.2 isTx active entry.1 absent).trans
      (right opened.1 opened.2 isTx active entry.1 absent).symm
    rw [← versionsOf_entry consistent.wellFormed mem]
    exact (spares entry.1 opened.2.snapshotTs).mp same
  · intro spared id tx isTx active key absent
    rw [← right id tx isTx active key absent, spares]
    cases held : lookup root.entries key with
    | none =>
      rw [MvccLeafNode.versionsOf, held]
      intro version isVersion
      cases isVersion
    | some chain =>
      rw [MvccLeafNode.versionsOf, held]
      exact spared ⟨id, tx⟩ (AList.mem_lookup_iff.mp isTx) active (key, chain)
        (mem_of_lookup held) absent

end

end ReadsRight

namespace MvccTransactionManager

/-- A transaction can commit: it has not ended, and no key that it writes has a version that
was committed after its snapshot. -/
def Commits (manager : MvccTransactionManager) (tx : MvccTransaction) : Prop :=
  tx.active = true ∧ ∀ write ∈ tx.writeBuffer.writes,
    ∀ version ∈ manager.tree.versionsOf write.1, version.commitTs ≤ tx.snapshotTs

instance (manager : MvccTransactionManager) (tx : MvccTransaction) :
    Decidable (manager.Commits tx) :=
  inferInstanceAs (Decidable (_ ∧ ∀ write ∈ tx.writeBuffer.writes,
    ∀ version ∈ manager.tree.versionsOf write.1, _))

/-- What holds between two operations on a manager. -/
def Sound (manager : MvccTransactionManager) (log : List CommittedWrite) : Prop :=
  Consistent manager.tree.root manager.nextCommitTs manager.nextTxId manager.transactions log

section

variable {manager : MvccTransactionManager} {log : List CommittedWrite} (sound : manager.Sound log)
  {id : TxId} {tx : MvccTransaction} (found : manager.transactions.lookup id = some tx)

include sound found

/-- The outcome of a commit before its garbage collection. -/
theorem commitTransaction_spec :
    ∃ result root minSnapshotTs, manager.commitTransaction tx =
      (result, { manager with
        nextCommitTs := manager.nextCommitTs + 1
        transactions := manager.transactions.insert id { tx with active := false }
        activeTransactions := manager.activeTransactions.filter (· ≠ id)
        tree := { manager.tree with root, minSnapshotTs } }) ∧
      if manager.Commits tx then
        result = .ok () ∧ root.WellFormed ∧ ∀ key, root.versionsOf key =
          addWrites tx.id.raw manager.nextCommitTs tx.writeBuffer.writes key
            (manager.tree.root.versionsOf key)
      else (∃ error, result = .error error) ∧ root = manager.tree.root := by
  obtain rfl := (sound.begun id tx found).1
  cases active : tx.active with
  | false =>
    refine ⟨.error MvccTransaction.notActive, manager.tree.root, ?_, ?_, ?_⟩
    rotate_left
    · rw [commitTransaction, MvccTransaction.commit, active]
      rw [show ({ tx with active := false } : MvccTransaction) = tx from by rw [← active]]
      rfl
    · rw [if_neg (by simp [Commits, active])]
      exact ⟨⟨_, rfl⟩, rfl⟩
  | true =>
    have committing := MvccBPlusTree.atomicCommit_spec tx.snapshotTs manager.nextCommitTs
      sound.wellFormed (fun key => (sound.stamped key).positive) (sound.absent found active)
      tx.writeBuffer.nodup_writes
    simp only [commitTransaction, MvccTransaction.commit, active, Bool.not_true,
      Bool.false_eq_true, if_false, unregister, updateMinSnapshotTs]
    generalize manager.tree.atomicCommit tx.writeBuffer.writes tx.snapshotTs tx.id.raw
      manager.nextCommitTs = outcome at committing
    cases committing with
    | conflict message mem isVersion later =>
      refine ⟨_, manager.tree.root, _, rfl, ?_⟩
      rw [if_neg]
      · exact ⟨⟨_, rfl⟩, rfl⟩
      · intro commits
        exact absurd (commits.2 _ mem _ isVersion) (not_le.mpr later)
    | done unchanged wellFormed versions =>
      refine ⟨_, _, _, rfl, ?_⟩
      rw [if_pos ⟨active, unchanged⟩]
      exact ⟨rfl, wellFormed, versions⟩

/-- The outcome of a rollback. -/
theorem rollback_spec :
    ∃ result changed minSnapshotTs, manager.rollback tx =
      (result, { manager with
        transactions := manager.transactions.insert id changed
        activeTransactions := manager.activeTransactions.filter (· ≠ id)
        tree := { manager.tree with minSnapshotTs } }) ∧
      changed.id = tx.id ∧ changed.snapshotTs = tx.snapshotTs ∧ changed.active = false := by
  obtain rfl := (sound.begun id tx found).1
  rw [rollback, MvccTransaction.rollback]
  cases active : tx.active with
  | false => exact ⟨_, tx, _, rfl, rfl, rfl, active⟩
  | true =>
    have same := rollbackVersions_eq_self sound.wellFormed
      (sound.absent found active)
    simp only [Bool.not_true, Bool.false_eq_true, if_false, unregister, updateMinSnapshotTs,
      MvccBPlusTree.rollbackVersions, same]
    exact ⟨_, _, _, rfl, rfl, rfl, rfl⟩

/-- A commit, whether it succeeds or not, before its garbage collection. -/
theorem Sound.commitTransaction :
    let log' := if manager.Commits tx then History.logged manager.nextCommitTs tx ++ log else log
    let next := (manager.commitTransaction tx).2
    next.Sound log' ∧ (ReadsRight manager.tree.root manager.transactions log →
      ReadsRight next.tree.root next.transactions log') := by
  obtain ⟨result, root, minSnapshotTs, isResult, outcome⟩ := commitTransaction_spec sound found
  simp only [isResult]
  split at outcome
  next commits =>
    obtain ⟨-, wellFormed, versions⟩ := outcome
    rw [if_pos commits]
    exact ⟨Consistent.commit sound found wellFormed versions,
      fun right => right.commit sound wellFormed versions⟩
  next fails =>
    obtain ⟨-, rfl⟩ := outcome
    rw [if_neg fails]
    refine ⟨(Consistent.insert sound found { tx with active := false } rfl rfl
      fun _ => rfl).mono (Nat.le_succ _), fun right => ?_⟩
    exact right.insert found { tx with active := false } rfl nofun

end

end MvccTransactionManager

namespace History

/-- The manager right before the garbage collection of an operation, if it runs one. -/
def gcStart (history : History) : MvccCall → Option MvccTransactionManager
  | .gc => some history.manager
  | .commit id => (history.manager.transactions.lookup id).bind fun tx =>
    let manager := (history.manager.commitTransaction tx).2
    if manager.gcCounter + 1 ≥ manager.gcInterval then some manager else none
  | _ => none

/-- The garbage collection of an operation, if it runs one, spares all readers. -/
def GcSpares (history : History) (call : MvccCall) : Prop :=
  ∀ manager ∈ history.gcStart call, SparesReaders manager.tree.minSnapshotTs
    manager.tree.maxVersionsPerKey manager.tree.root manager.transactions

instance (history : History) (call : MvccCall) : Decidable (history.GcSpares call) :=
  inferInstanceAs (Decidable (∀ manager ∈ history.gcStart call, _))

/-- What holds between two operations. -/
def Sound (history : History) : Prop := history.manager.Sound history.log

/-- All transactions read right. -/
def Right (history : History) : Prop :=
  ReadsRight history.manager.tree.root history.manager.transactions history.log

variable {history : History}

/-- The log behind a commit. -/
def logAfter (history : History) (tx : MvccTransaction) : List CommittedWrite :=
  if history.manager.Commits tx then logged history.manager.nextCommitTs tx ++ history.log
  else history.log

/-- The history behind a commit, and its answer. -/
theorem step_commit (sound : Sound history) {id : TxId} {tx : MvccTransaction}
    (found : history.manager.transactions.lookup id = some tx) :
    (step history (.commit id)).2 =
        ⟨(history.manager.commitTransaction tx).2.countCommit, history.logAfter tx⟩ ∧
      ((step history (.commit id)).1 = .done ↔ history.manager.Commits tx) := by
  obtain ⟨result, root, minSnapshotTs, isResult, outcome⟩ :=
    commitTransaction_spec sound found
  simp only [step, found, commit, isResult, logAfter]
  split at outcome
  next commits =>
    obtain ⟨rfl, -, -⟩ := outcome
    exact ⟨by rw [if_pos commits], iff_of_true rfl commits⟩
  next fails =>
    obtain ⟨⟨error, rfl⟩, -⟩ := outcome
    exact ⟨by rw [if_neg fails], iff_of_false nofun fails⟩

/-- What an operation keeps, and when the transactions read right behind it. -/
structure Keeps (history : History) (call : MvccCall) (next : History) : Prop where
  sound : Sound next
  right : Right history → (history.GcSpares call ↔ Right next)

/-- An operation without a garbage collection. -/
theorem keeps_of_none {call : MvccCall} {next : History} (quiet : history.gcStart call = none)
    (sound : Sound next) (right : Right history → Right next) : Keeps history call next := by
  refine ⟨sound, fun isRight => iff_of_true ?_ (right isRight)⟩
  intro manager starts
  rw [quiet] at starts
  cases starts

/-- A garbage collection of a manager that is sound. -/
theorem keeps_gc {manager : MvccTransactionManager} {log : List CommittedWrite}
    (sound : manager.Sound log) {call : MvccCall} (starts : history.gcStart call = some manager)
    (right : Right history → ReadsRight manager.tree.root manager.transactions log)
    {next : History} (root : next.manager.tree.root = manager.tree.gcVersions.root)
    (transactions : next.manager.transactions = manager.transactions) (isLog : next.log = log)
    (numbers : next.manager.nextCommitTs = manager.nextCommitTs ∧
      next.manager.nextTxId = manager.nextTxId) : Keeps history call next := by
  constructor
  · rw [Sound, MvccTransactionManager.Sound, root, transactions, isLog, numbers.1, numbers.2]
    exact Consistent.gc sound _ _
  · intro isRight
    rw [Right, root, transactions, isLog]
    refine Iff.trans ?_ ((right isRight).gc_iff sound _ _).symm
    rw [GcSpares, starts]
    simp

theorem Sound.buffer (sound : Sound history) (id : TxId) (operation : WriteOp) :
    Sound (history.buffer id operation).2 ∧
      (Right history → Right (history.buffer id operation).2) := by
  rw [History.buffer]
  split
  next => exact ⟨sound, fun right => right⟩
  next tx found =>
    rw [MvccTransaction.buffer]
    cases active : tx.active with
    | false => exact ⟨sound, fun right => right⟩
    | true =>
      refine ⟨Consistent.insert sound found _ rfl rfl fun ended => ?_, fun right => ?_⟩
      · rw [active] at ended
        cases ended
      · refine right.insert found _ rfl fun _ => ⟨active, fun key absent => ?_⟩
        by_cases own : key = operation.key
        · subst own
          rw [show (tx.writeBuffer.insert operation).operations =
            tx.writeBuffer.operations.insert operation.key operation from rfl,
            AList.lookup_insert] at absent
          cases absent
        · rwa [show (tx.writeBuffer.insert operation).operations =
            tx.writeBuffer.operations.insert operation.key operation from rfl,
            AList.lookup_insert_ne own] at absent

/-- Every operation keeps a history sound. -/
theorem Sound.step (sound : Sound history) (call : MvccCall) :
    Keeps history call (History.step history call).2 := by
  cases call with
  | begin =>
    exact keeps_of_none rfl (Consistent.begin sound) fun right => right.begin sound
  | get id key =>
    have same : (History.step history (.get id key)).2 = history := by
      rw [History.step]
      split
      next => rfl
      next => split <;> rfl
    rw [same]
    exact keeps_of_none rfl sound fun right => right
  | put id key value =>
    obtain ⟨next, right⟩ := sound.buffer id (.put key value)
    exact keeps_of_none rfl next right
  | delete id key =>
    obtain ⟨next, right⟩ := sound.buffer id (.delete key)
    exact keeps_of_none rfl next right
  | gc => exact keeps_gc sound rfl (fun right => right) rfl rfl rfl ⟨rfl, rfl⟩
  | rollback id =>
    cases found : history.manager.transactions.lookup id with
    | none =>
      simp only [History.step, found]
      exact keeps_of_none rfl sound fun right => right
    | some tx =>
      obtain ⟨result, changed, minSnapshotTs, isResult, same, snapshot, ended⟩ :=
        rollback_spec sound found
      simp only [History.step, found, isResult]
      refine keeps_of_none rfl (Consistent.insert sound found _ same snapshot fun _ => ended)
        fun right => right.insert found _ snapshot fun active => ?_
      rw [ended] at active
      cases active
  | commit id =>
    cases found : history.manager.transactions.lookup id with
    | none =>
      simp only [History.step, found]
      refine keeps_of_none ?_ sound fun right => right
      rw [gcStart, found]
      rfl
    | some tx =>
      obtain ⟨next, right⟩ := MvccTransactionManager.Sound.commitTransaction sound found
      rw [(step_commit sound found).1]
      have starts : history.gcStart (.commit id) =
          if (history.manager.commitTransaction tx).2.gcCounter + 1 ≥
              (history.manager.commitTransaction tx).2.gcInterval then
            some (history.manager.commitTransaction tx).2 else none := by
        rw [gcStart, found]
        rfl
      rw [countCommit]
      split
      next full =>
        rw [if_pos full] at starts
        exact keeps_gc next starts right rfl rfl rfl ⟨rfl, rfl⟩
      next notFull =>
        rw [if_neg notFull] at starts
        exact keeps_of_none starts next right

theorem sound_new (maxVersionsPerKey : Nat) : Sound (new maxVersionsPerKey) where
  wellFormed := wellFormed_new
  started := Nat.one_pos
  stamped := stamped_new 1
  ended _ _ mem := by cases mem
  begun _ _ found := by cases found
  logged _ mem := by cases mem
  latest _ := rfl

theorem sound_final (maxVersionsPerKey : Nat) (calls : List MvccCall) :
    Sound (step.final (new maxVersionsPerKey) calls) :=
  Machine.invariant Sound (fun _ call sound => (sound.step call).sound)
    (sound_new maxVersionsPerKey) calls

/-- Every get of an open transaction of a key that it has not written returns the value
committed last at its snapshot. -/
def ReadsSnapshots (history : History) : Prop :=
  ∀ id, ∀ tx ∈ history.manager.transactions.lookup id, tx.active = true →
    ∀ key, tx.writeBuffer.operations.lookup key = none →
      tx.get history.manager.tree key = .ok (valueAt history.log key tx.snapshotTs)

theorem readsSnapshots_iff_right : ReadsSnapshots history ↔ Right history := by
  refine forall_congr' fun id => forall_congr' fun tx => forall_congr' fun _ =>
    forall_congr' fun active => forall_congr' fun key => forall_congr' fun unwritten => ?_
  simp only [MvccTransaction.get, active, unwritten, MvccBPlusTree.get]
  simp

/-- In a run of operations all gets return the values of their snapshots exactly if every
garbage collection spares the versions that open transactions read. -/
theorem readsSnapshots_iff_gcSpares (maxVersionsPerKey : Nat) (calls : List MvccCall) :
    step.Along GcSpares (new maxVersionsPerKey) calls ↔ ∀ earlier, earlier <+: calls →
        ReadsSnapshots (step.final (new maxVersionsPerKey) earlier) := by
  apply Machine.along_iff_prefixes (fun history => Sound history ∧ Right history) ReadsSnapshots
  · exact fun history holds => readsSnapshots_iff_right.mpr holds.2
  · rintro history call ⟨sound, right⟩ spares
    exact ⟨(sound.step call).sound, ((sound.step call).right right).mp spares⟩
  · rintro history call ⟨sound, right⟩ reads
    exact ((sound.step call).right right).mpr (readsSnapshots_iff_right.mp reads)
  · exact ⟨sound_new maxVersionsPerKey, fun _ _ found => by cases found⟩

/-- A garbage collection removes the version that the oldest transaction reads. -/
theorem gc_removes_visible_version :
    step.answers (new 10) [.begin, .put ⟨1⟩ [1] [7], .commit ⟨1⟩, .begin, .get ⟨2⟩ [1], .begin,
        .put ⟨3⟩ [1] [8], .commit ⟨3⟩, .get ⟨2⟩ [1], .gc, .get ⟨2⟩ [1]] =
      [.begun ⟨1⟩, .done, .done, .begun ⟨2⟩, .found (some [7]), .begun ⟨3⟩, .done, .done,
        .found (some [7]), .done, .found none] := by
  decide +kernel

/-- Commits of operations that come one at a time: which of them succeed, what a failed one
leaves, and what was committed last. -/
theorem commit_outcome (maxVersionsPerKey : Nat) (calls : List MvccCall) {id : TxId}
    {tx : MvccTransaction}
    (found : (step.final (new maxVersionsPerKey) calls).manager.transactions.lookup id = some tx) :
    let history := step.final (new maxVersionsPerKey) calls
    let next := (step history (.commit id)).2
    ((step history (.commit id)).1 = .done ↔ history.manager.Commits tx) ∧
      ((step history (.commit id)).1 ≠ .done → ∀ key,
        next.manager.tree.getLatest key = history.manager.tree.getLatest key ∧
          (history.manager.gcCounter + 1 < history.manager.gcInterval → ∀ snapshotTs,
            next.manager.tree.get key snapshotTs = history.manager.tree.get key snapshotTs)) ∧
      ∀ key, history.manager.tree.getLatest key = lastValue history.log key := by
  intro history next
  have sound : Sound history := sound_final maxVersionsPerKey calls
  obtain ⟨isNext, answers⟩ := step_commit sound found
  refine ⟨answers, fun failed key => ?_, fun key => Consistent.getLatest_eq sound key⟩
  have fails : ¬history.manager.Commits tx := mt answers.mpr failed
  have sameLog : next.log = history.log := by
    rw [show next = _ from isNext, logAfter, if_neg fails]
  constructor
  · have after := Consistent.getLatest_eq (sound.step (.commit id)).sound key
    have before := Consistent.getLatest_eq sound key
    exact after.trans ((congrArg (lastValue · key) sameLog).trans before.symm)
  · intro notFull snapshotTs
    obtain ⟨result, root, minSnapshotTs, isResult, outcome⟩ :=
      commitTransaction_spec sound found
    rw [if_neg fails] at outcome
    obtain ⟨-, rfl⟩ := outcome
    rw [show next = _ from isNext, isResult]
    rw [countCommit, if_neg (by simpa using notFull)]
    rfl

/-- The first transaction commits its write. -/
theorem commit_outcome_first :
    let history := step.final (new 10) [.begin, .put ⟨1⟩ [1] [7]]
    (step history (.commit ⟨1⟩)).1 = .done ∧ history.manager.tree.getLatest [1] = none := by
  intro history
  have isBegun : (history.manager.transactions.lookup ⟨1⟩).isSome = true := by decide +kernel
  have commits : ∀ tx ∈ history.manager.transactions.lookup ⟨1⟩, history.manager.Commits tx := by
    decide +kernel
  obtain ⟨answers, -, last⟩ := commit_outcome 10 [.begin, .put ⟨1⟩ [1] [7]]
    (Option.some_get isBegun).symm
  exact ⟨answers.mpr (commits _ (Option.get_mem isBegun)), last [1]⟩

/-- A transaction that has ended cannot commit again, although nothing is in its way, and the
hundredth commit runs a garbage collection even if it fails. -/
theorem failed_commit_collects :
    step.answers (new 10) [.begin, .commit ⟨1⟩, .commit ⟨1⟩] =
        [.begun ⟨1⟩, .done, .failed MvccTransaction.notActive] ∧
      let history := step.final (new 10) ([.begin, .put ⟨1⟩ [1] [7], .commit ⟨1⟩, .begin,
        .put ⟨2⟩ [1] [8], .commit ⟨2⟩] ++ List.replicate 97 (.commit ⟨1⟩))
      (step history (.commit ⟨1⟩)).1 = .failed MvccTransaction.notActive ∧
        history.manager.tree.get [1] 1 = some [7] ∧
        (step history (.commit ⟨1⟩)).2.manager.tree.get [1] 1 = none := by
  decide +kernel

end History

end Nanograph.Mvcc
