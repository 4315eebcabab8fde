import Nanograph.Mvcc.History

/-!
# Commits that overlap

The sections of a commit in `nanograph-btree/src/mvcc_transaction.rs` that hold a lock:
a transaction reads its snapshot when it begins, takes its commit timestamp later, and
applies its writes under the lock of the tree. Sections of other transactions may come in
between. A snapshot covers all timestamps taken before it, also those whose writes are not
in the tree yet, and writes that come in later are then not seen as conflicts.
-/

namespace Nanograph.Mvcc

open List Foundation BTree MvccLeafNode

/-- A transaction, the number of writes applied before it began, and the commit timestamp
that it has taken and not used yet. -/
structure Running where
  tx : MvccTransaction
  begunAt : Nat
  commitTs : Option Nat

/-- A manager between two sections, and the writes that were applied, in their order. -/
structure Interleaving where
  nextTxId : Nat
  nextCommitTs : Nat
  running : AList fun _ : TxId => Running
  tree : MvccBPlusTree
  applied : List (TxId × Bytes)

/-- A section. The least snapshot of a garbage collection is taken as given: other sections
set it. -/
inductive SectionStep where
  | begin
  | buffer (id : TxId) (operation : WriteOp)
  | allocate (id : TxId)
  | apply (id : TxId)
  | rollback (id : TxId)
  | gc (minSnapshotTs : Nat)

namespace Interleaving

def new (maxVersionsPerKey : Nat) : Interleaving := ⟨1, 1, ∅, .new maxVersionsPerKey, []⟩

/-- The writes that were applied since a transaction began. -/
def appliedSince (state : Interleaving) (id : TxId) : List (TxId × Bytes) :=
  (state.running.lookup id).elim [] fun running => state.applied.drop running.begunAt

/-- One section. A section that a transaction is not ready for changes nothing. -/
def step : Machine Interleaving SectionStep MvccAnswer
  | state, .begin =>
    let id : TxId := ⟨state.nextTxId⟩
    (.begun id, { state with
      nextTxId := state.nextTxId + 1
      running := state.running.insert id
        ⟨.new id (state.nextCommitTs - 1), state.applied.length, none⟩ })
  | state, .buffer id operation =>
    match state.running.lookup id with
    | none => (.unknown, state)
    | some running =>
      match running.tx.buffer operation with
      | .error error => (.failed error, state)
      | .ok tx => (.done, { state with running := state.running.insert id { running with tx } })
  | state, .allocate id =>
    match state.running.lookup id with
    | some running =>
      if running.commitTs = none then
        (.done, { state with
          nextCommitTs := state.nextCommitTs + 1
          running := state.running.insert id { running with commitTs := some state.nextCommitTs } })
      else (.unknown, state)
    | none => (.unknown, state)
  | state, .apply id =>
    match state.running.lookup id with
    | some ⟨tx, begunAt, some commitTs⟩ =>
      let (result, ended, tree) := tx.commit state.tree commitTs
      (.ofResult result, { state with
        running := state.running.insert id ⟨ended, begunAt, none⟩
        tree
        applied := match result with
          | .ok _ => state.applied ++ tx.writeBuffer.writes.map fun write => (id, write.1)
          | .error _ => state.applied })
    | _ => (.unknown, state)
  | state, .rollback id =>
    match state.running.lookup id with
    | some ⟨tx, begunAt, none⟩ =>
      let (result, ended, tree) := tx.rollback state.tree
      (.ofResult result, { state with
        running := state.running.insert id ⟨ended, begunAt, none⟩
        tree })
    | _ => (.unknown, state)
  | state, .gc minSnapshotTs =>
    (.done, { state with tree := { state.tree with minSnapshotTs }.gcVersions })

/-- No transaction begins while another one has taken a commit timestamp and not used it, and
no key is deleted that has no version. -/
def Settled (state : Interleaving) : SectionStep → Prop
  | .begin => ∀ entry ∈ state.running.entries, entry.2.commitTs = none
  | .apply id => ∀ running ∈ state.running.lookup id, ∀ write ∈ running.tx.writeBuffer.writes,
      write.2 = none → state.tree.versionsOf write.1 ≠ []
  | _ => True

instance (state : Interleaving) (section_ : SectionStep) : Decidable (state.Settled section_) :=
  match section_ with
  | .begin => inferInstanceAs (Decidable (∀ entry ∈ state.running.entries, _ = none))
  | .apply id => inferInstanceAs (Decidable (∀ running ∈ state.running.lookup id,
      ∀ write ∈ running.tx.writeBuffer.writes, _))
  | .buffer _ _ | .allocate _ | .rollback _ | .gc _ => inferInstanceAs (Decidable True)

end Interleaving

/-- What holds between two sections of a run in which no begin overlaps a commit: a taken
timestamp lies behind the snapshots of all open transactions, and every write applied since a
transaction began has left a version that its snapshot does not cover. -/
structure Noticing (nextTxId nextCommitTs : Nat) (running : AList fun _ : TxId => Running)
    (root : MvccLeafNode) (applied : List (TxId × Bytes)) : Prop where
  wellFormed : root.WellFormed
  started : 0 < nextCommitTs
  stamped : ∀ key, Stamped nextCommitTs (root.versionsOf key)
  ended : ∀ key, ∀ version ∈ root.versionsOf key,
    ∃ creator, running.lookup ⟨version.createdTs⟩ = some creator ∧ creator.tx.active = false
  begun : ∀ id, ∀ current ∈ running.lookup id, current.tx.id = id ∧ id.raw < nextTxId ∧
    current.tx.snapshotTs < nextCommitTs ∧ current.begunAt ≤ applied.length
  taken : ∀ id, ∀ current ∈ running.lookup id, ∀ commitTs ∈ current.commitTs,
    commitTs < nextCommitTs ∧ ∀ other, ∀ open_ ∈ running.lookup other, open_.tx.active = true →
      open_.tx.snapshotTs < commitTs
  noticed : ∀ id, ∀ current ∈ running.lookup id, current.tx.active = true →
    ∀ write ∈ applied.drop current.begunAt,
      ∃ version ∈ root.versionsOf write.2, current.tx.snapshotTs < version.commitTs

namespace Noticing

variable {nextTxId nextCommitTs : Nat} {running : AList fun _ : TxId => Running}
  {root : MvccLeafNode} {applied : List (TxId × Bytes)} {id : TxId} {current : Running}
  (noticing : Noticing nextTxId nextCommitTs running root applied)

include noticing

/-- A transaction in the place of its earlier state. -/
theorem insert (found : running.lookup id = some current) (changed : Running)
    (same : changed.tx.id = current.tx.id ∧ changed.tx.snapshotTs = current.tx.snapshotTs ∧
      changed.begunAt = current.begunAt)
    (ended : current.tx.active = false → changed.tx.active = false)
    (opened : changed.tx.active = true → current.tx.active = true)
    (taken : ∀ commitTs ∈ changed.commitTs, commitTs < nextCommitTs ∧
      ∀ other, ∀ open_ ∈ running.lookup other, open_.tx.active = true →
        open_.tx.snapshotTs < commitTs) :
    Noticing nextTxId nextCommitTs (running.insert id changed) root applied := by
  have covered {commitTs : Nat} (before : ∀ other, ∀ open_ ∈ running.lookup other,
      open_.tx.active = true → open_.tx.snapshotTs < commitTs) :
      ∀ other, ∀ open_ ∈ (running.insert id changed).lookup other, open_.tx.active = true →
        open_.tx.snapshotTs < commitTs :=
    forall_lookup_insert (fun active => by rw [same.2.1]; exact before id current found (opened active))
      fun other _ => before other
  refine ⟨noticing.wellFormed, noticing.started, noticing.stamped, ?_, ?_, ?_, ?_⟩
  · intro key version mem
    refine exists_lookup_insert (noticing.ended key version mem) fun held isHeld inactive => ?_
    cases found.symm.trans isHeld
    exact ended inactive
  · refine forall_lookup_insert ?_ fun other _ => noticing.begun other
    rw [same.1, same.2.1, same.2.2]
    exact noticing.begun id current found
  · refine forall_lookup_insert (fun commitTs isTaken => ?_)
      fun other _ otherTx isOther commitTs isTaken => ?_
    · exact ⟨(taken commitTs isTaken).1, covered (taken commitTs isTaken).2⟩
    · obtain ⟨before, others⟩ := noticing.taken other otherTx isOther commitTs isTaken
      exact ⟨before, covered others⟩
  · refine forall_lookup_insert (fun active => ?_) fun other _ => noticing.noticed other
    rw [same.2.1, same.2.2]
    exact noticing.noticed id current found (opened active)

/-- A transaction begins when no timestamp is taken. -/
theorem begin (settled : ∀ entry ∈ running.entries, entry.2.commitTs = none) :
    Noticing (nextTxId + 1) nextCommitTs (running.insert ⟨nextTxId⟩
      ⟨.new ⟨nextTxId⟩ (nextCommitTs - 1), applied.length, none⟩) root applied := by
  refine ⟨noticing.wellFormed, noticing.started, noticing.stamped, ?_, ?_, ?_, ?_⟩
  · intro key version mem
    refine exists_lookup_insert (noticing.ended key version mem) fun held isHeld _ => ?_
    exact absurd (noticing.begun _ held isHeld).2.1 (lt_irrefl nextTxId)
  · refine forall_lookup_insert ⟨rfl, Nat.lt_succ_self nextTxId,
      Nat.sub_lt noticing.started Nat.one_pos, le_rfl⟩ fun other _ otherTx isOther => ?_
    obtain ⟨same, number, rest⟩ := noticing.begun other otherTx isOther
    exact ⟨same, number.trans (Nat.lt_succ_self nextTxId), rest⟩
  · refine forall_lookup_insert nofun fun other _ otherTx isOther commitTs isTaken => ?_
    rw [settled ⟨other, otherTx⟩ (AList.mem_lookup_iff.mp isOther)] at isTaken
    cases isTaken
  · refine forall_lookup_insert (fun _ write mem => ?_) fun other _ => noticing.noticed other
    rw [drop_length] at mem
    cases mem

/-- The next commit timestamp may grow. -/
theorem mono {later : Nat} (le : nextCommitTs ≤ later) :
    Noticing nextTxId later running root applied where
  wellFormed := noticing.wellFormed
  started := noticing.started.trans_le le
  stamped key := (noticing.stamped key).mono le
  ended := noticing.ended
  begun id current found := by
    obtain ⟨same, number, snapshot, begunAt⟩ := noticing.begun id current found
    exact ⟨same, number, snapshot.trans_le le, begunAt⟩
  taken id current found commitTs isTaken := by
    obtain ⟨before, others⟩ := noticing.taken id current found commitTs isTaken
    exact ⟨before.trans_le le, others⟩
  noticed := noticing.noticed

/-- A garbage collection keeps the newest version of every key. -/
theorem gc (minSnapshotTs maxVersions : Nat) :
    Noticing nextTxId nextCommitTs running (root.gcVersions minSnapshotTs maxVersions)
      applied := by
  obtain ⟨wellFormed, versions⟩ :=
    gcVersions_spec noticing.wellFormed minSnapshotTs maxVersions
  have kept := gcVersions_sublist noticing.wellFormed minSnapshotTs maxVersions
  refine ⟨wellFormed, noticing.started, fun key => (noticing.stamped key).sublist (kept key),
    fun key version mem => noticing.ended key version ((kept key).subset mem),
    noticing.begun, noticing.taken, fun id current found active write mem => ?_⟩
  obtain ⟨version, isVersion, later⟩ := noticing.noticed id current found active write mem
  have descending := (noticing.stamped write.2).descending
  rw [versions]
  cases isVersions : root.versionsOf write.2 with
  | nil =>
    rw [isVersions] at isVersion
    cases isVersion
  | cons newest rest =>
    refine ⟨newest, by simp [VersionChain.retainVersions], ?_⟩
    rw [isVersions] at isVersion descending
    rcases mem_cons.mp isVersion with rfl | older
    · exact later
    · exact later.trans ((pairwise_cons.mp descending).1 version older)

/-- The writes of a transaction are applied. -/
theorem apply (found : running.lookup id = some current) (active : current.tx.active = true)
    {commitTs : Nat} (isTaken : current.commitTs = some commitTs)
    (deleted : ∀ write ∈ current.tx.writeBuffer.writes, write.2 = none →
      root.versionsOf write.1 ≠ [])
    (unchanged : ∀ write ∈ current.tx.writeBuffer.writes, ∀ version ∈ root.versionsOf write.1,
      version.commitTs ≤ current.tx.snapshotTs) {next : MvccLeafNode} (wellFormed : next.WellFormed)
    (versions : ∀ key, next.versionsOf key = addWrites current.tx.id.raw commitTs
      current.tx.writeBuffer.writes key (root.versionsOf key)) :
    Noticing nextTxId nextCommitTs
      (running.insert id ⟨{ current.tx with active := false }, current.begunAt, none⟩) next
      (applied ++ current.tx.writeBuffer.writes.map fun write => (id, write.1)) := by
  have kept := noticing.insert found ⟨{ current.tx with active := false }, current.begunAt, none⟩
    ⟨rfl, rfl, rfl⟩ (fun _ => rfl) nofun nofun
  obtain ⟨before, ahead⟩ := noticing.taken id current found commitTs isTaken
  have covered := ahead id current found active
  have cases_ (key : Bytes) := addWrites_cases current.tx.id.raw commitTs
    current.tx.writeBuffer.writes key (root.versionsOf key)
  refine ⟨wellFormed, noticing.started, fun key => ?_, fun key version mem => ?_,
    fun other otherTx isOther => ?_, kept.taken, fun other otherTx isOther isActive write mem => ?_⟩
  · rw [versions]
    rcases cases_ key with same | ⟨value, isWrite, added⟩
    · rw [same]
      exact noticing.stamped key
    · rw [added]
      apply (noticing.stamped key).cons (Nat.zero_lt_of_lt covered) before
      intro version mem
      exact (unchanged _ isWrite version mem).trans_lt covered
  · rw [versions] at mem
    rcases cases_ key with same | ⟨value, -, added⟩
    · exact kept.ended key version (same ▸ mem)
    · rw [added] at mem
      rcases mem_cons.mp mem with rfl | old
      · refine ⟨⟨{ current.tx with active := false }, current.begunAt, none⟩, ?_, rfl⟩
        rw [show (⟨current.tx.id.raw⟩ : TxId) = id from (noticing.begun id current found).1]
        exact AList.lookup_insert _
      · exact kept.ended key version old
  · obtain ⟨same, number, snapshot, begunAt⟩ := kept.begun other otherTx isOther
    refine ⟨same, number, snapshot, begunAt.trans ?_⟩
    rw [length_append]
    exact Nat.le_add_right _ _
  · have begunAt := (kept.begun other otherTx isOther).2.2.2
    rw [drop_append_of_le_length begunAt] at mem
    rw [versions]
    rcases mem_append.mp mem with old | isNew
    · obtain ⟨version, isVersion, later⟩ :=
        kept.noticed other otherTx isOther isActive write old
      refine ⟨version, ?_, later⟩
      rcases cases_ write.2 with same | ⟨value, -, added⟩
      · rwa [same]
      · rw [added]
        exact mem_cons_of_mem _ isVersion
    · obtain ⟨own, isOwn, rfl⟩ := mem_map.mp isNew
      have present : ∀ value, (own.1, value) ∈ current.tx.writeBuffer.writes → value = none →
          root.versionsOf own.1 ≠ [] := fun value isWrite => deleted (own.1, value) isWrite
      obtain ⟨value, added⟩ :=
        addWrites_of_mem current.tx.id.raw commitTs isOwn present
      refine ⟨_, added ▸ mem_cons_self, ?_⟩
      have apart : other ≠ id := by
        rintro rfl
        rw [AList.lookup_insert] at isOther
        cases isOther
        cases isActive
      rw [AList.lookup_insert_ne apart] at isOther
      exact ahead other otherTx isOther isActive

/-- A transaction that has not ended has no versions yet. -/
theorem absent (found : running.lookup id = some current) (active : current.tx.active = true) :
    ∀ key, ∀ version ∈ root.versionsOf key, version.createdTs ≠ current.tx.id.raw := by
  intro key version mem own
  obtain ⟨creator, isCreator, ended⟩ := noticing.ended key version mem
  rw [own, show (⟨current.tx.id.raw⟩ : TxId) = id from (noticing.begun id current found).1, found]
    at isCreator
  cases isCreator
  rw [active] at ended
  cases ended

end Noticing

namespace Interleaving

variable {state : Interleaving}

/-- What holds between two sections. -/
def Sound (state : Interleaving) : Prop :=
  Noticing state.nextTxId state.nextCommitTs state.running state.tree.root state.applied

/-- The outcome of an application. -/
theorem Sound.commit (sound : Sound state) {id : TxId} {current : Running}
    (found : state.running.lookup id = some current) (active : current.tx.active = true)
    (commitTs : Nat) :
    Committing state.tree current.tx.writeBuffer.writes current.tx.snapshotTs current.tx.id.raw
      commitTs (state.tree.atomicCommit current.tx.writeBuffer.writes current.tx.snapshotTs
        current.tx.id.raw commitTs) :=
  MvccBPlusTree.atomicCommit_spec _ _ sound.wellFormed
    (fun key => (sound.stamped key).positive) (sound.absent found active)
    current.tx.writeBuffer.nodup_writes

theorem Sound.apply (sound : Sound state) (id : TxId) (settled : state.Settled (.apply id)) :
    Sound (step state (.apply id)).2 := by
  rw [step]
  split
  next tx begunAt commitTs found =>
    have ended := sound.insert found ⟨{ tx with active := false }, begunAt, none⟩ ⟨rfl, rfl, rfl⟩
      (fun _ => rfl) nofun nofun
    rw [MvccTransaction.commit]
    cases active : tx.active with
    | false =>
      rw [show ({ tx with active := false } : MvccTransaction) = tx from by rw [← active]]
        at ended
      exact ended
    | true =>
      have committing := sound.commit found active commitTs
      generalize state.tree.atomicCommit tx.writeBuffer.writes tx.snapshotTs tx.id.raw commitTs
        = outcome at committing
      cases committing with
      | conflict => exact ended
      | done unchanged wellFormed versions =>
        exact Noticing.apply sound found active rfl (settled _ found) unchanged wellFormed
          versions
  next => exact sound

theorem Sound.rollback (sound : Sound state) (id : TxId) : Sound (step state (.rollback id)).2 := by
  rw [step]
  split
  next tx begunAt found =>
    rw [MvccTransaction.rollback]
    cases active : tx.active with
    | false =>
      exact sound.insert found ⟨tx, begunAt, none⟩ ⟨rfl, rfl, rfl⟩ (fun ended => ended)
        (fun opened => opened) (by simp)
    | true =>
      have same := rollbackVersions_eq_self sound.wellFormed
        (sound.absent found active)
      have ended := sound.insert found
        ⟨{ tx with writeBuffer := .empty, active := false }, begunAt, none⟩ ⟨rfl, rfl, rfl⟩
        (fun _ => rfl) (by simp) (by simp)
      simp only [Bool.not_true, Bool.false_eq_true, if_false, MvccBPlusTree.rollbackVersions]
      simp only [same]
      exact ended
  next => exact sound

/-- Every section that is settled keeps the state sound. -/
theorem Sound.step (sound : Sound state) (section_ : SectionStep)
    (settled : state.Settled section_) : Sound (Interleaving.step state section_).2 := by
  cases section_ with
  | begin => exact Noticing.begin sound settled
  | apply id => exact sound.apply id settled
  | rollback id => exact sound.rollback id
  | gc minSnapshotTs => exact Noticing.gc sound _ _
  | buffer id operation =>
    rw [Interleaving.step]
    split
    next => exact sound
    next current found =>
      rw [MvccTransaction.buffer]
      cases active : current.tx.active with
      | false => exact sound
      | true =>
        refine sound.insert found _ ⟨rfl, rfl, rfl⟩ (fun ended => ?_) (fun _ => active)
          (sound.taken id current found)
        rw [active] at ended
        cases ended
  | allocate id =>
    rw [Interleaving.step]
    split
    next current found =>
      split
      next =>
        refine Noticing.insert (sound.mono (Nat.le_succ _)) found _ ⟨rfl, rfl, rfl⟩
          (fun ended => ended) (fun opened => opened) ?_
        rintro _ ⟨⟩
        exact ⟨Nat.lt_succ_self _, fun other open_ isOpen _ =>
          (sound.begun other open_ isOpen).2.2.1⟩
      next => exact sound
    next => exact sound

theorem sound_new (maxVersionsPerKey : Nat) : Sound (new maxVersionsPerKey) where
  wellFormed := wellFormed_new
  started := Nat.one_pos
  stamped := stamped_new 1
  ended _ _ mem := by cases mem
  begun _ _ found := by cases found
  taken _ _ found := by cases found
  noticed _ _ found := by cases found

/-- In a run where every section is settled, a transaction whose writes are applied has written
no key that was written since it began. -/
theorem no_lost_update (maxVersionsPerKey : Nat) (steps : List SectionStep)
    (settled : step.Along Settled (new maxVersionsPerKey) steps) {id : TxId} {current : Running}
    (found : (step.final (new maxVersionsPerKey) steps).running.lookup id = some current)
    (done : (step (step.final (new maxVersionsPerKey) steps) (.apply id)).1 = .done) :
    ∀ write ∈ current.tx.writeBuffer.writes,
      ∀ other ∈ (step.final (new maxVersionsPerKey) steps).appliedSince id, other.2 ≠ write.1 := by
  have sound := Machine.invariant_along Sound (fun _ section_ sound met => sound.step section_ met)
    (sound_new maxVersionsPerKey) settled
  generalize step.final (new maxVersionsPerKey) steps = state at *
  intro write isWrite other isApplied same
  rw [appliedSince, found] at isApplied
  obtain ⟨tx, begunAt, _ | commitTs⟩ := current
  · simp only [step, found] at done
    cases done
  simp only [step, found, MvccTransaction.commit] at done
  cases active : tx.active with
  | false =>
    rw [active] at done
    cases done
  | true =>
    have committing := sound.commit found active commitTs
    obtain ⟨version, isVersion, later⟩ :=
      sound.noticed id _ found active other isApplied
    simp only [active, Bool.not_true, Bool.false_eq_true, if_false] at done committing
    generalize state.tree.atomicCommit tx.writeBuffer.writes tx.snapshotTs tx.id.raw commitTs
      = outcome at committing done
    cases committing with
    | conflict => cases done
    | done unchanged =>
      exact absurd (unchanged write isWrite version (same ▸ isVersion)) (not_le.mpr later)

/-- Of two transactions that begin before either commits, each writes a key of its own. -/
theorem no_lost_update_in_turn :
    let state := step.final (new 10) [.begin, .begin, .buffer ⟨1⟩ (.put [1] [7]),
      .buffer ⟨2⟩ (.put [2] [8]), .allocate ⟨1⟩, .apply ⟨1⟩, .allocate ⟨2⟩]
    state.appliedSince ⟨2⟩ = [(⟨1⟩, [1])] ∧
      ∀ current ∈ state.running.lookup ⟨2⟩, ∀ write ∈ current.tx.writeBuffer.writes,
        ∀ other ∈ state.appliedSince ⟨2⟩, other.2 ≠ write.1 := by
  intro state
  refine ⟨by decide +kernel, fun current found => ?_⟩
  exact no_lost_update 10 _ (by decide +kernel) found (by decide +kernel)

/-- A transaction begins between the two sections of a commit, and both write one key. -/
theorem update_lost :
    let steps : List SectionStep := [.begin, .buffer ⟨1⟩ (.put [1] [7]), .allocate ⟨1⟩, .begin,
      .buffer ⟨2⟩ (.put [1] [8]), .apply ⟨1⟩, .allocate ⟨2⟩]
    let state := step.final (new 10) steps
    (step state (.apply ⟨2⟩)).1 = .done ∧ state.appliedSince ⟨2⟩ = [(⟨1⟩, [1])] := by
  decide +kernel

end Interleaving

end Nanograph.Mvcc
