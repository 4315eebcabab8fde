import Nanograph.Raft.ApplyRace

/-!
# Applying entries again

After a restart the entries behind the persisted position are applied once more. An operation,
however deep its batches nest, leaves one value under a key or leaves the key alone, so all that
counts is the last entry that writes a key, and that one is among the entries applied again.
-/

namespace Nanograph.Raft

open List Foundation Kvt

variable {M : Type} {wanted : Bytes} {change later : Shard → Shard} {shard other : Shard}

/-- A change leaves the same value under a key whatever was there before, or it leaves the key. -/
def Overwrites (wanted : Bytes) (change : Shard → Shard) : Prop :=
  (∀ shard, (change shard).get wanted = shard.get wanted) ∨
    ∃ left, ∀ shard, (change shard).get wanted = left

theorem Overwrites.comp (first : Overwrites wanted change) (second : Overwrites wanted later) :
    Overwrites wanted fun shard => later (change shard) := by
  rcases second with keeps | ⟨left, sets⟩
  · rcases first with kept | ⟨left, sets⟩
    · exact .inl fun shard => (keeps _).trans (kept shard)
    · exact .inr ⟨left, fun shard => (keeps _).trans (sets shard)⟩
  · exact .inr ⟨left, fun shard => sets _⟩

/-- What is left under a key depends only on what was there. -/
theorem Overwrites.congr (overwrites : Overwrites wanted change)
    (same : shard.get wanted = other.get wanted) :
    (change shard).get wanted = (change other).get wanted := by
  rcases overwrites with keeps | ⟨left, sets⟩
  · rw [keeps, keeps, same]
  · rw [sets, sets]

mutual

theorem overwrites_applyOperation : ∀ operation, Overwrites wanted (applyOperation · operation)
  | .put key value => by
    simp only [applyOperation, Overwrites, Shard.get_put]
    by_cases same : key = wanted
    · exact .inr ⟨some value, fun _ => if_pos same⟩
    · exact .inl fun _ => if_neg same
  | .delete key => by
    simp only [applyOperation, Overwrites, Shard.get_delete]
    by_cases same : key = wanted
    · exact .inr ⟨none, fun _ => if_pos same⟩
    · exact .inl fun _ => if_neg same
  | .batch operations => by
    simp only [applyOperation]
    exact overwrites_applyOperations operations

theorem overwrites_applyOperations :
    ∀ operations, Overwrites wanted (applyOperations · operations)
  | [] => .inl fun _ => by simp only [applyOperations]
  | operation :: rest => by
    simp only [applyOperations]
    exact (overwrites_applyOperation operation).comp (overwrites_applyOperations rest)

end

theorem overwrites_effect (wanted : Bytes) (entries : List (Entry (EntryPayload M))) :
    Overwrites wanted (effect · entries) := by
  induction entries with
  | nil => exact .inl fun _ => rfl
  | cons entry rest ih =>
    have head : Overwrites wanted (effectOf · entry) := by
      simp only [effectOf]
      split
      · exact overwrites_applyOperation _
      · exact .inl fun _ => rfl
    exact head.comp ih

namespace ConsensusStateStore

variable {codecs : StateCodecs M} {store : ConsensusStateStore M}

/-- Apply the entries of one call after the other. -/
def applyAll (codecs : StateCodecs M) (store : ConsensusStateStore M)
    (calls : List (List (Entry (EntryPayload M)))) : ConsensusStateStore M :=
  calls.foldl (apply codecs) store

/-- A call leaves the data that its entries leave, apart from the entry of the state. -/
theorem apply_eq (store : ConsensusStateStore M) (entries : List (Entry (EntryPayload M))) :
    (store.apply codecs entries).raftStateKey = store.raftStateKey ∧
      ∀ wanted, wanted ≠ store.raftStateKey → (store.apply codecs entries).shardStorage.get wanted =
        (effect store.shardStorage entries).get wanted := by
  have marked : ∀ store : ConsensusStateStore M,
      (entries.foldl (fun store entry => (store.applyPayload entry).setLastApplied entry)
        store).shardId = store.shardId ∧
      (entries.foldl (fun store entry => (store.applyPayload entry).setLastApplied entry)
        store).shardStorage = effect store.shardStorage entries := by
    induction entries with
    | nil => exact fun _ => ⟨rfl, rfl⟩
    | cons entry rest ih =>
      intro store
      obtain ⟨sameId, sameShard⟩ := ih ((store.applyPayload entry).setLastApplied entry)
      refine ⟨sameId.trans ?_, sameShard.trans ?_⟩
      · simp only [setLastApplied, applyPayload]
        split <;> rfl
      · rw [setLastApplied, shardStorage_applyPayload]
        rfl
  obtain ⟨sameId, sameShard⟩ := marked store
  have sameKey := congrArg (fun shardId => asBytes ("raft_state_".toList ++ displayShard shardId))
    sameId
  refine ⟨sameKey, fun wanted differs => ?_⟩
  rw [apply, saveState, Shard.get_put, if_neg, sameShard]
  exact fun same => differs (same.symm.trans sameKey)

/-- The data after some calls is what all their entries leave. -/
theorem applyAll_eq (store : ConsensusStateStore M)
    (calls : List (List (Entry (EntryPayload M)))) (differs : wanted ≠ store.raftStateKey) :
    (store.applyAll codecs calls).shardStorage.get wanted =
      (effect store.shardStorage calls.flatten).get wanted := by
  induction calls generalizing store with
  | nil => rfl
  | cons entries rest ih =>
    obtain ⟨sameKey, data⟩ := store.apply_eq entries
    rw [flatten_cons, effect, foldl_append]
    exact (ih _ (sameKey ▸ differs)).trans ((overwrites_effect _ _).congr (data wanted differs))

/-- Applying the last entries once more, over the data they left, changes no value. The entry of
the state may have any content, and so may what was read from it. -/
theorem replay_unchanged (restarted : ConsensusStateStore M)
    (calls again : List (List (Entry (EntryPayload M)))) (applied : Nat)
    (entries : again.flatten = calls.flatten.drop applied)
    (sameShard : restarted.shardId = store.shardId)
    (kept : ∀ key, key ≠ store.raftStateKey → restarted.shardStorage.get key =
      (store.applyAll codecs calls).shardStorage.get key) (wanted : Bytes)
    (differs : wanted ≠ store.raftStateKey) :
    (restarted.applyAll codecs again).shardStorage.get wanted =
      (store.applyAll codecs calls).shardStorage.get wanted := by
  have sameKey : restarted.raftStateKey = store.raftStateKey := by
    rw [raftStateKey, sameShard, raftStateKey]
  rw [restarted.applyAll_eq again (sameKey ▸ differs), entries]
  rcases overwrites_effect wanted (calls.flatten.drop applied) with keeps | ⟨left, sets⟩
  · rw [keeps, kept wanted differs]
  · -- the last entries decide the value the first time as well
    rw [sets, store.applyAll_eq calls differs, ← take_append_drop applied calls.flatten, effect,
      foldl_append]
    exact (sets _).symm

/-- Two entries are applied, and the second once more. -/
theorem replay_of_second :
    let codecs : StateCodecs Unit := ⟨.ofEncodable _, fun _ => [], fun _ => []⟩
    let store : ConsensusStateStore Unit := .new ⟨7⟩ .empty ⟨.none, .none, .none, 0⟩
    let entries : List (Entry (EntryPayload Unit)) :=
      [⟨⟨1, 1⟩, .normal (.put [1] [2])⟩, ⟨⟨1, 2⟩, .normal (.batch [.delete [1]])⟩]
    let applied := store.applyAll codecs [entries]
    (applied.applyAll codecs [entries.drop 1]).shardStorage.get [1] =
      applied.shardStorage.get [1] := by
  intro codecs store entries applied
  refine replay_unchanged applied [entries] [entries.drop 1] 1 rfl ?_ (fun _ _ => rfl) [1] ?_
  · rfl
  · simp [raftStateKey, asBytes]

/-- A replica that starts with the data of a part of the log and applies the rest in calls of its
own agrees with one that applied the whole log. -/
theorem caught_up_agrees (replica : ConsensusStateStore M)
    {calls before rest : List (List (Entry (EntryPayload M)))}
    (log : calls.flatten = before.flatten ++ rest.flatten)
    (kept : replica.shardStorage.get wanted = (store.applyAll codecs before).shardStorage.get wanted)
    (own : wanted ≠ replica.raftStateKey) (differs : wanted ≠ store.raftStateKey) :
    (replica.applyAll codecs rest).shardStorage.get wanted =
      (store.applyAll codecs calls).shardStorage.get wanted := by
  rw [store.applyAll_eq _ differs] at kept
  rw [replica.applyAll_eq _ own, store.applyAll_eq _ differs, log, effect, effect, foldl_append]
  exact (overwrites_effect _ _).congr kept

/-- A replica has the data of the first entry and applies the second. -/
theorem caught_up_second :
    let codecs : StateCodecs Unit := ⟨.ofEncodable _, fun _ => [], fun _ => []⟩
    let store : ConsensusStateStore Unit := .new ⟨7⟩ .empty ⟨.none, .none, .none, 0⟩
    let log : List (Entry (EntryPayload Unit)) :=
      [⟨⟨1, 1⟩, .normal (.put [1] [2])⟩, ⟨⟨1, 2⟩, .normal (.delete [1])⟩]
    ((store.applyAll codecs [log.take 1]).applyAll codecs [log.drop 1]).shardStorage.get [1] =
      (store.applyAll codecs [log]).shardStorage.get [1] := by
  refine caught_up_agrees _ rfl rfl ?_ ?_ <;> simp [raftStateKey, asBytes]

end ConsensusStateStore

end Nanograph.Raft
