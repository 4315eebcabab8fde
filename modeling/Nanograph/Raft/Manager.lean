import Nanograph.Foundation.Grouping
import Nanograph.Raft.StateStore

/-!
# The consensus manager

`nanograph-raft/src/manager.rs`: writes and reads are routed to the consensus group of a shard
by the hash of the key. A group that accepts a write applies it to its state, so each group
stands for the content of its shard. A batch is split into one batch for each shard; the
shards are visited in the order of a hash map.
-/

namespace Nanograph.Raft

open List Function Foundation Kvt

/-- The errors of the consensus manager; a division by zero panics. -/
inductive ConsensusError where
  | shardNotFound (shardId : ShardId)
  | internal (message : String)
  | panic
deriving DecidableEq

/-- The groups of a node and the number of shards that keys are spread over. -/
structure ConsensusManager where
  shardCount : UInt32
  tableShards : ShardId → Option Shard

namespace ConsensusManager

variable (hash : Bytes → UInt64)

def getTableShardForKey (manager : ConsensusManager) (key : Bytes) :
    Except ConsensusError ShardId :=
  if manager.shardCount = 1 then .ok ⟨0⟩
  else if manager.shardCount = 0 then .error .panic
  else .ok ⟨(hash key).toNat % manager.shardCount.toNat⟩

/-- The content of the group of a shard. -/
def getTableShardGroup (manager : ConsensusManager) (shardId : ShardId) :
    Except ConsensusError Shard :=
  match manager.tableShards shardId with
  | some shard => .ok shard
  | none => .error (.shardNotFound shardId)

/-- Have the group of a shard apply an operation, and answer as a write that succeeds. In the
code the state machine drops the responder of the entry, so the caller gets no answer. -/
def proposeWrite (manager : ConsensusManager) (shardId : ShardId) (operation : Operation) :
    Except ConsensusError ConsensusManager := do
  let shard ← manager.getTableShardGroup shardId
  return { manager with
    tableShards := update manager.tableShards shardId
      (some (applyOperation shard operation)) }

def put (manager : ConsensusManager) (key value : Bytes) :
    Except ConsensusError ConsensusManager := do
  let shardId ← manager.getTableShardForKey hash key
  manager.proposeWrite shardId (.put key value)

/-- Read a value. -/
def get (manager : ConsensusManager) (key : Bytes) :
    Except ConsensusError (Option Bytes) := do
  let shardId ← manager.getTableShardForKey hash key
  let shard ← manager.getTableShardGroup shardId
  return shard.get key

def delete (manager : ConsensusManager) (key : Bytes) :
    Except ConsensusError ConsensusManager := do
  let shardId ← manager.getTableShardForKey hash key
  manager.proposeWrite shardId (.delete key)

/-- The key of an operation that is not a batch. -/
def operationKey : Operation → Except ConsensusError Bytes
  | .put key _ => .ok key
  | .delete key => .ok key
  | .batch _ => .error (.internal "Nested batch operations not supported")

/-- Operations with the shards they belong to. -/
def routeOperations (manager : ConsensusManager) :
    List Operation → Except ConsensusError (List (ShardId × Operation))
  | [] => .ok []
  | operation :: rest => do
    let key ← operationKey operation
    let shardId ← manager.getTableShardForKey hash key
    let routed ← manager.routeOperations rest
    return (shardId, operation) :: routed

/-- Have each group apply its operations. -/
def proposeBatches (manager : ConsensusManager) :
    List (ShardId × List Operation) → Except ConsensusError ConsensusManager
  | [] => .ok manager
  | (shardId, operations) :: rest => do
    let manager ← manager.proposeWrite shardId (.batch operations)
    manager.proposeBatches rest

def batch (order : VisitOrder (ShardId × List Operation)) (manager : ConsensusManager)
    (operations : List Operation) : Except ConsensusError ConsensusManager := do
  let routed ← manager.routeOperations hash operations
  manager.proposeBatches (order.visit (grouped routed))

/-- Perform one operation with the call for it. -/
def perform (manager : ConsensusManager) : Operation → Except ConsensusError ConsensusManager
  | .put key value => manager.put hash key value
  | .delete key => manager.delete hash key
  | .batch _ => .error (.internal "Nested batch operations not supported")

def performAll (manager : ConsensusManager) :
    List Operation → Except ConsensusError ConsensusManager
  | [] => .ok manager
  | operation :: rest => do
    let manager ← manager.perform hash operation
    manager.performAll rest

variable {shardId : ShardId} {operation : Operation}
  {next : ConsensusManager → Except ConsensusError ConsensusManager}

section

variable {hash} {manager after : ConsensusManager}

/-- What an operation does to a group that may be missing. -/
def actOn (shard : Option Shard) (operation : Operation) : Option Shard :=
  shard.map (applyOperation · operation)

/-- The manager behind a write to a group. -/
def written (manager : ConsensusManager) (shardId : ShardId) (operation : Operation) :
    ConsensusManager :=
  { manager with
    tableShards := update manager.tableShards shardId
      (actOn (manager.tableShards shardId) operation) }

/-- Something happens behind a write exactly when the group is there. -/
theorem proposeWrite_bind_eq_ok_iff :
    (manager.proposeWrite shardId operation >>= next) = .ok after ↔
      manager.tableShards shardId ≠ none ∧ next (manager.written shardId operation) = .ok after := by
  rw [proposeWrite, getTableShardGroup, written]
  cases found : manager.tableShards shardId with
  | none => simp [bind, Except.bind]
  | some shard => simp [bind, Except.bind, pure, Except.pure, actOn]

theorem present_written {other : ShardId} (present : manager.tableShards shardId ≠ none) :
    (manager.written shardId operation).tableShards other ≠ none ↔
      manager.tableShards other ≠ none := by
  rw [written]
  by_cases same : other = shardId
  · subst same
    obtain ⟨shard, there⟩ := Option.ne_none_iff_exists'.mp present
    simp [there, actOn]
  · simp only [update_of_ne same]

theorem perform_eq_proposeWrite {key : Bytes} (keyed : operationKey operation = .ok key)
    (routed : manager.getTableShardForKey hash key = .ok shardId) :
    manager.perform hash operation = manager.proposeWrite shardId operation := by
  cases operation with
  | put key' value =>
    obtain rfl := Except.ok.inj keyed
    simp [perform, put, routed, bind, Except.bind]
  | delete key' =>
    obtain rfl := Except.ok.inj keyed
    simp [perform, delete, routed, bind, Except.bind]
  | batch operations => cases keyed

theorem applyOperations_eq_foldl (shard : Shard) (operations : List Operation) :
    applyOperations shard operations = operations.foldl applyOperation shard := by
  induction operations generalizing shard with
  | nil => rw [applyOperations, foldl_nil]
  | cons operation rest ih =>
    rw [applyOperations, foldl_cons, ih]

theorem foldl_actOn (shard : Option Shard) (operations : List Operation) :
    operations.foldl actOn shard = shard.map (operations.foldl applyOperation ·) := by
  induction operations generalizing shard with
  | nil => simp
  | cons operation rest ih =>
    rw [foldl_cons, ih, actOn, Option.map_map]
    rfl

/-- A batch does what its operations do in their order. -/
theorem actOn_batch (shard : Option Shard) (operations : List Operation) :
    actOn shard (.batch operations) = operations.foldl actOn shard := by
  rw [foldl_actOn, actOn]
  congr 1
  funext shard
  rw [applyOperation, applyOperations_eq_foldl]

/-- All groups apply their operations exactly when all of them are there. -/
theorem proposeBatches_eq_ok_iff {groups : List (ShardId × List Operation)} :
    manager.proposeBatches groups = .ok after ↔
      (∀ group ∈ groups, manager.tableShards group.1 ≠ none) ∧
        after = { manager with tableShards := runGroups actOn manager.tableShards groups } := by
  induction groups generalizing manager with
  | nil => simpa [proposeBatches, runGroups] using eq_comm
  | cons group rest ih =>
    rw [proposeBatches, proposeWrite_bind_eq_ok_iff, ih, forall_mem_cons, and_assoc]
    refine and_congr_right fun present => and_congr ?_ ?_
    · exact forall₂_congr fun _ _ => present_written present
    · rw [written, actOn_batch]
      rfl

theorem routeOperations_tableShards (manager : ConsensusManager)
    (tableShards : ShardId → Option Shard) (operations : List Operation) :
    ({ manager with tableShards } : ConsensusManager).routeOperations hash operations =
      manager.routeOperations hash operations := by
  induction operations with
  | nil => rfl
  | cons operation rest ih =>
    rw [routeOperations, routeOperations, ih]
    rfl

theorem routeOperations_cons_eq_ok_iff {rest : List Operation} {routed : List (ShardId × Operation)} :
    manager.routeOperations hash (operation :: rest) = .ok routed ↔
      ∃ key shardId later, operationKey operation = .ok key ∧
        manager.getTableShardForKey hash key = .ok shardId ∧
        manager.routeOperations hash rest = .ok later ∧ routed = (shardId, operation) :: later := by
  rw [routeOperations]
  cases operationKey operation with
  | error error => simp [bind, Except.bind]
  | ok key =>
    cases found : manager.getTableShardForKey hash key with
    | error error => simp [found, bind, Except.bind]
    | ok shardId =>
      cases others : manager.routeOperations hash rest with
      | error error => simp [found, bind, Except.bind]
      | ok later => simp [found, bind, Except.bind, pure, Except.pure, eq_comm]

/-- An operation that is not a batch is a write to the group of its key. -/
theorem perform_bind_eq_ok_iff :
    (manager.perform hash operation >>= next) = .ok after ↔
      ∃ key shardId, operationKey operation = .ok key ∧
        manager.getTableShardForKey hash key = .ok shardId ∧
        manager.tableShards shardId ≠ none ∧ next (manager.written shardId operation) = .ok after := by
  cases keyed : operationKey operation with
  | error error =>
    cases operation with
    | batch operations => simp [perform, bind, Except.bind]
    | _ => cases keyed
  | ok key =>
    cases found : manager.getTableShardForKey hash key with
    | error error =>
      cases operation with
      | batch operations => cases keyed
      | _ =>
        obtain rfl := Except.ok.inj keyed
        simp [perform, put, delete, found, bind, Except.bind]
    | ok shardId =>
      rw [perform_eq_proposeWrite keyed found, proposeWrite_bind_eq_ok_iff]
      simp [found]

/-- Operations are performed one by one exactly when they are routed to groups that are all
there. -/
theorem performAll_eq_ok_iff {operations : List Operation} :
    manager.performAll hash operations = .ok after ↔
      ∃ routed, manager.routeOperations hash operations = .ok routed ∧
        (∀ item ∈ routed, manager.tableShards item.1 ≠ none) ∧
        after = { manager with tableShards := runEach actOn manager.tableShards routed } := by
  induction operations generalizing manager with
  | nil => simpa [performAll, routeOperations, runEach] using eq_comm
  | cons operation rest ih =>
    rw [performAll, perform_bind_eq_ok_iff]
    constructor
    · rintro ⟨key, shardId, keyed, found, present, performed⟩
      obtain ⟨later, routes, others, rfl⟩ := ih.mp performed
      rw [written, routeOperations_tableShards] at routes
      refine ⟨(shardId, operation) :: later,
        routeOperations_cons_eq_ok_iff.mpr ⟨key, shardId, later, keyed, found, routes, rfl⟩,
        forall_mem_cons.mpr ⟨present, ?_⟩, rfl⟩
      exact fun item mem => (present_written present).mp (others item mem)
    · rintro ⟨routed, routes, present, rfl⟩
      obtain ⟨key, shardId, later, keyed, found, others, rfl⟩ :=
        routeOperations_cons_eq_ok_iff.mp routes
      obtain ⟨first, behind⟩ := forall_mem_cons.mp present
      refine ⟨key, shardId, keyed, found, first, ih.mpr ⟨later, ?_, ?_, rfl⟩⟩
      · exact (routeOperations_tableShards _ _ _).trans others
      · exact fun item mem => (present_written first).mpr (behind item mem)

/-- A batch succeeds exactly when its operations do one by one, and leaves the same, whatever
the order in which the shards are visited. -/
theorem batch_eq_ok_iff {order : VisitOrder (ShardId × List Operation)}
    {operations : List Operation} :
    manager.batch hash order operations = .ok after ↔
      manager.performAll hash operations = .ok after := by
  rw [performAll_eq_ok_iff, batch]
  cases routes : manager.routeOperations hash operations with
  | error error => simp [bind, Except.bind]
  | ok routed =>
    have targets : (∀ group ∈ order.visit (grouped routed), manager.tableShards group.1 ≠ none) ↔
        ∀ item ∈ routed, manager.tableShards item.1 ≠ none := by
      simp only [(order.perm (grouped routed)).mem_iff]
      exact forall_keys_grouped (manager.tableShards · ≠ none)
    simp only [bind, Except.bind, proposeBatches_eq_ok_iff, runGroups_visit, targets,
      Except.ok.injEq, exists_eq_left']

end

end ConsensusManager

end Nanograph.Raft
