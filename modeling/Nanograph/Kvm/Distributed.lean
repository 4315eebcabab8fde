import Nanograph.Foundation.Machine
import Nanograph.Kvm.Batch

/-!
# Entries of tables in distributed mode

In distributed mode the entries of all tables would go to the same consensus groups under their
bare keys. They do not get there by single writes: the tables of a container are looked up in its
cache, and only the creation of a table in standalone mode makes such a cache. Every call that
asks for a table is refused, so no table sees what is written to another one.
-/

namespace Nanograph.Kvm

open Nanograph.Core Foundation Kvt Raft

/-- The calls that create and delete objects of a container. -/
inductive ObjectCall where
  | createTable (config : TableCreate)
  | createIndex (name : List Char)
  | createNamespace (parent : ObjectId) (name : List Char)
  | deleteTable (tableId : ObjectId)
  | deleteIndex (indexId : ObjectId)
  | deleteNamespace (namespaceId : ObjectId)

/-- The calls on a distributed context. The ones on tenants, databases and engines may leave any
records in the cache of the system and any shards. -/
inductive DistributedCall where
  | elsewhere (systemMetacache : SystemMetadataCache) (shardManager : KeyValueShardManager)
  | ofObject (principal : SecurityPrincipal) (containerId : ContainerId) (call : ObjectCall)
  | put (principal : SecurityPrincipal) (containerId : ContainerId) (tableId : ObjectId)
      (key value : Bytes)
  | delete (principal : SecurityPrincipal) (containerId : ContainerId) (tableId : ObjectId)
      (key : Bytes)
  | batchPut (principal : SecurityPrincipal) (containerId : ContainerId) (tableId : ObjectId)
      (order : VisitOrder (ShardId × List Record))
      (operationOrder : VisitOrder (ShardId × List Operation)) (pairs : List Record)

namespace KeyValueDatabaseContext

def callObject (codecs : RecordCodecs) (context : KeyValueDatabaseContext)
    (principal : SecurityPrincipal) (containerId : ContainerId) :
    ObjectCall → KeyValueDatabaseContext
  | .createTable config => (context.createTable principal containerId config).2
  | .createIndex name => (context.createIndex codecs principal containerId name).2
  | .createNamespace parent name =>
    (context.createNamespace principal containerId parent name).2
  | .deleteTable tableId => (context.deleteTable principal containerId tableId).2
  | .deleteIndex indexId => (context.deleteIndex principal containerId indexId).2
  | .deleteNamespace namespaceId => (context.deleteNamespace principal containerId namespaceId).2

/-- What a call leaves behind. -/
def distributed (hash : Bytes → UInt64) (codecs : RecordCodecs) :
    Machine KeyValueDatabaseContext DistributedCall Unit
  | context, .elsewhere systemMetacache shardManager =>
    ((), { context with systemMetacache, shardManager })
  | context, .ofObject principal containerId call =>
    ((), context.callObject codecs principal containerId call)
  | context, .put principal containerId tableId key value =>
    ((), (context.tableEntryPut hash principal containerId tableId key value).2)
  | context, .delete principal containerId tableId key =>
    ((), (context.tableEntryDelete hash principal containerId tableId key).2)
  | context, .batchPut principal containerId tableId order operationOrder pairs =>
    ((), (context.tableEntryBatchPut hash principal containerId tableId order operationOrder
      pairs).2)

/-- A distributed context that knows the objects of no container. -/
structure Unfilled (context : KeyValueDatabaseContext) : Prop where
  router : context.raftRouter ≠ none
  caches : ∀ containerId, context.containerMetacaches containerId = none

namespace Unfilled

variable {context : KeyValueDatabaseContext} (unfilled : context.Unfilled)
  (principal : SecurityPrincipal) (containerId : ContainerId) (tableId : ObjectId) (key : Bytes)

include unfilled

/-- No call on an entry passes its checks. -/
theorem checkEntry (permission : Permission) :
    ∃ error, context.checkEntry principal containerId tableId permission key = .error error := by
  rw [KeyValueDatabaseContext.checkEntry, getTableShardForKey, unfilled.caches]
  split
  · cases validateUserKey key with
    | error error => exact ⟨error, rfl⟩
    | ok valid => exact ⟨_, rfl⟩
  · exact ⟨_, rfl⟩

theorem tableEntryPut (hash : Bytes → UInt64) (value : Bytes) :
    (context.tableEntryPut hash principal containerId tableId key value).2 = context := by
  obtain ⟨error, refused⟩ := unfilled.checkEntry principal containerId tableId key .tableDataInsert
  rw [KeyValueDatabaseContext.tableEntryPut, refused]

theorem tableEntryDelete (hash : Bytes → UInt64) :
    (context.tableEntryDelete hash principal containerId tableId key).2 = context := by
  obtain ⟨error, refused⟩ := unfilled.checkEntry principal containerId tableId key .tableDataDelete
  rw [KeyValueDatabaseContext.tableEntryDelete, refused]

/-- No call on an object of a container changes anything. -/
theorem callObject (codecs : RecordCodecs) (call : ObjectCall) :
    context.callObject codecs principal containerId call = context := by
  obtain ⟨router, isRouter⟩ := Option.ne_none_iff_exists'.mp unfilled.router
  have none := unfilled.caches containerId
  cases call
  all_goals
    simp only [KeyValueDatabaseContext.callObject, createTable, createIndex, createNamespace,
      deleteTable, deleteIndex, deleteNamespace, isRouter, none]
    split <;> rfl

/-- Batches go to the consensus manager, whatever table they name. -/
theorem tableEntryBatchPut (hash : Bytes → UInt64) (order : VisitOrder (ShardId × List Record))
    (operationOrder : VisitOrder (ShardId × List Operation)) (pairs : List Record) :
    (context.tableEntryBatchPut hash principal containerId tableId order operationOrder
      pairs).2.Unfilled := by
  obtain ⟨router, isRouter⟩ := Option.ne_none_iff_exists'.mp unfilled.router
  simp only [KeyValueDatabaseContext.tableEntryBatchPut, isRouter]
  split
  · cases validatePairs pairs with
    | error error => exact unfilled
    | ok valid =>
      simp only
      cases router.batch hash operationOrder (pairs.map fun pair => .put pair.1 pair.2) with
      | error error => exact unfilled
      | ok after => exact ⟨Option.some_ne_none after, unfilled.caches⟩
  · exact unfilled

theorem step (hash : Bytes → UInt64) (codecs : RecordCodecs) (call : DistributedCall) :
    (distributed hash codecs context call).2.Unfilled := by
  cases call with
  | elsewhere systemMetacache shardManager => exact ⟨unfilled.router, unfilled.caches⟩
  | ofObject principal containerId call =>
    rw [distributed, unfilled.callObject]
    exact unfilled
  | put principal containerId tableId key value =>
    rw [distributed, unfilled.tableEntryPut]
    exact unfilled
  | delete principal containerId tableId key =>
    rw [distributed, unfilled.tableEntryDelete]
    exact unfilled
  | batchPut principal containerId tableId order operationOrder pairs =>
    exact unfilled.tableEntryBatchPut principal containerId tableId hash order operationOrder pairs

end Unfilled

/-- After any calls on a distributed context, writing or removing an entry of a table leaves what
is read of any table as it is. -/
theorem other_table_unchanged (hash : Bytes → UInt64) (codecs : RecordCodecs)
    (router : ConsensusManager) (calls : List DistributedCall)
    (principal reader : SecurityPrincipal) (containerId other : ContainerId)
    (tableId otherTable : ObjectId) (key value : Bytes) :
    let context := (distributed hash codecs).final (newDistributed router) calls
    let read := fun context : KeyValueDatabaseContext =>
      context.tableEntryGet hash reader other otherTable key
    read (context.tableEntryPut hash principal containerId tableId key value).2 = read context ∧
      read (context.tableEntryDelete hash principal containerId tableId key).2 = read context := by
  intro context read
  have unfilled : context.Unfilled :=
    Machine.invariant Unfilled (fun _ call unfilled => unfilled.step hash codecs call)
      ⟨Option.some_ne_none router, fun _ => rfl⟩ calls
  rw [unfilled.tableEntryPut, unfilled.tableEntryDelete]
  exact ⟨rfl, rfl⟩

end KeyValueDatabaseContext

end Nanograph.Kvm
