import Nanograph.Kvm.Batch

/-!
# What calls on a table do to the records of the system

The shards of a table are named by the numbers of the table. The shard of the system has the name
of the first shard of table 0 in container 0, so the first table there is created in its place,
with what the engine of the table has for this name.
-/

namespace Nanograph.Kvm

open Nanograph.Core Foundation Kvt Raft KeyValueShardManager

namespace KeyValueDatabaseContext

variable {hash : Bytes → UInt64} {context : KeyValueDatabaseContext}

/-- A call on an entry that passes its checks goes to the shard of the key. -/
theorem getTableShardForKey_of_checkEntry {principal : SecurityPrincipal}
    {containerId : ContainerId} {tableId : ObjectId} {permission : Permission} {key : Bytes}
    {shardId : ShardId}
    (checked : context.checkEntry principal containerId tableId permission key = .ok shardId) :
    context.getTableShardForKey containerId tableId key = .ok shardId := by
  rw [checkEntry] at checked
  split at checked
  next =>
    cases valid : validateUserKey key with
    | error error => simp [valid, bind, Except.bind] at checked
    | ok _ => simpa [valid, bind, Except.bind] using checked
  next => cases checked

section

variable {principal : SecurityPrincipal} {containerId : ContainerId} {tableId : ObjectId}

section

variable {engineType : StorageEngineType} {manager after : KeyValueShardManager}
  {numbers : List Nat} {answer : Except ContextError Unit} {shardId : ShardId}

/-- The creation of shards leaves the others as they are. -/
theorem createShards_others
    (ended : createShards containerId tableId engineType manager numbers = (answer, after))
    (apart : ∀ number ∈ numbers, shardId ≠ ShardId.fromParts containerId.tenant
      containerId.database tableId ⟨UInt32.ofNat number⟩) :
    after.readShard shardId = manager.readShard shardId := by
  induction numbers generalizing manager with
  | nil => rw [(Prod.mk.inj ended).2]
  | cons number rest ih =>
    rw [List.forall_mem_cons] at apart
    rw [createShards] at ended
    cases first : manager.createShard containerId tableId ⟨UInt32.ofNat number⟩ engineType with
    | error error =>
      rw [first] at ended
      rw [(Prod.mk.inj ended).2]
    | ok next =>
      rw [first] at ended
      exact (ih ended apart.2).trans (createShard_others first apart.1).1

end

variable (containerId tableId) in
/-- The shards of a table have names of their own. -/
theorem nodup_shardNames {count : Nat} (bound : count ≤ UInt32.size) :
    ((List.range count).map fun number => ShardId.fromParts containerId.tenant
      containerId.database tableId ⟨UInt32.ofNat number⟩).Nodup := by
  refine List.nodup_range.map_on fun first below second above same => ?_
  have numbers := (ShardId.fromParts_inj.mp same).2.2.2
  have raw := congrArg (fun number : ShardNumber => number.raw.toNat) numbers
  rw [List.mem_range] at below above
  simpa [UInt32.toNat_ofNat_of_lt' (below.trans_le bound),
    UInt32.toNat_ofNat_of_lt' (above.trans_le bound)] using raw

theorem createdShards_le (sharding : TableSharding) : sharding.createdShards ≤ UInt32.size := by
  cases sharding with
  | single => decide
  | multiple shardCount partitioner replicationFactor => exact shardCount.toNat_lt_size.le

variable (hash principal containerId tableId) in
/-- A call on an entry either fails or writes to the shard of its key. -/
theorem tableEntryPut_cases (standalone : context.raftRouter = none) (key value : Bytes) :
    (∃ error, context.tableEntryPut hash principal containerId tableId key value =
        (.error error, context)) ∨
      ∃ shardId shardManager, context.getTableShardForKey containerId tableId key = .ok shardId ∧
        context.shardManager.put shardId key value = .ok shardManager ∧
        context.tableEntryPut hash principal containerId tableId key value =
          (.ok (), { context with shardManager }) := by
  rw [tableEntryPut]
  cases checked : context.checkEntry principal containerId tableId .tableDataInsert key with
  | error error => exact .inl ⟨error, rfl⟩
  | ok shardId =>
    simp only [standalone]
    have found := getTableShardForKey_of_checkEntry checked
    cases written : context.shardManager.put shardId key value with
    | error error => exact .inl ⟨error, rfl⟩
    | ok shardManager =>
      exact .inr ⟨shardId, shardManager, found, written, by rw [withShards, standalone]⟩

variable (hash principal containerId tableId) in
theorem tableEntryDelete_cases (standalone : context.raftRouter = none) (key : Bytes) :
    (∃ error, context.tableEntryDelete hash principal containerId tableId key =
        (.error error, context)) ∨
      ∃ shardId shardManager existed,
        context.getTableShardForKey containerId tableId key = .ok shardId ∧
        context.shardManager.delete shardId key = .ok shardManager ∧
        context.tableEntryDelete hash principal containerId tableId key =
          (.ok existed, { context with shardManager }) := by
  rw [tableEntryDelete]
  cases checked : context.checkEntry principal containerId tableId .tableDataDelete key with
  | error error => exact .inl ⟨error, rfl⟩
  | ok shardId =>
    simp only [standalone]
    have found := getTableShardForKey_of_checkEntry checked
    cases written : context.shardManager.delete shardId key with
    | error error => exact .inl ⟨error, rfl⟩
    | ok shardManager =>
      exact .inr ⟨shardId, shardManager, _, found, written, by rw [withShards, standalone]⟩

/-- The records that are kept in the shard of the system. -/
inductive SystemRecordName where
  | tenant (tenantId : TenantId)
  | database (tenantId : TenantId) (databaseId : DatabaseId)
  | systemUser (userId : UInt32)
deriving DecidableEq

def SystemRecordName.key : SystemRecordName → Bytes
  | .tenant tenantId => tenantKey tenantId
  | .database tenantId databaseId => databaseKey tenantId databaseId
  | .systemUser userId => systemUserKey userId

/-- What is read of a record from the shard of the system. -/
def readSystemRecord (context : KeyValueDatabaseContext) (name : SystemRecordName) :
    Except ContextError (Option Bytes) :=
  context.shardManager.get systemShard name.key

/-- A shard has the name of the shard of the system when all its parts are 0. -/
theorem fromParts_eq_systemShard {tenant : TenantId} {database : DatabaseId} {object : ObjectId}
    {shardNumber : ShardNumber} :
    systemShard = ShardId.fromParts tenant database object shardNumber ↔
      tenant = ⟨0⟩ ∧ database = ⟨0⟩ ∧ object = ⟨0⟩ ∧ shardNumber = ⟨0⟩ := by
  have zero : systemShard = ShardId.fromParts ⟨0⟩ ⟨0⟩ ⟨0⟩ ⟨0⟩ := rfl
  rw [zero, ShardId.fromParts_inj]
  simp only [eq_comm]

/-- The creation of a table puts a shard into the place of the shard of the system: it is the
first one of container 0, and its engine can open a shard of this name. -/
structure TakesSystemShard (context : KeyValueDatabaseContext) (principal : SecurityPrincipal)
    (containerId : ContainerId) (config : TableCreate) (shard : Shard) : Prop where
  permitted : principal.hasDatabasePermission .tableCreate containerId.tenant containerId.database
  tenant : containerId.tenant = ⟨0⟩
  database : containerId.database = ⟨0⟩
  table : context.nextTableId containerId = ⟨0⟩
  some : 0 < config.shardingConfig.createdShards
  registered : config.engineType ∈ context.shardManager.engines
  opens : context.shardManager.opened config.engineType systemShard = .ok shard

section

variable {config : TableCreate} (standalone : context.raftRouter = none)

include standalone

theorem shardManager_createTable :
    (context.createTable principal containerId config).2.shardManager =
      if principal.hasDatabasePermission .tableCreate containerId.tenant containerId.database then
        (createShards containerId (context.nextTableId containerId) config.engineType
          context.shardManager (List.range config.shardingConfig.createdShards)).2
      else context.shardManager := by
  simp only [createTable, standalone]
  split
  · rcases createShards containerId (context.nextTableId containerId) config.engineType
      context.shardManager (List.range config.shardingConfig.createdShards) with
      ⟨error | done, shardManager⟩ <;> rfl
  · rfl

/-- A shard takes the place of the shard of the system. -/
theorem TakesSystemShard.readShard {shard : Shard}
    (takes : context.TakesSystemShard principal containerId config shard) :
    (context.createTable principal containerId config).2.shardManager.readShard systemShard =
      .ok shard := by
  obtain ⟨permitted, tenant, database, table, positive, registered, opens⟩ := takes
  have names := nodup_shardNames containerId ⟨0⟩ (createdShards_le config.shardingConfig)
  obtain ⟨rest, count⟩ := Nat.exists_eq_succ_of_ne_zero positive.ne'
  have isFirst : ShardId.fromParts containerId.tenant containerId.database ⟨0⟩ ⟨UInt32.ofNat 0⟩ =
      systemShard := by
    rw [tenant, database]
    rfl
  rw [count, List.range_succ_eq_map, List.map_cons, List.nodup_cons, isFirst] at names
  have created : context.shardManager.createShard containerId ⟨0⟩ ⟨UInt32.ofNat 0⟩
      config.engineType = .ok _ :=
    createShard_eq_ok_iff.mpr ⟨registered, shard, isFirst ▸ opens, rfl⟩
  rw [shardManager_createTable standalone, if_pos permitted, table, count, List.range_succ_eq_map,
    createShards, created, createShards_others rfl]
  · rw [← isFirst, readShard_created created, isFirst, opens]
  · exact fun other mem same => names.1 (List.mem_map.mpr ⟨other, mem, same.symm⟩)

/-- The shard of the system stays as it is when no other one takes its place. -/
theorem readShard_createTable
    (untaken : ∀ shard, ¬context.TakesSystemShard principal containerId config shard) :
    (context.createTable principal containerId config).2.shardManager.readShard systemShard =
      context.shardManager.readShard systemShard := by
  rw [shardManager_createTable standalone]
  split
  next permitted =>
    by_cases named : ∃ number ∈ List.range config.shardingConfig.createdShards,
        systemShard = ShardId.fromParts containerId.tenant containerId.database
          (context.nextTableId containerId) ⟨UInt32.ofNat number⟩
    · obtain ⟨number, mem, isSystem⟩ := named
      obtain ⟨tenant, database, table, -⟩ := fromParts_eq_systemShard.mp isSystem
      have positive := (Nat.zero_le number).trans_lt (List.mem_range.mp mem)
      obtain ⟨rest, count⟩ := Nat.exists_eq_succ_of_ne_zero positive.ne'
      rw [count, List.range_succ_eq_map, createShards]
      cases first : context.shardManager.createShard containerId (context.nextTableId containerId)
          ⟨UInt32.ofNat 0⟩ config.engineType with
      | error error => rfl
      | ok next =>
        obtain ⟨registered, shard, opens, -⟩ := createShard_eq_ok_iff.mp first
        rw [tenant, database, table] at opens
        exact absurd ⟨permitted, tenant, database, table, positive, registered, opens⟩
          (untaken shard)
    · exact createShards_others rfl fun number mem same => named ⟨number, mem, same⟩
  next => rfl

end

/-- Records written as their identifiers. -/
def identifierCodecs : RecordCodecs where
  tenant record := beBytes 4 record.id.raw.toNat
  database record := beBytes 4 record.databaseId.raw.toNat
  index record := beBytes 4 record.indexId.raw.toNat

/-- The first tenant with its first database. -/
def firstDatabase : KeyValueDatabaseContext :=
  ((newStandalone.bootstrapStandalone.2.createTenant identifierCodecs
    SecurityPrincipal.unrestricted ['t']).2.createDatabase identifierCodecs
      SecurityPrincipal.unrestricted ⟨0⟩ ['d']).2

def firstTable : Answer TableRecord :=
  firstDatabase.createTable SecurityPrincipal.unrestricted ⟨0⟩ ⟨['a'], ['a'], artEngine, .single⟩

/-- An entry of the first table under the key of the first tenant. -/
def entryAtTenantKey : Answer Unit :=
  firstTable.2.tableEntryPut (fun _ => 0) SecurityPrincipal.unrestricted ⟨0⟩ ⟨0⟩ (tenantKey ⟨0⟩) [7]

end

end KeyValueDatabaseContext

end Nanograph.Kvm
