import Nanograph.Kvm.ShardManager

/-!
# The database context

`nanograph-kvm/src/context.rs`: tenants, databases, tables, indexes and namespaces, and the
entries of tables. In standalone mode the context works on the shards of its own node; in
distributed mode entries go through the consensus manager. Records of the system are kept in
caches and in shard 0.

Identifiers are handed out by the calls themselves: tenants, databases and tables get the
number behind the largest one of their kind, indexes and namespaces always get 0.
Timestamps, options and metadata of records are left out.
-/

namespace Nanograph.Kvm

open Nanograph.Core Foundation Kvt Raft

structure TenantRecord where
  id : TenantId
  name : List Char
  version : Nat

structure DatabaseRecord where
  databaseId : DatabaseId
  tenantId : TenantId
  databaseName : List Char
  version : Nat
  rootNamespace : ObjectId

structure TableRecord where
  tableId : ObjectId
  name : List Char
  path : List Char
  version : Nat
  engineType : StorageEngineType
  sharding : TableSharding

structure IndexRecord where
  indexId : ObjectId
  name : List Char
  version : Nat

structure NamespaceRecord where
  id : ObjectId
  name : List Char
  version : Nat
  path : List Char

structure TableCreate where
  name : List Char
  path : List Char
  engineType : StorageEngineType
  shardingConfig : TableSharding

/-- How records are written to shard 0. -/
structure RecordCodecs where
  tenant : TenantRecord → Bytes
  database : DatabaseRecord → Bytes
  index : IndexRecord → Bytes

/-- The keys of records in shard 0. -/
def tenantKey (tenantId : TenantId) : Bytes := 0xFC :: beBytes 4 tenantId.raw.toNat

def databaseKey (tenantId : TenantId) (databaseId : DatabaseId) : Bytes :=
  0xFB :: (beBytes 4 tenantId.raw.toNat ++ beBytes 4 databaseId.raw.toNat)

def systemUserKey (userId : UInt32) : Bytes := 0xFA :: beBytes 4 userId.toNat

def indexKey (indexId : ObjectId) : Bytes := 0xEB :: beBytes 4 indexId.raw.toNat

def systemShard : ShardId := ⟨0⟩

/-- What is known of tenants and databases. -/
structure SystemMetadataCache where
  tenants : List TenantRecord
  databases : List DatabaseRecord

/-- What is known of the objects of a container. -/
structure ContainerMetadataCache where
  metadataShardId : ShardId
  tables : List TableRecord
  indexes : List IndexRecord
  namespaces : List NamespaceRecord

/-- The records of a map after one of them was set. -/
def setRecord {α κ : Type} [DecidableEq κ] (key : α → κ) (record : α) (records : List α) : List α :=
  records.filter (key · ≠ key record) ++ [record]

/-- The number behind the largest one, as a 32-bit number, or 0. -/
def nextNumber (numbers : List UInt32) : UInt32 :=
  match (numbers.map UInt32.toNat).max? with
  | some largest => UInt32.ofNat (largest + 1)
  | none => 0

namespace ContainerMetadataCache

/-- A cache without objects; the metadata of every container is kept in shard 0. -/
def new : ContainerMetadataCache := ⟨systemShard, [], [], []⟩

def getTableRecord (cache : ContainerMetadataCache) (tableId : ObjectId) : Option TableRecord :=
  cache.tables.find? (·.tableId = tableId)

end ContainerMetadataCache

structure KeyValueDatabaseContext where
  shardManager : KeyValueShardManager
  systemMetacache : SystemMetadataCache
  containerMetacaches : ContainerId → Option ContainerMetadataCache
  raftRouter : Option ConsensusManager

/-- Keys are not empty and do not start with a null byte. -/
def validateUserKey (key : Bytes) : Except ContextError Unit :=
  if key = [] then .error .emptyKey
  else if key.head? = some 0 then .error .reservedKey
  else .ok ()

/-- The engine of the system shard. -/
def artEngine : StorageEngineType := ⟨['A', 'R', 'T']⟩

namespace KeyValueDatabaseContext

/-- The answer of a call and the context behind it. -/
abbrev Answer (α : Type) := Except ContextError α × KeyValueDatabaseContext

def newStandalone : KeyValueDatabaseContext where
  shardManager := KeyValueShardManager.newStandalone
  systemMetacache := ⟨[], []⟩
  containerMetacaches _ := none
  raftRouter := none

/-- A context without shards and objects that goes through a consensus manager. -/
def newDistributed (router : ConsensusManager) : KeyValueDatabaseContext :=
  { newStandalone with raftRouter := some router }

/-- Take over a changed shard manager, or report why it was not changed. -/
def withShards (context : KeyValueDatabaseContext) {α : Type} (value : α)
    (changed : Except ContextError KeyValueShardManager) : Answer α :=
  match changed with
  | .ok shardManager => (.ok value, { context with shardManager })
  | .error error => (.error error, context)

/-- Register the engine of the system shard and create the shard. -/
def bootstrapStandalone (context : KeyValueDatabaseContext) : Answer Unit :=
  context.withShards () do
    let shardManager ← context.shardManager.registerEngine artEngine .replacing
    shardManager.createShard ⟨0⟩ ⟨0⟩ ⟨0⟩ artEngine

variable (codecs : RecordCodecs)

def createTenant (context : KeyValueDatabaseContext) (principal : SecurityPrincipal)
    (name : List Char) : Answer TenantRecord :=
  if principal.hasSystemPermission .tenantCreate then
    let cache := context.systemMetacache
    let tenant : TenantRecord := ⟨⟨nextNumber (cache.tenants.map (·.id.raw))⟩, name, 1⟩
    let context := { context with
      systemMetacache := { cache with tenants := setRecord (·.id) tenant cache.tenants } }
    context.withShards tenant
      (context.shardManager.put systemShard (tenantKey tenant.id) (codecs.tenant tenant))
  else (.error (.permissionDenied .tenantCreate), context)

def createDatabase (context : KeyValueDatabaseContext) (principal : SecurityPrincipal)
    (tenantId : TenantId) (name : List Char) : Answer DatabaseRecord :=
  if principal.hasTenantPermission .databaseCreate tenantId then
    let cache := context.systemMetacache
    let databaseId : DatabaseId := ⟨nextNumber
      ((cache.databases.filter (·.tenantId = tenantId)).map (·.databaseId.raw))⟩
    let database : DatabaseRecord := ⟨databaseId, tenantId, name, 1, ⟨0⟩⟩
    let context := { context with
      systemMetacache := { cache with
        databases := setRecord (fun record => (record.tenantId, record.databaseId)) database
          cache.databases } }
    context.withShards database
      (context.shardManager.put systemShard (databaseKey tenantId databaseId)
        (codecs.database database))
  else (.error (.permissionDenied .databaseCreate), context)

section

variable (context : KeyValueDatabaseContext) (principal : SecurityPrincipal)
  (containerId : ContainerId)

def nextTableId : ObjectId :=
  match context.containerMetacaches containerId with
  | some cache => ⟨nextNumber (cache.tables.map (·.tableId.raw))⟩
  | none => ⟨0⟩

/-- Put a cache into the place of the one of a container. -/
def setCache (cache : ContainerMetadataCache) : KeyValueDatabaseContext :=
  { context with
    containerMetacaches :=
      Function.update context.containerMetacaches containerId (some cache) }

/-- The cache of a container, made when there is none. -/
def cacheOrNew : ContainerMetadataCache :=
  (context.containerMetacaches containerId).getD ContainerMetadataCache.new

/-- Create the shards of a table, up to one that cannot be created. -/
def createShards (tableId : ObjectId) (engineType : StorageEngineType) :
    KeyValueShardManager → List Nat → Except ContextError Unit × KeyValueShardManager
  | shardManager, [] => (.ok (), shardManager)
  | shardManager, number :: rest =>
    match shardManager.createShard containerId tableId ⟨UInt32.ofNat number⟩ engineType with
    | .ok shardManager => createShards tableId engineType shardManager rest
    | .error error => (.error error, shardManager)

/-- Create a table. In distributed mode the record is made and returned, but not kept. -/
def createTable (config : TableCreate) : Answer TableRecord :=
  if principal.hasDatabasePermission .tableCreate containerId.tenant containerId.database then
    let tableId := context.nextTableId containerId
    match context.raftRouter with
    | some _ => (.ok ⟨tableId, config.name, config.path, 0, config.engineType,
        config.shardingConfig⟩, context)
    | none =>
      match createShards containerId tableId config.engineType context.shardManager
          (List.range config.shardingConfig.createdShards) with
      | (.error error, shardManager) => (.error error, { context with shardManager })
      | (.ok (), shardManager) =>
        let record : TableRecord := ⟨tableId, config.name, config.path, 1, config.engineType,
          config.shardingConfig⟩
        let cache := context.cacheOrNew containerId
        let cache := { cache with tables := setRecord (·.tableId) record cache.tables }
        (.ok record, { context with shardManager }.setCache containerId cache)
  else (.error (.permissionDenied .tableCreate), context)

/-- Delete a table; its shards stay. -/
def deleteTable (tableId : ObjectId) : Answer Unit :=
  if principal.hasDatabasePermission .tableDelete containerId.tenant containerId.database then
    match context.containerMetacaches containerId with
    | none => (.error (.containerNotFound containerId), context)
    | some cache =>
      match cache.getTableRecord tableId with
      | none => (.error (.tableNotFound tableId), context)
      | some _ => (.ok (), context.setCache containerId
          { cache with tables := cache.tables.filter (·.tableId ≠ tableId) })
  else (.error (.permissionDenied .tableDelete), context)

/-- Create an index; the identifier is always 0. -/
def createIndex (name : List Char) : Answer IndexRecord :=
  if principal.hasDatabasePermission .tableCreate containerId.tenant containerId.database then
    match context.containerMetacaches containerId with
    | none => (.error (.containerNotFound containerId), context)
    | some cache =>
      let record : IndexRecord := ⟨⟨0⟩, name, 0⟩
      let context := context.setCache containerId
        { cache with indexes := setRecord (·.indexId) record cache.indexes }
      context.withShards record (context.shardManager.put cache.metadataShardId
        (indexKey record.indexId) (codecs.index record))
  else (.error (.permissionDenied .tableCreate), context)

def deleteIndex (indexId : ObjectId) : Answer Unit :=
  if principal.hasDatabasePermission .tableDelete containerId.tenant containerId.database then
    match context.containerMetacaches containerId with
    | none => (.error (.containerNotFound containerId), context)
    | some cache =>
      if cache.indexes.any (·.indexId = indexId) then
        let context := context.setCache containerId
          { cache with indexes := cache.indexes.filter (·.indexId ≠ indexId) }
        context.withShards () (context.shardManager.delete cache.metadataShardId (indexKey indexId))
      else (.error (.indexNotFound indexId), context)
  else (.error (.permissionDenied .tableDelete), context)

/-- Create a namespace; the identifier is always 0. -/
def createNamespace (parent : ObjectId) (name : List Char) : Answer NamespaceRecord :=
  if principal.hasNamespacePermission .namespaceCreate containerId.tenant containerId.database
      parent then
    match context.containerMetacaches containerId with
    | none => (.error (.containerNotFound containerId), context)
    | some cache =>
      let record : NamespaceRecord := ⟨⟨0⟩, name, 0, '/' :: name⟩
      (.ok record, context.setCache containerId
        { cache with namespaces := setRecord (·.id) record cache.namespaces })
  else (.error (.permissionDenied .namespaceCreate), context)

def deleteNamespace (namespaceId : ObjectId) : Answer Unit :=
  if principal.hasNamespacePermission .namespaceDelete containerId.tenant containerId.database
      namespaceId then
    match context.containerMetacaches containerId with
    | none => (.error (.containerNotFound containerId), context)
    | some cache =>
      if cache.namespaces.any (·.id = namespaceId) then
        (.ok (), context.setCache containerId
          { cache with namespaces := cache.namespaces.filter (·.id ≠ namespaceId) })
      else (.error (.namespaceNotFound namespaceId), context)
  else (.error (.permissionDenied .namespaceDelete), context)

end

section

variable (hash : Bytes → UInt64) (context : KeyValueDatabaseContext)
  (principal : SecurityPrincipal) (containerId : ContainerId) (tableId : ObjectId)

def getTableShardForKey (key : Bytes) : Except ContextError ShardId :=
  match context.containerMetacaches containerId with
  | none => .error (.containerNotFound containerId)
  | some cache =>
    match cache.getTableRecord tableId with
    | none => .error (.tableNotFound tableId)
    | some table =>
      match table.sharding.shardNumber key with
      | some shardNumber => .ok (ShardId.fromParts containerId.tenant containerId.database tableId
          shardNumber)
      | none => .error .panic

/-- The checks in front of every call on an entry, and the shard of its key. -/
def checkEntry (permission : Permission) (key : Bytes) : Except ContextError ShardId :=
  if principal.hasTablePermission permission containerId.tenant containerId.database tableId then
    do
      validateUserKey key
      context.getTableShardForKey containerId tableId key
  else .error (.permissionDenied permission)

/-- Take over a changed consensus manager, or report why it was not changed. -/
def withRouter {α : Type} (value : α) (changed : Except ConsensusError ConsensusManager) :
    Answer α :=
  match changed with
  | .ok router => (.ok value, { context with raftRouter := some router })
  | .error error => (.error (.consensus error), context)

def tableEntryPut (key value : Bytes) : Answer Unit :=
  match context.checkEntry principal containerId tableId .tableDataInsert key with
  | .error error => (.error error, context)
  | .ok shardId =>
    match context.raftRouter with
    | some router => context.withRouter () (router.put hash key value)
    | none => context.withShards () (context.shardManager.put shardId key value)

def tableEntryGet (key : Bytes) : Except ContextError (Option Bytes) :=
  match context.checkEntry principal containerId tableId .tableDataQuery key with
  | .error error => .error error
  | .ok shardId =>
    match context.raftRouter with
    | some router => (router.get hash key).mapError .consensus
    | none => context.shardManager.get shardId key

/-- Remove an entry of a table. In distributed mode the answer is always `true`. -/
def tableEntryDelete (key : Bytes) : Answer Bool :=
  match context.checkEntry principal containerId tableId .tableDataDelete key with
  | .error error => (.error error, context)
  | .ok shardId =>
    match context.raftRouter with
    | some router => context.withRouter true (router.delete hash key)
    | none =>
      let existed := match context.shardManager.get shardId key with
        | .ok (some _) => true
        | _ => false
      context.withShards existed (context.shardManager.delete shardId key)

/-- Pairs with the shards they belong to. -/
def routePairs : List Record → Except ContextError (List (ShardId × Record))
  | [] => .ok []
  | pair :: rest => do
    let shardId ← context.getTableShardForKey containerId tableId pair.1
    let routed ← routePairs rest
    return (shardId, pair) :: routed

/-- Write the pairs of each shard. -/
def batchPuts : KeyValueShardManager → List (ShardId × List Record) →
    Except ContextError KeyValueShardManager
  | shardManager, [] => .ok shardManager
  | shardManager, (shardId, pairs) :: rest => do
    let shardManager ← shardManager.batchPut shardId pairs
    batchPuts shardManager rest

def validatePairs : List Record → Except ContextError Unit
  | [] => .ok ()
  | pair :: rest => do
    validateUserKey pair.1
    validatePairs rest

/-- Write several entries of a table. In distributed mode nothing is asked about the table. What
a batch that fails has already written is not followed. -/
def tableEntryBatchPut (order : VisitOrder (ShardId × List Record))
    (operationOrder : VisitOrder (ShardId × List Operation)) (pairs : List Record) : Answer Unit :=
  if principal.hasTablePermission .tableDataInsert containerId.tenant containerId.database
      tableId then
    match validatePairs pairs with
    | .error error => (.error error, context)
    | .ok () =>
      match context.raftRouter with
      | some router => context.withRouter ()
          (router.batch hash operationOrder (pairs.map fun pair => .put pair.1 pair.2))
      | none => context.withShards () do
          let routed ← context.routePairs containerId tableId pairs
          batchPuts context.shardManager (order.visit (grouped routed))
  else (.error (.permissionDenied .tableDataInsert), context)

end

end KeyValueDatabaseContext

end Nanograph.Kvm
