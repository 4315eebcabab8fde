import Nanograph.Core.Security
import Nanograph.Core.Sharding
import Nanograph.Raft.Manager

/-!
# The shard manager

`nanograph-kvm/src/shardmgr.rs`: storage engines under their names, and which engine has which
shard. What a shard has in it when it is created is up to its engine: some put an empty shard into
the place of one that exists, some keep it. The paths that the manager resolves for a shard are
the same whenever the shard is created, and stand for its name.
-/

namespace Nanograph.Kvm

open Option Function Nanograph.Core Foundation Kvt Raft

/-- The name of a storage engine. -/
structure StorageEngineType where
  name : List Char
deriving DecidableEq

/-- The errors of a database context. The ones about an identifier name it in their message. -/
inductive ContextError where
  | permissionDenied (permission : Permission)
  /-- Says "Engine type already registered". -/
  | engineRegistered (engineType : StorageEngineType)
  /-- Says "Engine type not registered". -/
  | engineNotRegistered (engineType : StorageEngineType)
  /-- Says "Shard not found". -/
  | shardNotFound (shardId : ShardId)
  /-- Says "Container not found". -/
  | containerNotFound (containerId : ContainerId)
  /-- Says "Table not found". -/
  | tableNotFound (tableId : ObjectId)
  /-- Says "Index not found". -/
  | indexNotFound (indexId : ObjectId)
  /-- Says "Namespace not found". -/
  | namespaceNotFound (namespaceId : ObjectId)
  /-- Says "Tenant not found". -/
  | tenantNotFound (tenantId : TenantId)
  /-- Says "Database not found". -/
  | databaseNotFound (databaseId : DatabaseId)
  /-- Says that the database "does not belong to" the tenant. -/
  | foreignDatabase (databaseId : DatabaseId) (tenantId : TenantId)
  /-- A record cannot be read from its bytes. -/
  | deserialization
  /-- Says "Key cannot be empty". -/
  | emptyKey
  /-- Says "Keys cannot start with null byte (reserved for system use)". -/
  | reservedKey
  | consensus (error : ConsensusError)
  /-- What an engine reports. -/
  | storage
  | panic
deriving DecidableEq

/-- A storage engine: the shards it holds, and what it has in a shard behind the creation of it,
given what is there before. -/
structure KeyValueShardStore where
  held : ShardId → Option Shard
  create : ShardId → Option Shard → Except ContextError Shard

/-- An engine that puts an empty shard into the place of one that exists, as the ones of
`nanograph-art`, `nanograph-btree` and `nanograph-lsm` do. -/
def KeyValueShardStore.replacing : KeyValueShardStore where
  held _ := none
  create _ _ := .ok Shard.empty

/-- The registered engines, what they hold and create, and the engine of each shard. -/
structure KeyValueShardManager where
  engines : List StorageEngineType
  stored : StorageEngineType → ShardId → Option Shard
  create : StorageEngineType → ShardId → Option Shard → Except ContextError Shard
  shards : ShardId → Option StorageEngineType

namespace KeyValueShardManager

/-- A manager without engines. -/
def newStandalone : KeyValueShardManager :=
  ⟨[], fun _ _ => none, fun engineType _ _ => .error (.engineNotRegistered engineType), fun _ => none⟩

def registerEngine (manager : KeyValueShardManager) (engineType : StorageEngineType)
    (engine : KeyValueShardStore) : Except ContextError KeyValueShardManager :=
  if engineType ∈ manager.engines then .error (.engineRegistered engineType)
  else .ok { manager with
    engines := manager.engines ++ [engineType]
    stored := update manager.stored engineType engine.held
    create := update manager.create engineType engine.create }

def getEngineForShard (manager : KeyValueShardManager) (shardId : ShardId) :
    Except ContextError StorageEngineType :=
  match manager.shards shardId with
  | none => .error (.shardNotFound shardId)
  | some engineType =>
    if engineType ∈ manager.engines then .ok engineType
    else .error (.engineNotRegistered engineType)

def readShard (manager : KeyValueShardManager) (shardId : ShardId) : Except ContextError Shard := do
  let engineType ← manager.getEngineForShard shardId
  match manager.stored engineType shardId with
  | some shard => return shard
  | none => throw (.shardNotFound shardId)

/-- Put another content into the place of a shard. -/
def setShard (manager : KeyValueShardManager) (engineType : StorageEngineType)
    (shardId : ShardId) (shard : Shard) : KeyValueShardManager :=
  { manager with
    stored := update manager.stored engineType
      (update (manager.stored engineType) shardId (some shard)) }

def writeShard (manager : KeyValueShardManager) (shardId : ShardId) (change : Shard → Shard) :
    Except ContextError KeyValueShardManager := do
  let engineType ← manager.getEngineForShard shardId
  let shard ← manager.readShard shardId
  return manager.setShard engineType shardId (change shard)

def get (manager : KeyValueShardManager) (shardId : ShardId) (key : Bytes) :
    Except ContextError (Option Bytes) :=
  (·.get key) <$> manager.readShard shardId

def put (manager : KeyValueShardManager) (shardId : ShardId) (key value : Bytes) :
    Except ContextError KeyValueShardManager :=
  manager.writeShard shardId (·.put key value)

def delete (manager : KeyValueShardManager) (shardId : ShardId) (key : Bytes) :
    Except ContextError KeyValueShardManager :=
  manager.writeShard shardId (·.delete key)

/-- Write entries in their order. -/
def batchPut (manager : KeyValueShardManager) (shardId : ShardId) (pairs : List Record) :
    Except ContextError KeyValueShardManager :=
  manager.writeShard shardId (·.putAll pairs)

/-- What an engine has in a shard when it is created now. -/
def opened (manager : KeyValueShardManager) (engineType : StorageEngineType) (shardId : ShardId) :
    Except ContextError Shard :=
  manager.create engineType shardId (manager.stored engineType shardId)

def createShard (manager : KeyValueShardManager) (containerId : ContainerId)
    (objectId : ObjectId) (shardNumber : ShardNumber) (engineType : StorageEngineType) :
    Except ContextError KeyValueShardManager :=
  if engineType ∈ manager.engines then do
    let shardId := ShardId.fromParts containerId.tenant containerId.database objectId shardNumber
    let shard ← manager.opened engineType shardId
    return { manager.setShard engineType shardId shard with
      shards := update manager.shards shardId (some engineType) }
  else .error (.engineNotRegistered engineType)

variable {change : Shard → Shard}

section

variable {manager after : KeyValueShardManager} {shardId : ShardId}

/-- The content of every shard at the engine that has it. -/
def contents (manager : KeyValueShardManager) (shardId : ShardId) : Option Shard :=
  (manager.shards shardId).bind (manager.stored · shardId)

/-- Put other contents into the places of the shards. -/
def withContents (manager : KeyValueShardManager) (contents : ShardId → Option Shard) :
    KeyValueShardManager :=
  { manager with
    stored := fun engineType shardId =>
      if manager.shards shardId = some engineType then contents shardId
      else manager.stored engineType shardId }

/-- A shard with a registered engine that holds it. -/
def Available (manager : KeyValueShardManager) (shardId : ShardId) : Prop :=
  ∃ engineType shard, manager.shards shardId = some engineType ∧
    engineType ∈ manager.engines ∧ manager.stored engineType shardId = some shard

theorem withContents_contents : manager.withContents manager.contents = manager := by
  obtain ⟨engines, stored, create, shards⟩ := manager
  simp only [withContents, contents, KeyValueShardManager.mk.injEq, true_and, and_true]
  funext engineType shardId
  split
  next at_ => rw [at_, bind_some]
  next => rfl

theorem contents_withContents (contents : ShardId → Option Shard)
    (placed : ∀ shardId, manager.shards shardId = none → contents shardId = none) :
    (manager.withContents contents).contents = contents := by
  funext shardId
  rw [KeyValueShardManager.contents, withContents]
  cases found : manager.shards shardId with
  | none => exact (placed shardId found).symm
  | some engineType => simp [found]

theorem withContents_withContents (first second : ShardId → Option Shard) :
    (manager.withContents first).withContents second = manager.withContents second := by
  simp only [withContents, KeyValueShardManager.mk.injEq, true_and, and_true]
  funext engineType shardId
  split <;> rfl

/-- An available shard has its engine and its content. -/
theorem Available.parts (available : manager.Available shardId) :
    ∃ engineType shard, manager.shards shardId = some engineType ∧
      manager.getEngineForShard shardId = .ok engineType ∧
      manager.contents shardId = some shard ∧ manager.readShard shardId = .ok shard := by
  obtain ⟨engineType, shard, has, registered, held⟩ := available
  have engine : manager.getEngineForShard shardId = .ok engineType := by
    simp only [getEngineForShard, has, if_pos registered]
  refine ⟨engineType, shard, has, engine, ?_, ?_⟩
  · rw [contents, has, bind_some, held]
  · simp only [readShard, engine, bind, Except.bind, held, pure, Except.pure]

theorem available_of_readShard {shard : Shard} (read : manager.readShard shardId = .ok shard) :
    manager.Available shardId := by
  rw [readShard, getEngineForShard] at read
  cases has : manager.shards shardId with
  | none => simp [has, bind, Except.bind] at read
  | some engineType =>
    by_cases registered : engineType ∈ manager.engines
    · cases held : manager.stored engineType shardId with
      | none => simp [has, registered, held, bind, Except.bind] at read
      | some found => exact ⟨engineType, found, has, registered, held⟩
    · simp [has, registered, bind, Except.bind] at read

/-- Putting a content into the place of a shard at its engine. -/
theorem setShard_eq {engineType : StorageEngineType} (shard : Shard)
    (has : manager.shards shardId = some engineType) :
    manager.setShard engineType shardId shard =
      manager.withContents (update manager.contents shardId (some shard)) := by
  simp only [setShard, withContents, KeyValueShardManager.mk.injEq, true_and, and_true]
  funext otherType other
  by_cases sameType : otherType = engineType
  · subst sameType
    rw [update_self]
    by_cases same : other = shardId
    · subst same
      simp [has]
    · rw [update_of_ne same, update_of_ne same]
      split
      next hasOther => rw [contents, hasOther, bind_some]
      next => rfl
  · rw [update_of_ne sameType]
    split
    next hasOther =>
      have apart : other ≠ shardId := by
        rintro rfl
        exact sameType (Option.some.inj (hasOther.symm.trans has))
      rw [update_of_ne apart, contents, hasOther, bind_some]
    next => rfl

/-- A write takes place exactly at an available shard. -/
theorem writeShard_eq_ok :
    manager.writeShard shardId change = .ok after ↔
      manager.Available shardId ∧ after = manager.withContents
        (update manager.contents shardId ((manager.contents shardId).map change)) := by
  constructor
  · intro written
    have available : manager.Available shardId := by
      rw [writeShard] at written
      cases engine : manager.getEngineForShard shardId with
      | error error => simp [engine, bind, Except.bind] at written
      | ok engineType =>
        cases read : manager.readShard shardId with
        | error error => simp [engine, read, bind, Except.bind] at written
        | ok shard => exact available_of_readShard read
    obtain ⟨engineType, shard, has, engine, held, read⟩ := available.parts
    simp only [writeShard, engine, read, bind, Except.bind, pure, Except.pure,
      Except.ok.injEq] at written
    rw [held, ← written]
    exact ⟨available, setShard_eq _ has⟩
  · rintro ⟨available, rfl⟩
    obtain ⟨engineType, shard, has, engine, held, read⟩ := available.parts
    simp only [writeShard, engine, read, bind, Except.bind, pure, Except.pure]
    rw [held, setShard_eq _ has]
    rfl

/-- The contents behind a write. -/
theorem contents_write (available : manager.Available shardId) (shard : Option Shard) :
    (manager.withContents (update manager.contents shardId shard)).contents =
      update manager.contents shardId shard := by
  apply contents_withContents
  intro other missing
  obtain ⟨engineType, -, has, -⟩ := available
  have apart : other ≠ shardId := by
    rintro rfl
    cases missing.symm.trans has
  rw [update_of_ne apart, contents, missing, bind_none]

theorem available_iff :
    manager.Available shardId ↔
      (∃ engineType ∈ manager.engines, manager.shards shardId = some engineType) ∧
        manager.contents shardId ≠ none := by
  constructor
  · rintro ⟨engineType, shard, has, registered, held⟩
    exact ⟨⟨engineType, registered, has⟩, by simp [contents, has, held]⟩
  · rintro ⟨⟨engineType, registered, has⟩, there⟩
    obtain ⟨shard, found⟩ := ne_none_iff_exists'.mp there
    rw [contents, has, bind_some] at found
    exact ⟨engineType, shard, has, registered, found⟩

/-- A write leaves the same shards available. -/
theorem available_write (available : manager.Available shardId) (change : Shard → Shard)
    (other : ShardId) :
    (manager.withContents (update manager.contents shardId
        ((manager.contents shardId).map change))).Available other ↔ manager.Available other := by
  rw [available_iff, available_iff, contents_write available]
  refine and_congr Iff.rfl ?_
  by_cases same : other = shardId
  · subst same
    simp
  · rw [update_of_ne same]

variable {other : ShardId} {engineType : StorageEngineType}

/-- A read depends on the engines, on the engine of the shard and on what is held for it. -/
theorem readShard_congr (engines : after.engines = manager.engines)
    (shards : after.shards other = manager.shards other)
    (stored : ∀ engineType, after.stored engineType other = manager.stored engineType other) :
    after.readShard other = manager.readShard other := by
  simp only [readShard, getEngineForShard, engines, shards, stored]

theorem stored_setShard_of_ne (apart : other ≠ shardId) (shard : Shard)
    (otherType : StorageEngineType) :
    (manager.setShard engineType shardId shard).stored otherType other =
      manager.stored otherType other := by
  rw [setShard]
  by_cases same : otherType = engineType
  · subst same
    simp only [update_self, update_of_ne apart]
  · simp only [update_of_ne same]

theorem readShard_setShard (engine : manager.getEngineForShard shardId = .ok engineType)
    (shard : Shard) :
    (manager.setShard engineType shardId shard).readShard shardId = .ok shard := by
  have same : (manager.setShard engineType shardId shard).getEngineForShard shardId =
      .ok engineType := engine
  have held : (manager.setShard engineType shardId shard).stored engineType shardId =
      some shard := by
    simp [setShard]
  simp only [readShard, same, bind, Except.bind, held, pure, Except.pure]

/-- What is read behind a write. -/
theorem readShard_writeShard (written : manager.writeShard shardId change = .ok after)
    (other : ShardId) :
    ∃ shard, manager.readShard shardId = .ok shard ∧ after.readShard other =
        if other = shardId then .ok (change shard) else manager.readShard other := by
  obtain ⟨available, -⟩ := writeShard_eq_ok.mp written
  obtain ⟨engineType, shard, -, engine, -, read⟩ := available.parts
  simp only [writeShard, engine, read, bind, Except.bind, pure, Except.pure,
    Except.ok.injEq] at written
  subst written
  refine ⟨shard, read, ?_⟩
  split
  next same => rw [same, readShard_setShard engine]
  next apart => exact readShard_congr rfl rfl (stored_setShard_of_ne apart _)

/-- A shard that can be read can be written. -/
theorem writeShard_of_read {shard : Shard} (read : manager.readShard shardId = .ok shard)
    (change : Shard → Shard) :
    ∃ after, manager.writeShard shardId change = .ok after ∧
      after.readShard shardId = .ok (change shard) := by
  have written : manager.writeShard shardId change = .ok _ :=
    writeShard_eq_ok.mpr ⟨available_of_readShard read, rfl⟩
  obtain ⟨found, isFound, behind⟩ := readShard_writeShard written shardId
  obtain rfl := Except.ok.inj (read.symm.trans isFound)
  exact ⟨_, written, behind.trans (if_pos rfl)⟩

/-- A write changes what is read of a key exactly when it goes to the shard and to the key and
leaves something else there. -/
theorem get_kept_iff (other : ShardId) (wanted : Bytes) {key : Bytes}
    {left : Option Bytes} (written : manager.writeShard shardId change = .ok after)
    (effect : ∀ shard : Shard,
      (change shard).get wanted = if key = wanted then left else shard.get wanted) :
    after.get other wanted = manager.get other wanted ↔
      other ≠ shardId ∨ key ≠ wanted ∨ manager.get other wanted = .ok left := by
  obtain ⟨shard, read, behind⟩ := readShard_writeShard written other
  rw [get, get, behind]
  by_cases same : other = shardId
  · subst same
    by_cases hit : key = wanted
    · simp [read, effect, hit, Functor.map, Except.map, eq_comm]
    · simp [read, effect, hit, Functor.map, Except.map]
  · simp [same]

section

variable {containerId : ContainerId} {objectId : ObjectId} {shardNumber : ShardNumber}

/-- A shard is created with what its engine opens. -/
theorem createShard_eq_ok_iff :
    let shardId := ShardId.fromParts containerId.tenant containerId.database objectId shardNumber
    manager.createShard containerId objectId shardNumber engineType = .ok after ↔
      engineType ∈ manager.engines ∧ ∃ shard, manager.opened engineType shardId = .ok shard ∧
        after = { manager.setShard engineType shardId shard with
          shards := update manager.shards shardId (some engineType) } := by
  intro shardId
  rw [createShard]
  split
  next registered =>
    cases opens : manager.opened engineType shardId with
    | error error => simp [shardId, opens, bind, Except.bind]
    | ok shard => simp [shardId, opens, registered, bind, Except.bind, pure, Except.pure, eq_comm]
  next missing => simp [missing]

variable (created : manager.createShard containerId objectId shardNumber engineType = .ok after)

include created

theorem readShard_created :
    let shardId := ShardId.fromParts containerId.tenant containerId.database objectId shardNumber
    after.readShard shardId = manager.opened engineType shardId := by
  intro shardId
  obtain ⟨registered, shard, opens, rfl⟩ := createShard_eq_ok_iff.mp created
  rw [opens]
  simp [shardId, readShard, getEngineForShard, setShard, registered, bind, Except.bind, pure,
    Except.pure]

/-- The creation of a shard leaves the others as they are. -/
theorem createShard_others
    (apart : other ≠ ShardId.fromParts containerId.tenant containerId.database objectId shardNumber) :
    after.readShard other = manager.readShard other ∧
      after.opened engineType other = manager.opened engineType other := by
  obtain ⟨registered, shard, opens, rfl⟩ := createShard_eq_ok_iff.mp created
  have kept : ∀ otherType, (manager.setShard engineType (ShardId.fromParts containerId.tenant
      containerId.database objectId shardNumber) shard).stored otherType other =
        manager.stored otherType other :=
    stored_setShard_of_ne apart shard
  refine ⟨readShard_congr rfl (update_of_ne apart _ _) kept, ?_⟩
  exact congrArg (manager.create engineType other) (kept engineType)

end

end

end KeyValueShardManager

end Nanograph.Kvm
