import Nanograph.Foundation.Machine
import Nanograph.Kvm.Interference

/-!
# Records of tenants and databases

The records of `nanograph-kvm/src/context.rs` are kept in a cache and in shard 0. A new tenant
or database gets the number behind the largest one in the cache, and the cache of a context
that was just started is empty: it is filled by reads of single records only. The module says
when a new record takes the place of one that is alive.
-/

namespace Nanograph.Kvm

open List Function Nanograph.Core Foundation Kvt

/-- How records are written to shard 0 and read back. -/
structure RecordFormat extends RecordCodecs where
  readTenant : Bytes → Option TenantRecord
  readDatabase : Bytes → Option DatabaseRecord
  readTenant_tenant : ∀ record, readTenant (tenant record) = some record
  readDatabase_database : ∀ record, readDatabase (database record) = some record

namespace KeyValueDatabaseContext

/-- A new context over the shards that are stored. -/
def restart (context : KeyValueDatabaseContext) : KeyValueDatabaseContext :=
  { newStandalone with shardManager := context.shardManager }

/-- Put the record of a tenant into the cache. -/
def cacheTenant (context : KeyValueDatabaseContext) (record : TenantRecord) :
    KeyValueDatabaseContext :=
  { context with
    systemMetacache := { context.systemMetacache with
      tenants := setRecord (·.id) record context.systemMetacache.tenants } }

/-- Put the record of a database into the cache. -/
def cacheDatabase (context : KeyValueDatabaseContext) (record : DatabaseRecord) :
    KeyValueDatabaseContext :=
  { context with
    systemMetacache := { context.systemMetacache with
      databases := setRecord (fun record => (record.tenantId, record.databaseId)) record
        context.systemMetacache.databases } }

section

variable (context : KeyValueDatabaseContext) {α : Type} (allowed : Bool) (permission : Permission)
  (key : Bytes)

/-- Get a record from the cache, or read it from the shard of the system into the cache. -/
def getRecord (cached : Option α) (read : Bytes → Option α)
    (cache : α → KeyValueDatabaseContext) : Answer (Option α) :=
  if allowed then
    match cached with
    | some record => (.ok (some record), context)
    | none =>
      match context.shardManager.get systemShard key with
      | .error error => (.error error, context)
      | .ok none => (.ok none, context)
      | .ok (some bytes) =>
        match read bytes with
        | some record => (.ok (some record), cache record)
        | none => (.error .deserialization, context)
  else (.error (.permissionDenied permission), context)

/-- Change a record of the cache, and write it to the shard of the system. -/
def updateRecord (found : Except ContextError α) (change : α → α) (bytes : α → Bytes)
    (cache : α → KeyValueDatabaseContext) : Answer α :=
  if allowed then
    match found with
    | .ok record =>
      let context := cache (change record)
      context.withShards (change record)
        (context.shardManager.put systemShard key (bytes (change record)))
    | .error error => (.error error, context)
  else (.error (.permissionDenied permission), context)

/-- Remove a record from the cache and from the shard of the system. -/
def deleteRecord (cleared : KeyValueDatabaseContext) : Answer Unit :=
  if allowed then cleared.withShards () (cleared.shardManager.delete systemShard key)
  else (.error (.permissionDenied permission), context)

end

section

variable (format : RecordFormat) (context : KeyValueDatabaseContext)
  (principal : SecurityPrincipal) (tenantId : TenantId) (databaseId : DatabaseId)

def cachedTenant : Option TenantRecord :=
  context.systemMetacache.tenants.find? (·.id = tenantId)

def cachedDatabase : Option DatabaseRecord :=
  context.systemMetacache.databases.find? fun record =>
    (record.tenantId, record.databaseId) = (tenantId, databaseId)

def getTenant : Answer (Option TenantRecord) :=
  context.getRecord (principal.hasSystemPermission .tenantView) .tenantView (tenantKey tenantId)
    (context.cachedTenant tenantId) format.readTenant context.cacheTenant

def getDatabase : Answer (Option DatabaseRecord) :=
  context.getRecord (principal.hasDatabasePermission .databaseView tenantId databaseId)
    .databaseView (databaseKey tenantId databaseId)
    ((context.cachedDatabase tenantId databaseId).filter (·.tenantId = tenantId))
    format.readDatabase context.cacheDatabase

def updateTenant (name : Option (List Char)) : Answer TenantRecord :=
  context.updateRecord (principal.hasSystemPermission .tenantAlter) .tenantAlter
    (tenantKey tenantId)
    (match context.cachedTenant tenantId with
      | some record => .ok record
      | none => .error (.tenantNotFound tenantId))
    (fun record =>
      { record with name := name.getD record.name, version := record.version + 1 })
    format.tenant context.cacheTenant

def updateDatabase (name : Option (List Char)) : Answer DatabaseRecord :=
  context.updateRecord (principal.hasDatabasePermission .databaseAlter tenantId databaseId)
    .databaseAlter (databaseKey tenantId databaseId)
    (match context.cachedDatabase tenantId databaseId with
      | some record =>
        if record.tenantId = tenantId then .ok record
        else .error (.foreignDatabase databaseId tenantId)
      | none => .error (.databaseNotFound databaseId))
    (fun record =>
      { record with
        databaseName := name.getD record.databaseName, version := record.version + 1 })
    format.database context.cacheDatabase

/-- Delete a tenant; its databases stay. -/
def deleteTenant : Answer Unit :=
  let cache := context.systemMetacache
  context.deleteRecord (principal.hasSystemPermission .tenantDelete) .tenantDelete
    (tenantKey tenantId)
    { context with
      systemMetacache := { cache with tenants := cache.tenants.filter (·.id ≠ tenantId) } }

def deleteDatabase : Answer Unit :=
  let cache := context.systemMetacache
  context.deleteRecord (principal.hasTenantPermission .databaseDelete tenantId) .databaseDelete
    (databaseKey tenantId databaseId)
    { context with
      systemMetacache := { cache with
        databases := cache.databases.filter fun record =>
          (record.tenantId, record.databaseId) ≠ (tenantId, databaseId) } }

end

def nextTenantId (context : KeyValueDatabaseContext) : TenantId :=
  ⟨nextNumber (context.systemMetacache.tenants.map (·.id.raw))⟩

def nextDatabaseId (context : KeyValueDatabaseContext) (tenantId : TenantId) : DatabaseId :=
  ⟨nextNumber ((context.systemMetacache.databases.filter (·.tenantId = tenantId)).map
    (·.databaseId.raw))⟩

end KeyValueDatabaseContext

open KeyValueDatabaseContext

/-- The calls on tenants and databases, and a restart of the context. -/
inductive SystemCall where
  | createTenant (name : List Char)
  | updateTenant (tenantId : TenantId) (name : Option (List Char))
  | deleteTenant (tenantId : TenantId)
  | getTenant (tenantId : TenantId)
  | createDatabase (tenantId : TenantId) (name : List Char)
  | updateDatabase (tenantId : TenantId) (databaseId : DatabaseId) (name : Option (List Char))
  | deleteDatabase (tenantId : TenantId) (databaseId : DatabaseId)
  | getDatabase (tenantId : TenantId) (databaseId : DatabaseId)
  | restart

/-- What a successful call did to the records. -/
inductive SystemChange where
  | created (name : SystemRecordName)
  | deleted (name : SystemRecordName)
  | kept
deriving DecidableEq

def callSystem (format : RecordFormat) (context : KeyValueDatabaseContext)
    (principal : SecurityPrincipal) : SystemCall → Answer SystemChange
  | .createTenant name =>
    (context.createTenant format.toRecordCodecs principal name).map
      (·.map fun record => .created (.tenant record.id)) id
  | .updateTenant tenantId name =>
    (context.updateTenant format principal tenantId name).map (·.map fun _ => .kept) id
  | .deleteTenant tenantId =>
    (context.deleteTenant principal tenantId).map
      (·.map fun _ => .deleted (.tenant tenantId)) id
  | .getTenant tenantId =>
    (context.getTenant format principal tenantId).map (·.map fun _ => .kept) id
  | .createDatabase tenantId name =>
    (context.createDatabase format.toRecordCodecs principal tenantId name).map
      (·.map fun record => .created (.database record.tenantId record.databaseId)) id
  | .updateDatabase tenantId databaseId name =>
    (context.updateDatabase format principal tenantId databaseId name).map
      (·.map fun _ => .kept) id
  | .deleteDatabase tenantId databaseId =>
    (context.deleteDatabase principal tenantId databaseId).map
      (·.map fun _ => .deleted (.database tenantId databaseId)) id
  | .getDatabase tenantId databaseId =>
    (context.getDatabase format principal tenantId databaseId).map (·.map fun _ => .kept) id
  | .restart => (.ok .kept, context.restart)

/-- A context, and the tenants and databases that were created and not deleted. -/
structure SystemRun where
  context : KeyValueDatabaseContext
  live : List SystemRecordName

namespace SystemRun

def changeLive (live : List SystemRecordName) :
    Except ContextError SystemChange → List SystemRecordName
  | .ok (.created name) => live ++ [name]
  | .ok (.deleted name) => live.filter (· ≠ name)
  | .ok .kept | .error _ => live

/-- Calls on tenants and databases, each made by some principal. -/
def step (format : RecordFormat) :
    Machine SystemRun (SecurityPrincipal × SystemCall) (Except ContextError SystemChange) :=
  fun run input =>
    let done := callSystem format run.context input.1 input.2
    (done.1, ⟨done.2, changeLive run.live done.1⟩)

/-- A bootstrapped context without tenants. -/
def start : SystemRun := ⟨newStandalone.bootstrapStandalone.2, []⟩

/-- A call that creates a tenant or a database does not write to the key of one that is
alive. -/
def Spares (format : RecordFormat) (run : SystemRun) (input : SecurityPrincipal × SystemCall) :
    Prop :=
  ∀ name, (step format run input).1 = .ok (.created name) → ∀ other ∈ run.live, other.key ≠ name.key

/-- Nothing is stored under the number behind the largest one in the cache when a call takes
it. -/
def Unused (run : SystemRun) (input : SecurityPrincipal × SystemCall) : Prop :=
  match input.2 with
  | .createTenant _ => input.1.hasSystemPermission .tenantCreate →
      run.context.readSystemRecord (.tenant run.context.nextTenantId) = .ok none
  | .createDatabase tenantId _ => input.1.hasTenantPermission .databaseCreate tenantId →
      run.context.readSystemRecord (.database tenantId (run.context.nextDatabaseId tenantId)) =
        .ok none
  | _ => True

end SystemRun

/-- The record of a tenant or a database. -/
inductive SystemRecord where
  | tenant (record : TenantRecord)
  | database (record : DatabaseRecord)

namespace SystemRecord

def name : SystemRecord → SystemRecordName
  | .tenant record => .tenant record.id
  | .database record => .database record.tenantId record.databaseId

/-- A record as it is written. -/
def bytes (format : RecordFormat) : SystemRecord → Bytes
  | .tenant record => format.tenant record
  | .database record => format.database record

end SystemRecord

theorem beBytes_injective {first second : UInt32}
    (same : beBytes 4 first.toNat = beBytes 4 second.toNat) : first = second := by
  have value := congrArg ofBeBytes same
  rwa [ofBeBytes_toNat32, ofBeBytes_toNat32, UInt32.toNat_inj] at value

/-- Different records have different keys. -/
theorem SystemRecordName.key_injective : Injective SystemRecordName.key := by
  intro first second same
  cases first <;> cases second
  case tenant.tenant first second =>
    exact congrArg (fun raw => SystemRecordName.tenant ⟨raw⟩)
      (beBytes_injective (cons_injective same))
  case database.database firstTenant first secondTenant second =>
    obtain ⟨tenants, databases⟩ := append_inj (cons_injective same) (by simp)
    exact congrArg₂ (fun tenant database => SystemRecordName.database ⟨tenant⟩ ⟨database⟩)
      (beBytes_injective tenants) (beBytes_injective databases)
  case systemUser.systemUser first second => rw [beBytes_injective (cons_injective same)]
  all_goals cases same

def KeyValueDatabaseContext.cachedNames (context : KeyValueDatabaseContext) :
    List SystemRecordName :=
  context.systemMetacache.tenants.map (.tenant ·.id) ++
    context.systemMetacache.databases.map fun record =>
      .database record.tenantId record.databaseId

namespace SystemRun

/-- The shard of the system holds the records that are alive and no others, and so does the
cache, though not all of them. -/
structure Consistent (format : RecordFormat) (run : SystemRun) (shard : Shard) : Prop where
  read : run.context.shardManager.readShard systemShard = .ok shard
  stored : ∀ name, shard.get name.key ≠ none ↔ name ∈ run.live
  formed : ∀ name bytes, shard.get name.key = some bytes →
    ∃ record : SystemRecord, record.name = name ∧ record.bytes format = bytes
  cached : ∀ name ∈ run.context.cachedNames, name ∈ run.live

variable {format : RecordFormat} {run : SystemRun} {shard : Shard}

namespace Consistent

variable (consistent : Consistent format run shard) {context : KeyValueDatabaseContext}
  {live : List SystemRecordName}

include consistent

theorem readSystemRecord (name : SystemRecordName) :
    run.context.readSystemRecord name = .ok (shard.get name.key) := by
  rw [KeyValueDatabaseContext.readSystemRecord, KeyValueShardManager.get, consistent.read]
  rfl

/-- A record is written. -/
theorem write (record : SystemRecord)
    (read : context.shardManager.readShard systemShard =
      .ok (shard.put record.name.key (record.bytes format)))
    (cached : ∀ name ∈ context.cachedNames, name = record.name ∨ name ∈ run.context.cachedNames)
    (lives : ∀ name, name ∈ live ↔ name = record.name ∨ name ∈ run.live) :
    Consistent format ⟨context, live⟩ (shard.put record.name.key (record.bytes format)) where
  read := read
  stored name := by
    rw [lives, Shard.get_put, ← consistent.stored]
    by_cases hit : record.name = name
    · simp [hit]
    · rw [if_neg fun same => hit (SystemRecordName.key_injective same)]
      simp [Ne.symm hit]
  formed name bytes found := by
    rw [Shard.get_put] at found
    split at found
    next same =>
      exact ⟨record, SystemRecordName.key_injective same, Option.some.inj found⟩
    next => exact consistent.formed name bytes found
  cached name mem := (lives name).mpr ((cached name mem).imp_right (consistent.cached name))

theorem remove (removed : SystemRecordName)
    (read : context.shardManager.readShard systemShard = .ok (shard.delete removed.key))
    (cached : ∀ name ∈ context.cachedNames, name ∈ run.context.cachedNames ∧ name ≠ removed)
    (lives : ∀ name, name ∈ live ↔ name ∈ run.live ∧ name ≠ removed) :
    Consistent format ⟨context, live⟩ (shard.delete removed.key) where
  read := read
  stored name := by
    rw [lives, Shard.get_delete, ← consistent.stored]
    by_cases hit : removed = name
    · simp [hit]
    · rw [if_neg fun same => hit (SystemRecordName.key_injective same)]
      simp [Ne.symm hit]
  formed name bytes found := by
    rw [Shard.get_delete] at found
    split at found
    next => cases found
    next => exact consistent.formed name bytes found
  cached name mem := (lives name).mpr
    ⟨consistent.cached name (cached name mem).1, (cached name mem).2⟩

theorem read_of_same (same : context.shardManager = run.context.shardManager) :
    context.shardManager.readShard systemShard = .ok shard :=
  same ▸ consistent.read

/-- Other records are in the cache. -/
theorem recache (same : context.shardManager = run.context.shardManager)
    (cached : ∀ name ∈ context.cachedNames, name ∈ run.live) :
    Consistent format ⟨context, run.live⟩ shard where
  read := consistent.read_of_same same
  stored := consistent.stored
  formed := consistent.formed
  cached := cached

section

variable {α : Type} (context) (value : α) (toChange : α → SystemChange)
  (same : context.shardManager = run.context.shardManager)

include same

/-- A call writes a record to the shard of the system. -/
theorem put (record : SystemRecord)
    (cached : ∀ name ∈ context.cachedNames, name = record.name ∨ name ∈ run.context.cachedNames)
    (lives : ∀ name, name ∈ changeLive run.live (.ok (toChange value)) ↔
      name = record.name ∨ name ∈ run.live) :
    let done : Answer SystemChange := (context.withShards value (context.shardManager.put
      systemShard record.name.key (record.bytes format))).map (·.map toChange) id
    done.1 = .ok (toChange value) ∧
      ∃ next, Consistent format ⟨done.2, changeLive run.live done.1⟩ next := by
  obtain ⟨after, written, behind⟩ := KeyValueShardManager.writeShard_of_read
    (consistent.read_of_same same) (·.put record.name.key (record.bytes format))
  rw [KeyValueShardManager.put, written]
  exact ⟨rfl, _, consistent.write record behind cached lives⟩

/-- A call removes a record from the shard of the system. -/
theorem delete (removed : SystemRecordName)
    (cached : ∀ name ∈ context.cachedNames, name ∈ run.context.cachedNames ∧ name ≠ removed)
    (lives : ∀ name, name ∈ changeLive run.live (.ok (toChange value)) ↔
      name ∈ run.live ∧ name ≠ removed) :
    let done : Answer SystemChange := (context.withShards value (context.shardManager.delete
      systemShard removed.key)).map (·.map toChange) id
    ∃ next, Consistent format ⟨done.2, changeLive run.live done.1⟩ next := by
  obtain ⟨after, written, behind⟩ := KeyValueShardManager.writeShard_of_read
    (consistent.read_of_same same) (·.delete removed.key)
  rw [KeyValueShardManager.delete, written]
  exact ⟨_, consistent.remove removed behind cached lives⟩

end

end Consistent

section

variable {context : KeyValueDatabaseContext} {name : SystemRecordName}

theorem mem_cachedNames :
    name ∈ context.cachedNames ↔
      (∃ record ∈ context.systemMetacache.tenants, .tenant record.id = name) ∨
        ∃ record ∈ context.systemMetacache.databases,
          .database record.tenantId record.databaseId = name := by
  simp [cachedNames]

theorem mem_setRecord {α κ : Type} [DecidableEq κ] {toKey : α → κ} {record other : α}
    {records : List α} (mem : other ∈ setRecord toKey record records) :
    other = record ∨ other ∈ records := by
  rcases mem_append.mp mem with old | new
  · exact .inr (mem_of_mem_filter old)
  · exact .inl (mem_singleton.mp new)

/-- A context that differs in the cache by one record. -/
def Caches (context : KeyValueDatabaseContext) (record : SystemRecord)
    (changed : KeyValueDatabaseContext) : Prop :=
  changed.shardManager = context.shardManager ∧
    ∀ name ∈ changed.cachedNames, name = record.name ∨ name ∈ context.cachedNames

theorem caches_cacheTenant (record : TenantRecord) :
    Caches context (.tenant record) (context.cacheTenant record) := by
  refine ⟨rfl, fun name mem => ?_⟩
  rw [mem_cachedNames] at mem ⊢
  rcases mem with ⟨other, isCached, rfl⟩ | ofDatabase
  · rcases mem_setRecord isCached with rfl | old
    · exact .inl rfl
    · exact .inr (.inl ⟨other, old, rfl⟩)
  · exact .inr (.inr ofDatabase)

theorem caches_cacheDatabase (record : DatabaseRecord) :
    Caches context (.database record) (context.cacheDatabase record) := by
  refine ⟨rfl, fun name mem => ?_⟩
  rw [mem_cachedNames] at mem ⊢
  rcases mem with ofTenant | ⟨other, isCached, rfl⟩
  · exact .inr (.inl ofTenant)
  · rcases mem_setRecord isCached with rfl | old
    · exact .inl rfl
    · exact .inr (.inr ⟨other, old, rfl⟩)

end

namespace Consistent

variable (consistent : Consistent format run shard)

include consistent

section

variable (name : SystemRecordName) {α : Type} {wrap : α → SystemRecord} {allowed : Bool}
  {permission : Permission} {cache : α → KeyValueDatabaseContext}
  (caches : ∀ record, Caches run.context (wrap record) (cache record))

include caches

theorem createRecord (record : α) (toName : α → SystemRecordName)
    (named : toName record = (wrap record).name) :
    let done : Answer SystemChange :=
      (if allowed then (cache record).withShards record ((cache record).shardManager.put systemShard
          (wrap record).name.key ((wrap record).bytes format))
        else (.error (.permissionDenied permission), run.context)).map
        (·.map fun record => .created (toName record)) id
    (∃ next, Consistent format ⟨done.2, changeLive run.live done.1⟩ next) ∧
      ∀ created, done.1 = .ok (.created created) ↔ allowed = true ∧ created = toName record := by
  cases allowed with
  | true =>
    obtain ⟨answered, kept⟩ := consistent.put (cache record) record
      (fun record => .created (toName record)) (caches record).1 (wrap record) (caches record).2
      (fun other => by simp [changeLive, named, or_comm])
    refine ⟨kept, fun created => ?_⟩
    simp only [if_true]
    rw [answered]
    simp [eq_comm]
  | false => exact ⟨⟨shard, consistent⟩, fun created => by simp [Except.map]⟩

/-- A record that is read is alive. -/
theorem getRecord {cached : Option α} {read : Bytes → Option α}
    (reads : ∀ record, read ((wrap record).bytes format) = some record)
    (wraps : ∀ record : SystemRecord, record.name = name → ∃ inner, wrap inner = record) :
    ∃ next, Consistent format
      ⟨(run.context.getRecord allowed permission name.key cached read cache).2, run.live⟩
        next := by
  simp only [KeyValueDatabaseContext.getRecord]
  split
  next =>
    cases cached with
    | some record => exact ⟨shard, consistent⟩
    | none =>
      cases found : run.context.shardManager.get systemShard name.key with
      | error error => exact ⟨shard, consistent⟩
      | ok held =>
        cases held with
        | none => exact ⟨shard, consistent⟩
        | some bytes =>
          have isStored := Except.ok.inj
            ((consistent.readSystemRecord name).symm.trans found)
          have lives := (consistent.stored name).mp (by simp [isStored])
          obtain ⟨record, named, rfl⟩ := consistent.formed name bytes isStored
          obtain ⟨inner, rfl⟩ := wraps record named
          simp only [reads]
          exact ⟨shard, consistent.recache (caches inner).1 fun other mem =>
            ((caches inner).2 other mem).elim
              (fun isName => isName ▸ named ▸ lives) (consistent.cached other)⟩
  next => exact ⟨shard, consistent⟩

/-- A record that is updated was in the cache. -/
theorem updateRecord {found : Except ContextError α} {change : α → α}
    (finds : ∀ record, found = .ok record →
      (wrap record).name = name ∧ name ∈ run.context.cachedNames)
    (changes : ∀ record, (wrap (change record)).name = (wrap record).name) :
    let done : Answer SystemChange := (run.context.updateRecord allowed permission name.key found
      change (fun record => (wrap record).bytes format) cache).map (·.map fun _ => .kept) id
    ∃ next, Consistent format ⟨done.2, changeLive run.live done.1⟩ next := by
  simp only [KeyValueDatabaseContext.updateRecord]
  split
  next =>
    cases isFound : found with
    | error error => exact ⟨shard, consistent⟩
    | ok record =>
      obtain ⟨named, isCached⟩ := finds record isFound
      have lives := consistent.cached name isCached
      rw [← named, ← changes record]
      refine (consistent.put (cache (change record)) (change record) (fun _ => .kept)
        (caches _).1 (wrap (change record)) (caches _).2 (fun other => ?_)).2
      rw [changes record, named]
      exact ⟨.inr, fun either => either.elim (fun isName => isName ▸ lives) id⟩
  next => exact ⟨shard, consistent⟩

end

variable (principal : SecurityPrincipal)

/-- A tenant is created under the next identifier. -/
theorem createTenant (name : List Char) :
    let done := callSystem format run.context principal (.createTenant name)
    (∃ next, Consistent format ⟨done.2, changeLive run.live done.1⟩ next) ∧
      ∀ created, done.1 = .ok (.created created) ↔ principal.hasSystemPermission .tenantCreate ∧
          created = .tenant run.context.nextTenantId :=
  consistent.createRecord caches_cacheTenant ⟨run.context.nextTenantId, name, 1⟩
    (.tenant ·.id) rfl

/-- A database is created under the next identifier of its tenant. -/
theorem createDatabase (tenantId : TenantId) (name : List Char) :
    let done := callSystem format run.context principal (.createDatabase tenantId name)
    (∃ next, Consistent format ⟨done.2, changeLive run.live done.1⟩ next) ∧
      ∀ created, done.1 = .ok (.created created) ↔
        principal.hasTenantPermission .databaseCreate tenantId ∧
          created = .database tenantId (run.context.nextDatabaseId tenantId) :=
  consistent.createRecord caches_cacheDatabase
    ⟨run.context.nextDatabaseId tenantId, tenantId, name, 1, ⟨0⟩⟩
    (fun record => .database record.tenantId record.databaseId) rfl

theorem deleteRecord (name : SystemRecordName) {allowed : Bool} {permission : Permission}
    {cleared : KeyValueDatabaseContext} (same : cleared.shardManager = run.context.shardManager)
    (clears : ∀ other ∈ cleared.cachedNames, other ∈ run.context.cachedNames ∧ other ≠ name) :
    let done : Answer SystemChange := (run.context.deleteRecord allowed permission name.key
      cleared).map (·.map fun _ => .deleted name) id
    ∃ next, Consistent format ⟨done.2, changeLive run.live done.1⟩ next := by
  rw [KeyValueDatabaseContext.deleteRecord]
  split
  next =>
    exact consistent.delete cleared () (fun _ => .deleted name) same name clears
      (fun other => by simp [changeLive])
  next => exact ⟨shard, consistent⟩

variable (input : SecurityPrincipal × SystemCall)

/-- Every call keeps the records consistent. -/
theorem step : ∃ next, Consistent format (SystemRun.step format run input).2 next := by
  obtain ⟨principal, call⟩ := input
  have unchanged {α : Type} (answer : Answer α)
      (kept : ∃ next, Consistent format ⟨answer.2, run.live⟩ next) :
      ∃ next, Consistent format ⟨answer.2, changeLive run.live (answer.1.map fun _ => .kept)⟩
        next := by
    obtain ⟨result, context⟩ := answer
    cases result <;> exact kept
  cases call with
  | createTenant name => exact (consistent.createTenant principal name).1
  | createDatabase tenantId name => exact (consistent.createDatabase principal tenantId name).1
  | getTenant tenantId =>
    refine unchanged (run.context.getTenant format principal tenantId)
      (consistent.getRecord (.tenant tenantId) caches_cacheTenant format.readTenant_tenant
        fun record named => ?_)
    cases record with
    | tenant record => exact ⟨record, rfl⟩
    | database record => cases named
  | getDatabase tenantId databaseId =>
    refine unchanged (run.context.getDatabase format principal tenantId databaseId)
      (consistent.getRecord (.database tenantId databaseId) caches_cacheDatabase
        format.readDatabase_database fun record named => ?_)
    cases record with
    | tenant record => cases named
    | database record => exact ⟨record, rfl⟩
  | updateTenant tenantId name =>
    refine consistent.updateRecord (.tenant tenantId) caches_cacheTenant
      (fun record found => ?_) fun _ => rfl
    split at found
    next isCached =>
      cases found
      have same : record.id = tenantId := by simpa using find?_some isCached
      exact ⟨congrArg _ same, mem_cachedNames.mpr
        (.inl ⟨record, mem_of_find?_eq_some isCached, congrArg _ same⟩)⟩
    next => cases found
  | updateDatabase tenantId databaseId name =>
    refine consistent.updateRecord (.database tenantId databaseId) caches_cacheDatabase
      (fun record found => ?_) fun _ => rfl
    split at found
    next isCached =>
      split at found
      next =>
        cases found
        have same : record.tenantId = tenantId ∧ record.databaseId = databaseId := by
          simpa using find?_some isCached
        exact ⟨congrArg₂ _ same.1 same.2, mem_cachedNames.mpr
          (.inr ⟨record, mem_of_find?_eq_some isCached, congrArg₂ _ same.1 same.2⟩)⟩
      next => cases found
    next => cases found
  | deleteTenant tenantId =>
    refine consistent.deleteRecord (.tenant tenantId) rfl fun other mem => ?_
    rw [mem_cachedNames] at mem ⊢
    rcases mem with ⟨record, isCached, rfl⟩ | ⟨record, isCached, rfl⟩
    · obtain ⟨inCache, differs⟩ := mem_filter.mp isCached
      exact ⟨.inl ⟨record, inCache, rfl⟩, by simpa using differs⟩
    · exact ⟨.inr ⟨record, isCached, rfl⟩, nofun⟩
  | deleteDatabase tenantId databaseId =>
    refine consistent.deleteRecord (.database tenantId databaseId) rfl fun other mem => ?_
    rw [mem_cachedNames] at mem ⊢
    rcases mem with ⟨record, isCached, rfl⟩ | ⟨record, isCached, rfl⟩
    · exact ⟨.inl ⟨record, isCached, rfl⟩, nofun⟩
    · obtain ⟨inCache, differs⟩ := mem_filter.mp isCached
      refine ⟨.inr ⟨record, inCache, rfl⟩, fun same => ?_⟩
      obtain ⟨rfl, rfl⟩ := SystemRecordName.database.inj same
      simp at differs
  | restart => exact ⟨shard, consistent.recache rfl nofun⟩

/-- A call spares what is alive exactly if it finds nothing stored where it writes. -/
theorem spares_iff_unused : run.Unused input ↔ run.Spares format input := by
  obtain ⟨principal, call⟩ := input
  have free (name : SystemRecordName) : run.context.readSystemRecord name = .ok none ↔
      ∀ other ∈ run.live, other.key ≠ name.key := by
    rw [consistent.readSystemRecord, Except.ok.injEq]
    constructor
    · intro empty other lives same
      rw [← same] at empty
      exact (consistent.stored other).mpr lives empty
    · intro apart
      by_contra held
      exact apart name ((consistent.stored name).mp held) rfl
  have creates {permitted : Bool} {next : SystemRecordName}
      {answer : Except ContextError SystemChange}
      (created : ∀ name, answer = .ok (.created name) ↔ permitted = true ∧ name = next) :
      (permitted = true → run.context.readSystemRecord next = .ok none) ↔
        ∀ name, answer = .ok (.created name) → ∀ other ∈ run.live, other.key ≠ name.key := by
    simp only [created, free]
    constructor
    · rintro unused name ⟨isPermitted, rfl⟩
      exact unused isPermitted
    · exact fun spares isPermitted => spares next ⟨isPermitted, rfl⟩
  have answers {α : Type} {answer : Answer α} {change : SystemChange}
      (other : ∀ name, change ≠ .created name) :
      ∀ name, answer.1.map (fun _ => change) = .ok (.created name) →
        ∀ other ∈ run.live, other.key ≠ name.key := by
    intro name answered
    cases result : answer.1 with
    | error error => rw [result] at answered; cases answered
    | ok value =>
      rw [result] at answered
      exact absurd (Except.ok.inj answered) (other name)
  cases call with
  | createTenant name => exact creates (consistent.createTenant principal name).2
  | createDatabase tenantId name =>
    exact creates (consistent.createDatabase principal tenantId name).2
  | getTenant | getDatabase | updateTenant | updateDatabase | deleteTenant | deleteDatabase =>
    exact iff_of_true trivial (answers nofun)
  | restart => exact iff_of_true trivial nofun

end Consistent

/-- A bootstrapped context has no records. -/
theorem consistent_start (format : RecordFormat) : Consistent format start Shard.empty where
  read := by rfl
  stored name := by simp [start]
  formed name bytes found := by cases found
  cached name mem := by cases mem

/-- In a run of calls on tenants and databases with restarts in between, no call that creates one
writes over the record of one that is alive exactly if every such call finds nothing stored
under the number behind the largest one in its cache. -/
theorem spares_along_iff (format : RecordFormat) (calls : List (SecurityPrincipal × SystemCall)) :
    (step format).Along Unused start calls ↔ (step format).Along (Spares format) start calls :=
  Machine.along_congr (fun run => ∃ shard, Consistent format run shard)
    (fun _ input consistent _ => consistent.elim fun _ holds => holds.step input)
    (fun _ input consistent => consistent.elim fun _ holds => holds.spares_iff_unused input)
    ⟨_, consistent_start format⟩

/-- Numbers in unary, each with a zero behind it. -/
def unary (numbers : List Nat) : Bytes :=
  numbers.flatMap fun number => List.replicate number 1 ++ [0]

/-- The numbers that are written in unary, of the first of which some was already read. -/
def ofUnary (count : Nat) : Bytes → List Nat
  | [] => []
  | byte :: rest => if byte = 0 then count :: ofUnary 0 rest else ofUnary (count + 1) rest

theorem ofUnary_unary (numbers : List Nat) : ofUnary 0 (unary numbers) = numbers := by
  have counts (number count : Nat) (rest : Bytes) :
      ofUnary count (List.replicate number 1 ++ 0 :: rest) = (count + number) :: ofUnary 0 rest := by
    induction number generalizing count with
    | zero => simp [ofUnary]
    | succ number ih =>
      rw [replicate_succ, cons_append, ofUnary, if_neg (by decide), ih]
      congr 1
      omega
  induction numbers with
  | nil => rfl
  | cons number rest ih =>
    rw [unary, flatMap_cons, append_assoc, singleton_append, counts, Nat.zero_add]
    exact congrArg _ ih

/-- Records written as numbers in unary. -/
def unaryFormat : RecordFormat where
  toRecordCodecs := { identifierCodecs with
    tenant := fun record =>
      unary (record.id.raw.toNat :: record.version :: record.name.map Char.toNat)
    database := fun record =>
      unary (record.databaseId.raw.toNat :: record.tenantId.raw.toNat :: record.version ::
        record.rootNamespace.raw.toNat :: record.databaseName.map Char.toNat) }
  readTenant bytes :=
    match ofUnary 0 bytes with
    | id :: version :: name => some ⟨⟨UInt32.ofNat id⟩, name.map Char.ofNat, version⟩
    | _ => none
  readDatabase bytes :=
    match ofUnary 0 bytes with
    | databaseId :: tenantId :: version :: rootNamespace :: name =>
      some ⟨⟨UInt32.ofNat databaseId⟩, ⟨UInt32.ofNat tenantId⟩, name.map Char.ofNat, version,
        ⟨UInt32.ofNat rootNamespace⟩⟩
    | _ => none
  readTenant_tenant record := by simp [ofUnary_unary, comp_def]
  readDatabase_database record := by simp [ofUnary_unary, comp_def]

/-- Calls of a principal that may do everything. -/
def unrestrictedCalls (calls : List SystemCall) : List (SecurityPrincipal × SystemCall) :=
  calls.map (SecurityPrincipal.unrestricted, ·)

/-- A tenant and its database, a restart, and another tenant and another database: the records
of the first ones are gone. -/
theorem records_overwritten :
    let first := unrestrictedCalls [.createTenant ['a'], .createDatabase ⟨0⟩ ['c'], .restart]
    let second := unrestrictedCalls [.createTenant ['b'], .createDatabase ⟨0⟩ ['d']]
    let before := (step unaryFormat).final start first
    let after := (step unaryFormat).final before second
    before.live = [.tenant ⟨0⟩, .database ⟨0⟩ ⟨0⟩] ∧ before.context.readSystemRecord (.tenant ⟨0⟩) =
        .ok (some (unaryFormat.tenant ⟨⟨0⟩, ['a'], 1⟩)) ∧
      after.context.readSystemRecord (.tenant ⟨0⟩) =
        .ok (some (unaryFormat.tenant ⟨⟨0⟩, ['b'], 1⟩)) ∧
      after.context.readSystemRecord (.database ⟨0⟩ ⟨0⟩) =
        .ok (some (unaryFormat.database ⟨⟨0⟩, ⟨0⟩, ['d'], 1, ⟨0⟩⟩)) ∧
      ¬(step unaryFormat).Along (Spares unaryFormat) start (first ++ second) := by
  refine ⟨by decide +kernel, by decide +kernel, by decide +kernel, by decide +kernel, ?_⟩
  rintro ⟨-, -, -, spares, -⟩
  exact spares (.tenant ⟨0⟩) (by decide +kernel) (.tenant ⟨0⟩) (by decide +kernel) rfl

end SystemRun

end Nanograph.Kvm
