import Nanograph.Kvt.Types

/-!
# Identifiers of the objects of a database

The identifiers of `nanograph-core/src/object.rs`. A shard is named by four 32-bit numbers
packed into one of 128 bits: tenant, database, object and the number of the shard among the
shards of the object.
-/

namespace Nanograph.Core

/-- Identifier of a tenant. -/
structure TenantId where
  raw : UInt32
deriving DecidableEq

/-- Identifier of a database of a tenant. -/
structure DatabaseId where
  raw : UInt32
deriving DecidableEq

/-- Identifier of a table, an index, a function or a namespace in a container. -/
structure ObjectId where
  raw : UInt32
deriving DecidableEq

/-- The number of a shard of an object. -/
structure ShardNumber where
  raw : UInt32

/-- A database of a tenant. -/
structure ContainerId where
  raw : UInt64
deriving DecidableEq

namespace ContainerId

def fromParts (tenant : TenantId) (database : DatabaseId) : ContainerId :=
  ⟨tenant.raw.toUInt64 <<< 32 ||| database.raw.toUInt64⟩

def tenant (container : ContainerId) : TenantId := ⟨(container.raw >>> 32).toUInt32⟩

def database (container : ContainerId) : DatabaseId := ⟨container.raw.toUInt32⟩

end ContainerId

end Nanograph.Core

namespace Nanograph.Kvt.ShardId

open Nanograph.Core

def fromParts (tenant : TenantId) (database : DatabaseId) (object : ObjectId)
    (shardNumber : ShardNumber) : ShardId :=
  ⟨tenant.raw.toNat <<< 96 ||| database.raw.toNat <<< 64 ||| object.raw.toNat <<< 32 |||
    shardNumber.raw.toNat⟩

/-- The parts of a shard identifier are the digits of its number. -/
theorem raw_fromParts (tenant : TenantId) (database : DatabaseId) (object : ObjectId)
    (shardNumber : ShardNumber) :
    (fromParts tenant database object shardNumber).raw =
      tenant.raw.toNat * 2 ^ 96 + database.raw.toNat * 2 ^ 64 + object.raw.toNat * 2 ^ 32 +
        shardNumber.raw.toNat := by
  have first : database.raw.toNat < 2 ^ 32 := database.raw.toNat_lt
  have second : object.raw.toNat < 2 ^ 32 := object.raw.toNat_lt
  have third : shardNumber.raw.toNat < 2 ^ 32 := shardNumber.raw.toNat_lt
  have nested : (fromParts tenant database object shardNumber).raw =
      ((tenant.raw.toNat <<< 32 ||| database.raw.toNat) <<< 32 ||| object.raw.toNat) <<< 32 |||
        shardNumber.raw.toNat := by
    simp only [fromParts, Nat.shiftLeft_or_distrib, ← Nat.shiftLeft_add]
  rw [nested, ← Nat.shiftLeft_add_eq_or_of_lt third, ← Nat.shiftLeft_add_eq_or_of_lt second,
    ← Nat.shiftLeft_add_eq_or_of_lt first]
  simp only [Nat.shiftLeft_eq]
  ring

/-- Different parts give different shard identifiers. -/
theorem fromParts_inj {tenant tenant' : TenantId} {database database' : DatabaseId}
    {object object' : ObjectId} {shardNumber shardNumber' : ShardNumber} :
    fromParts tenant database object shardNumber =
        fromParts tenant' database' object' shardNumber' ↔
      tenant = tenant' ∧ database = database' ∧ object = object' ∧ shardNumber = shardNumber' := by
  constructor
  · intro same
    have raw := congrArg ShardId.raw same
    rw [raw_fromParts, raw_fromParts] at raw
    obtain ⟨tenant⟩ := tenant
    obtain ⟨tenant'⟩ := tenant'
    obtain ⟨database⟩ := database
    obtain ⟨database'⟩ := database'
    obtain ⟨object⟩ := object
    obtain ⟨object'⟩ := object'
    obtain ⟨shardNumber⟩ := shardNumber
    obtain ⟨shardNumber'⟩ := shardNumber'
    simp only [TenantId.mk.injEq, DatabaseId.mk.injEq, ObjectId.mk.injEq, ShardNumber.mk.injEq,
      ← UInt32.toNat_inj]
    have bounds := And.intro (And.intro database.toNat_lt database'.toNat_lt)
      (And.intro (And.intro object.toNat_lt object'.toNat_lt)
        (And.intro shardNumber.toNat_lt shardNumber'.toNat_lt))
    simp only at raw
    omega
  · rintro ⟨rfl, rfl, rfl, rfl⟩
    rfl

end Nanograph.Kvt.ShardId
