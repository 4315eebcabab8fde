import Nanograph.Foundation.Grouping
import Nanograph.Lsm.Transaction

/-!
# Transactions over a store

A transaction of `nanograph-lsm/src/transaction.rs` over the engines of all shards, while
others go on to call the engines. Its writes are buffered by shard, and a commit applies
them shard by shard. The module says when the transaction reads its own writes, and what
a commit makes of the store.
-/

namespace Nanograph.Lsm

open List Function Foundation Kvt LSMTreeEngine LSMTransaction

abbrev LSMKeyValueStore := ShardId → Option LSMTreeEngine

abbrev StoreM := EStateM EngineFault LSMKeyValueStore

namespace LSMKeyValueStore

/-- Run a computation on the engine of a shard, if there is one. -/
def withEngine {α : Type} (table : ShardId) (run : EngineM α) :
    EStateM EngineFault (Option LSMTreeEngine) α
  | none => .error (.error (.shardNotFound table)) none
  | some engine =>
    match run engine with
    | .ok value next => .ok value (some next)
    | .error fault next => .error fault (some next)

section

variable {α : Type} {store : LSMKeyValueStore} {table : ShardId}

theorem onEngine_missing (missing : store table = none) (run : EngineM α) :
    onTarget table (withEngine table run) store = .error (.error (.shardNotFound table)) store := by
  rw [onTarget, missing]
  simp only [withEngine]
  rw [← missing, update_eq_self]

theorem onEngine_ok {engine next : LSMTreeEngine} {run : EngineM α} {value : α}
    (found : store table = some engine) (ran : run engine = .ok value next) :
    onTarget table (withEngine table run) store = .ok value (update store table (some next)) := by
  rw [onTarget, found, withEngine, ran]

/-- A computation that only reads the engine. -/
theorem onEngine_read {engine : LSMTreeEngine} {run : EngineM α} {value : α}
    (found : store table = some engine) (ran : run engine = .ok value engine) :
    onTarget table (withEngine table run) store = .ok value store := by
  rw [onEngine_ok found ran, ← found, update_eq_self]

end

def get (table : ShardId) (key : Bytes) : StoreM (Option Bytes) :=
  onTarget table (withEngine table (LSMTreeEngine.get key))

/-- Get a value at a specific snapshot timestamp. -/
def getAtSnapshot (table : ShardId) (key : Bytes) (snapshotTs : Int) : StoreM (Option Bytes) :=
  onTarget table (withEngine table (LSMTreeEngine.getAtSnapshot key snapshotTs))

def putCommitted (table : ShardId) (key value : Bytes) (commitTs : Int) : StoreM Unit :=
  onTarget table (withEngine table (LSMTreeEngine.putCommitted key value commitTs))

def deleteCommitted (table : ShardId) (key : Bytes) (commitTs : Int) : StoreM Unit :=
  onTarget table (withEngine table (LSMTreeEngine.deleteCommitted key commitTs))

end LSMKeyValueStore

open LSMKeyValueStore

namespace LSMTransaction

/-- Get a value: from the buffer, then from the store at the snapshot. -/
def getFromStore (tx : LSMTransaction) (now : Nat) (table : ShardId) (key : Bytes) :
    StoreM (Option Bytes) :=
  match tx.checkActive now with
  | .error cause => throw (.error cause)
  | .ok _ =>
    match tx.getFromBuffer table key with
    | some op => pure op.value
    | none => getAtSnapshot table key tx.snapshotTs

/-- Add an operation to the buffer. -/
def push (tx : LSMTransaction) (table : ShardId) (op : WriteOp) : LSMTransaction :=
  { tx with
    writeBuffer := tx.writeBuffer.insert table ((tx.writeBuffer.lookup table).getD [] ++ [op]) }

/-- Buffer a write. -/
def put (tx : LSMTransaction) (now : Nat) (table : ShardId) (key value : Bytes) :
    StoreM LSMTransaction :=
  match tx.checkActive now with
  | .error cause => throw (.error cause)
  | .ok _ => pure (tx.push table (.put key value))

/-- Buffer a deletion if the key exists, and tell whether it does. -/
def delete (tx : LSMTransaction) (now : Nat) (table : ShardId) (key : Bytes) :
    StoreM (Bool × LSMTransaction) :=
  match tx.checkActive now with
  | .error cause => throw (.error cause)
  | .ok _ => do
    let found ← tx.getFromStore now table key
    pure (if found.isSome then (true, tx.push table (.delete key)) else (false, tx))

/-- Apply an operation of the buffer to the store. -/
def applyOp (commitTs : Int) (table : ShardId) : WriteOp → StoreM Unit
  | .put key value => putCommitted table key value commitTs
  | .delete key => deleteCommitted table key commitTs

/-- The operations of each shard. -/
def buffered (tx : LSMTransaction) : List (ShardId × List WriteOp) :=
  tx.writeBuffer.entries.map fun entry => (entry.1, entry.2)

/-- Apply all writes from the buffer, in the order in which the hash map gives the shards. -/
def applyBuffer (order : VisitOrder (ShardId × List WriteOp)) (tx : LSMTransaction)
    (commitTs : Int) : StoreM Unit :=
  forM (order.visit tx.buffered) fun group => forM group.2 (applyOp commitTs group.1)

end LSMTransaction

/-- What a transaction was asked to write, and whether it went to the buffer. -/
structure Asked where
  table : ShardId
  op : WriteOp
  buffered : Bool
deriving DecidableEq

/-- A transaction, the store it is on, and all that it was asked to write so far. -/
structure Session where
  store : LSMKeyValueStore
  tx : LSMTransaction
  asked : List Asked

/-- The calls on a transaction, and those of others on the engines of the store. -/
inductive SessionCall where
  | other (table : ShardId) (input : EngineCall)
  | get (now : Nat) (table : ShardId) (key : Bytes)
  | put (now : Nat) (table : ShardId) (key value : Bytes)
  | delete (now : Nat) (table : ShardId) (key : Bytes)
  | commit (now : Nat) (commitTs : Int)
  | rollback (now : Nat)

/-- What the calls return. -/
inductive SessionAnswer where
  | done
  | found (value : Option Bytes)
  | deleted (existed : Bool)
deriving DecidableEq

namespace Session

/-- A new transaction on a store of new engines. -/
def start (options : ShardId → Option LSMTreeOptions) (tx : LSMTransaction) : Session :=
  ⟨fun table => (options table).map fresh, tx, []⟩

/-- The buffered operations in the order in which they were issued. -/
def issued (session : Session) : List (ShardId × WriteOp) :=
  (session.asked.filter (·.buffered)).map fun asked => (asked.table, asked.op)

/-- The last buffered operation on a key. -/
def lastOp (session : Session) (table : ShardId) (key : Bytes) : Option WriteOp :=
  (itemsOf session.issued table).reverse.find? (·.key = key)

/-- The last that the transaction was asked to write under a key. -/
def lastAsked (session : Session) (table : ShardId) (key : Bytes) : Option Asked :=
  session.asked.reverse.find? fun asked => asked.table = table ∧ asked.op.key = key

def step (order : VisitOrder (ShardId × List WriteOp)) :
    Machine Session SessionCall (Except EngineFault SessionAnswer)
  | session, .other table input =>
    match session.store table with
    | none => (.error (.error (.shardNotFound table)), session)
    | some engine =>
      let store := update session.store table (some (engine.call input).2)
      match (engine.call input).1 with
      | .ok (.found value) => (.ok (.found value), { session with store })
      | .ok .done => (.ok .done, { session with store })
      | .error fault => (.error fault, { session with store })
  | session, .get now table key =>
    match session.tx.getFromStore now table key session.store with
    | .ok value store => (.ok (.found value), { session with store })
    | .error fault store => (.error fault, { session with store })
  | session, .put now table key value =>
    match session.tx.put now table key value session.store with
    | .ok tx store => (.ok .done, ⟨store, tx, session.asked ++ [⟨table, .put key value, true⟩]⟩)
    | .error fault store => (.error fault, { session with store })
  | session, .delete now table key =>
    match session.tx.delete now table key session.store with
    | .ok (existed, tx) store =>
      (.ok (.deleted existed), ⟨store, tx, session.asked ++ [⟨table, .delete key, existed⟩]⟩)
    | .error fault store => (.error fault, { session with store })
  | session, .commit now commitTs =>
    match session.tx.checkActive now with
    | .error cause => (.error (.error cause), session)
    | .ok _ =>
      -- the transaction ends even if a write fails
      let tx := { session.tx with committed := true }
      match session.tx.applyBuffer order commitTs session.store with
      | .ok _ store => (.ok .done, { session with store, tx })
      | .error fault store => (.error fault, { session with store, tx })
  | session, .rollback now =>
    match session.tx.checkActive now with
    | .error cause => (.error (.error cause), session)
    | .ok _ =>
      (.ok .done, { session with tx := { session.tx with rolledBack := true, writeBuffer := ∅ } })

/-- An active transaction reads what it wrote last under a key, and a commit that succeeds
does to the store what the buffered operations do one by one: each key it has written gets
the value of the last operation, and no other key changes. -/
def Honest (order : VisitOrder (ShardId × List WriteOp)) (session : Session) :
    SessionCall → Prop
  | .get now table key =>
    ∀ asked, session.lastAsked table key = some asked → session.tx.checkActive now = .ok () →
      (session.step order (.get now table key)).1 = .ok (.found asked.op.value)
  | .commit now commitTs =>
    ∀ next, session.step order (.commit now commitTs) = (.ok .done, next) →
      (forM session.issued fun item => applyOp commitTs item.1 item.2)
          session.store = .ok () next.store ∧
        ∀ table key, (LSMKeyValueStore.get table key).run' next.store =
          match session.lastOp table key with
          | some op => some op.value
          | none => (LSMKeyValueStore.get table key).run' session.store
  | _ => True

/-- No compaction of a call loses anything, and a key that the transaction could not delete
because it did not exist is still not seen at the snapshot when it is read. -/
def Meets (session : Session) : SessionCall → Prop
  | .other table input =>
    ∀ engine ∈ session.store table, engine.CompactionMeets Faithful input
  | .get _ table key =>
    session.lastAsked table key ≠ none → session.tx.getFromBuffer table key = none →
      ∀ engine ∈ session.store table, engine.seenAt key session.tx.snapshotTs = none
  | .commit _ commitTs =>
    ∀ table ∈ session.tx.writeBuffer.keys, ∀ engine ∈ session.store table,
      call.Along (CompactionMeets Faithful) engine (session.tx.commitCalls table commitTs)
  | .put .. | .delete .. | .rollback _ => True

/-- No compaction of a call loses anything. -/
def Lossless (session : Session) : SessionCall → Prop
  | .get .. => True
  | input => session.Meets input

instance (session : Session) : DecidablePred session.Meets
  | .other table _ => inferInstanceAs (Decidable (∀ engine ∈ session.store table, _))
  | .get _ table _ => inferInstanceAs (Decidable (_ → _ → ∀ engine ∈ session.store table, _))
  | .commit .. => inferInstanceAs (Decidable (∀ table ∈ session.tx.writeBuffer.keys,
      ∀ engine ∈ session.store table, call.Along _ _ _))
  | .put .. | .delete .. | .rollback _ => isTrue trivial

end Session

variable {last : Option LSMTreeEngine} {ops : List WriteOp} {items : List (ShardId × WriteOp)}

section

open LSMKeyValueStore (onEngine_missing onEngine_ok)

variable {engine : LSMTreeEngine} {store : LSMKeyValueStore} {commitTs : Int} {table : ShardId}

/-- What an operation does to the engine of its shard. -/
def WriteOp.run (commitTs : Int) : WriteOp → EngineM Unit
  | .put key value => putCommitted key value commitTs
  | .delete key => deleteCommitted key commitTs

theorem applyOp_eq (commitTs : Int) (table : ShardId) (op : WriteOp) :
    applyOp commitTs table op = onTarget table (withEngine table (op.run commitTs)) := by
  cases op <;> rfl

theorem call_toCall (op : WriteOp) :
    engine.call (op.toCall commitTs) = answer (op.run commitTs) (fun _ => .done) engine := by
  cases op <;> rfl

theorem run_of_sound {op : WriteOp} (sound : Sound engine)
    (faithful : engine.CompactionMeets Faithful (op.toCall commitTs)) :
    op.run commitTs engine = .ok () (engine.call (op.toCall commitTs)).2 := by
  have answers := (sound.call faithful).1
  rw [call_toCall, answer] at answers ⊢
  cases ran : op.run commitTs engine with
  | ok value next => rfl
  | error fault next =>
    rw [ran] at answers
    cases answers

theorem withEngine_eq_ok {α : Type} {run : EngineM α} {value : α} :
    withEngine table run (some engine) = .ok value last ↔
      ∃ next, run engine = .ok value next ∧ last = some next := by
  rw [withEngine]
  cases run engine <;> simp [eq_comm]

/-- The operations of a shard on its engine, if all of them succeed. -/
theorem forM_withEngine
    (ran : forM ops (fun op => withEngine table (op.run commitTs)) (some engine) =
      .ok ⟨⟩ last) : last = some (call.final engine (ops.map (WriteOp.toCall commitTs))) := by
  induction ops generalizing engine with
  | nil => cases ran; rfl
  | cons op rest ih =>
    rw [forM_cons, bind_eq_ok] at ran
    obtain ⟨⟨⟩, middle, first, later⟩ := ran
    obtain ⟨next, ranOp, rfl⟩ := withEngine_eq_ok.mp first
    have same : (engine.call (op.toCall commitTs)).2 = next := by
      rw [call_toCall, answer_snd, ranOp]
      rfl
    rw [ih later, map_cons, Machine.final, same]

theorem forM_withEngine_none
    (ran : forM ops (fun op => withEngine table (op.run commitTs)) none =
      .ok ⟨⟩ last) : ops = [] ∧ last = none := by
  cases ops with
  | nil => cases ran; exact ⟨rfl, rfl⟩
  | cons op rest =>
    rw [forM_cons, bind_eq_ok] at ran
    obtain ⟨_, _, first, -⟩ := ran
    cases first

/-- The operations succeed exactly if those of each shard do. -/
theorem applyAll_eq_ok {next : LSMKeyValueStore} :
    (forM items fun item => applyOp commitTs item.1 item.2) store = .ok ⟨⟩ next ↔
      ∀ table, forM (itemsOf items table)
        (fun op => withEngine table (op.run commitTs)) (store table) = .ok ⟨⟩ (next table) := by
  simp only [applyOp_eq]
  exact forM_onTarget_eq_ok
    (fun table op => withEngine table (op.run commitTs)) items

/-- What is read after the operations of a shard: per key the last one wins. -/
theorem valueOf_final (sound : Sound engine)
    (faithful : call.Along (CompactionMeets Faithful) engine (ops.map (WriteOp.toCall commitTs)))
    (key : Bytes) :
    (call.final engine (ops.map (WriteOp.toCall commitTs))).valueOf key =
      (ops.reverse.find? (·.key = key)).elim (engine.valueOf key) (·.value) := by
  induction ops generalizing engine with
  | nil => rfl
  | cons op rest ih =>
    have performed := (sound.call faithful.1).2
    have effect : (op.toCall commitTs).effect key (engine.valueOf key) =
        if key = op.key then op.value else engine.valueOf key := by
      cases op <;> rfl
    rw [map_cons, Machine.final, ih performed.sound faithful.2,
      performed.values, effect, reverse_cons, find?_append]
    by_cases hit : key = op.key <;>
      cases rest.reverse.find? (fun op => decide (op.key = key)) <;> simp [hit, eq_comm]

/-- What holds of a new engine of a shard and of all other engines. -/
theorem forall_update (holds : ShardId → LSMTreeEngine → Prop) (own : holds table engine)
    (others : ∀ other, other ≠ table → ∀ engine ∈ store other, holds other engine) :
    ∀ other, ∀ next ∈ update store table (some engine) other, holds other next := by
  intro other next isAt
  by_cases hit : other = table
  · subst hit
    rw [update_self, Option.mem_some_iff] at isAt
    exact isAt ▸ own
  · rw [update_of_ne hit] at isAt
    exact others other hit next isAt

theorem update_ne_none {other : ShardId} (isThere : store other ≠ none) :
    update store table (some engine) other ≠ none := by
  by_cases hit : other = table
  · subst hit
    simp
  · rwa [update_of_ne hit]

/-- The engines are sound, and no compaction on the way of the operations loses anything. -/
def Allowed (commitTs : Int) (items : List (ShardId × WriteOp)) (store : LSMKeyValueStore) : Prop :=
  ∀ table, ∀ engine ∈ store table, Sound engine ∧ call.Along (CompactionMeets Faithful) engine
      ((itemsOf items table).map (WriteOp.toCall commitTs))

/-- The first operation is applied if it has a shard. -/
theorem Allowed.cons {op : WriteOp} {rest : List (ShardId × WriteOp)}
    (allowed : Allowed commitTs ((table, op) :: rest) store) (found : store table = some engine) :
    ∃ next, applyOp commitTs table op store = .ok () (update store table (some next)) ∧
      Allowed commitTs rest (update store table (some next)) := by
  obtain ⟨sound, faithful⟩ := allowed table engine found
  rw [itemsOf_cons_self, map_cons, Machine.Along] at faithful
  rw [applyOp_eq]
  refine ⟨_, onEngine_ok found (run_of_sound sound faithful.1), ?_⟩
  exact forall_update
    (fun table engine => Sound engine ∧ call.Along (CompactionMeets Faithful) engine
        ((itemsOf rest table).map (WriteOp.toCall commitTs)))
    ⟨(sound.call faithful.1).2.sound, faithful.2⟩
    fun table differs other isAt => itemsOf_cons_of_ne differs ▸ allowed table other isAt

theorem Allowed.of_isPrefix {first : List (ShardId × WriteOp)}
    (allowed : Allowed commitTs items store) (isPrefix : first <+: items) :
    Allowed commitTs first store := by
  obtain ⟨rest, rfl⟩ := isPrefix
  intro table engine found
  obtain ⟨sound, faithful⟩ := allowed table engine found
  rw [itemsOf, filter_append, map_append, map_append, Machine.along_append] at faithful
  exact ⟨sound, faithful.1⟩

/-- Where no compaction loses anything, the engines stay and stay sound, also if the operations
end early for want of a shard. -/
theorem sound_applied (allowed : Allowed commitTs items store) : let after := stateOf (forM items
      (fun item => applyOp commitTs item.1 item.2) store)
    ∀ table, (∀ engine ∈ after table, Sound engine) ∧ (store table ≠ none → after table ≠ none) := by
  induction items generalizing store with
  | nil => exact fun table => ⟨fun engine found => (allowed table engine found).1, id⟩
  | cons item rest ih =>
    obtain ⟨target, op⟩ := item
    rw [forM_cons]
    cases found : store target with
    | none =>
      rw [applyOp_eq, bind_error (onEngine_missing found _)]
      exact fun table => ⟨fun engine found => (allowed table engine found).1, id⟩
    | some engine =>
      obtain ⟨next, ran, allowedNext⟩ := allowed.cons found
      rw [bind_ok ran]
      exact fun table => ⟨(ih allowedNext table).1,
        fun isThere => (ih allowedNext table).2 (update_ne_none isThere)⟩

end

namespace LSMTransaction

variable {tx : LSMTransaction} {now : Nat} {table : ShardId} {key : Bytes}

theorem rolledBack_of_active (active : tx.checkActive now = .ok ()) : tx.rolledBack = false := by
  rw [checkActive] at active
  split at active
  · cases active
  · split at active
    next => cases active
    next running => simpa using running

theorem getFromBuffer_eq :
    tx.getFromBuffer table key =
      ((tx.writeBuffer.lookup table).getD []).reverse.find? (·.key = key) := by
  rw [getFromBuffer]
  cases tx.writeBuffer.lookup table <;> rfl

theorem lookup_push (op : WriteOp) (other : ShardId) :
    ((tx.push table op).writeBuffer.lookup other).getD [] =
      (tx.writeBuffer.lookup other).getD [] ++ if other = table then [op] else [] := by
  rw [push]
  by_cases hit : other = table
  · subst hit
    simp [AList.lookup_insert]
  · simp [AList.lookup_insert_ne hit, hit]

/-- What a transaction reads over sound engines. -/
theorem getFromStore_eq {store : LSMKeyValueStore}
    (sound : ∀ table, ∀ engine ∈ store table, Sound engine)
    (active : tx.checkActive now = .ok ()) (table : ShardId) (key : Bytes) :
    tx.getFromStore now table key store =
      match tx.getFromBuffer table key, store table with
      | some op, _ => .ok op.value store
      | none, none => .error (.error (.shardNotFound table)) store
      | none, some engine => .ok (engine.seenAt key tx.snapshotTs) store := by
  rw [getFromStore, active]
  cases tx.getFromBuffer table key with
  | some op => rfl
  | none =>
    cases found : store table with
    | none => exact LSMKeyValueStore.onEngine_missing found _
    | some engine =>
      exact onEngine_read found (getAtSnapshot_spec (sound table engine found))

/-- The operations of a shard that a commit applies. -/
theorem itemsOf_visited (order : VisitOrder (ShardId × List WriteOp)) (table : ShardId) :
    itemsOf (ungrouped (order.visit tx.buffered)) table =
      (tx.writeBuffer.lookup table).getD [] := by
  have distinct : (tx.buffered.map (·.1)).Nodup := by
    rw [buffered, map_map]
    exact tx.writeBuffer.nodupKeys
  rw [itemsOf_ungrouped, collected_visit order distinct, buffered, collected_entries]

end LSMTransaction

namespace Session

variable {session : Session} {order : VisitOrder (ShardId × List WriteOp)}

/-- The invariant of a session: the engines are sound, and what the transaction was asked to
write is in its buffer, except for deletions of what it did not find. -/
structure Recorded (session : Session) : Prop where
  sound : ∀ table, ∀ engine ∈ session.store table, Sound engine
  buffer : session.tx.rolledBack = false → ∀ table,
    (session.tx.writeBuffer.lookup table).getD [] = itemsOf session.issued table
  own : ∀ table key asked, session.lastAsked table key = some asked →
    asked.op.value = (session.lastOp table key).bind (·.value)
  present : ∀ table key, session.lastAsked table key ≠ none → session.lastOp table key = none →
    session.store table ≠ none

/-- The session behind a call that was asked to write something. -/
def ask (session : Session) (tx : LSMTransaction) (asked : Asked) : Session :=
  ⟨session.store, tx, session.asked ++ [asked]⟩

section

variable (tx : LSMTransaction) (asked : Asked) (table : ShardId)

include tx asked table

theorem lastAsked_ask (key : Bytes) :
    (session.ask tx asked).lastAsked table key =
      if asked.table = table ∧ asked.op.key = key then some asked
      else session.lastAsked table key := by
  rw [lastAsked, ask, reverse_append, reverse_singleton, singleton_append, find?_cons, lastAsked]
  by_cases hit : asked.table = table ∧ asked.op.key = key <;> simp [hit]

theorem itemsOf_issued_ask :
    itemsOf (session.ask tx asked).issued table = itemsOf session.issued table ++
      if asked.buffered ∧ asked.table = table then [asked.op] else [] := by
  rw [issued, ask, filter_append, map_append, itemsOf, filter_append, map_append]
  obtain ⟨other, op, isBuffered⟩ := asked
  refine congrArg _ ?_
  cases isBuffered with
  | false => simp
  | true => by_cases hit : other = table <;> simp [hit]

theorem lastOp_ask (key : Bytes) :
    (session.ask tx asked).lastOp table key =
      if asked.buffered ∧ asked.table = table ∧ asked.op.key = key then some asked.op
      else session.lastOp table key := by
  rw [lastOp, itemsOf_issued_ask, reverse_append, find?_append, lastOp]
  by_cases isBuffered : asked.buffered = true ∧ asked.table = table
  · by_cases hit : asked.op.key = key <;> simp [isBuffered, hit]
  · rw [if_neg isBuffered, if_neg fun all => isBuffered ⟨all.1, all.2.1⟩]
    rfl

end

section

variable (recorded : Recorded session)

include recorded

theorem Recorded.lastOp_eq (running : session.tx.rolledBack = false) (table : ShardId)
    (key : Bytes) : session.lastOp table key = session.tx.getFromBuffer table key := by
  rw [lastOp, getFromBuffer_eq, recorded.buffer running]

/-- An operation goes to the buffer. -/
theorem Recorded.push (running : session.tx.rolledBack = false) (table : ShardId) (op : WriteOp) :
    Recorded (session.ask (session.tx.push table op) ⟨table, op, true⟩) where
  sound := recorded.sound
  buffer _ other := by
    rw [itemsOf_issued_ask, ← recorded.buffer running]
    exact (lookup_push op other).trans (by simp [eq_comm])
  own other key asked := by
    rw [lastAsked_ask, lastOp_ask]
    simp only [true_and]
    split
    next => rintro ⟨⟩; rfl
    next => exact recorded.own other key asked
  present other key := by
    rw [lastAsked_ask, lastOp_ask]
    simp only [true_and]
    split
    next => intro _ missing; cases missing
    next => exact recorded.present other key

/-- A deletion finds nothing, and nothing goes to the buffer. -/
theorem Recorded.missed {table : ShardId} {key : Bytes}
    (absent : (session.lastOp table key).bind (·.value) = none)
    (present : session.lastOp table key = none → session.store table ≠ none) :
    Recorded (session.ask session.tx ⟨table, .delete key, false⟩) where
  sound := recorded.sound
  buffer running other := by
    rw [itemsOf_issued_ask, if_neg (by simp), append_nil]
    exact recorded.buffer running other
  own other key' asked := by
    rw [lastAsked_ask, lastOp_ask]
    split
    next same =>
      obtain ⟨rfl, rfl⟩ := same
      rintro ⟨⟩
      exact absent.symm
    next => exact recorded.own other key' asked
  present other key' := by
    rw [lastAsked_ask, lastOp_ask]
    split
    next same =>
      obtain ⟨rfl, rfl⟩ := same
      exact fun _ => present
    next => exact recorded.present other key'

/-- A call that the transaction was not asked to write anything by. -/
theorem Recorded.frame {store : LSMKeyValueStore} {tx : LSMTransaction}
    (sound : ∀ table, ∀ engine ∈ store table, Sound engine)
    (present : ∀ table, session.store table ≠ none → store table ≠ none)
    (buffer : tx.rolledBack = false →
      session.tx.rolledBack = false ∧ tx.writeBuffer = session.tx.writeBuffer) :
    Recorded ⟨store, tx, session.asked⟩ where
  sound := sound
  buffer running table := by
    obtain ⟨wasRunning, same⟩ := buffer running
    rw [same]
    exact recorded.buffer wasRunning table
  own := recorded.own
  present table key isAsked unbuffered := present table (recorded.present table key isAsked unbuffered)

theorem Recorded.other {table : ShardId} {engine : LSMTreeEngine}
    (found : session.store table = some engine) {input : EngineCall}
    (faithful : engine.CompactionMeets Faithful input) :
    Recorded
      { session with store := update session.store table (some (engine.call input).2) } := by
  have performed := ((recorded.sound table engine found).call faithful).2
  exact recorded.frame
    (forall_update (fun _ => Sound) performed.sound fun other _ => recorded.sound other)
    (fun _ => update_ne_none) (fun running => ⟨running, rfl⟩)

theorem Recorded.get (now : Nat) (table : ShardId) (key : Bytes) :
    stateOf (session.tx.getFromStore now table key session.store) = session.store := by
  cases active : session.tx.checkActive now with
  | error cause =>
    rw [getFromStore, active]
    rfl
  | ok =>
    rw [getFromStore_eq recorded.sound active]
    split <;> rfl

end

theorem applyBuffer_eq (order : VisitOrder (ShardId × List WriteOp)) (tx : LSMTransaction)
    (commitTs : Int) :
    tx.applyBuffer order commitTs = forM (ungrouped (order.visit tx.buffered)) fun item =>
      applyOp commitTs item.1 item.2 :=
  (forM_ungrouped (fun item => applyOp commitTs item.1 item.2) _).symm

variable {next store : LSMKeyValueStore} {commitTs : Int} {now : Nat}

/-- The operations that a commit applies are those issued. -/
theorem Recorded.applyBuffer_eq_ok_iff (recorded : Recorded session)
    (running : session.tx.rolledBack = false) :
    session.tx.applyBuffer order commitTs session.store = .ok () next ↔
      (forM session.issued fun item => applyOp commitTs item.1 item.2)
        session.store = .ok () next := by
  rw [applyBuffer_eq, applyAll_eq_ok, applyAll_eq_ok]
  simp only [itemsOf_visited, recorded.buffer running]

theorem Meets.lossless {input : SessionCall} (meets : session.Meets input) :
    session.Lossless input := by
  cases input with
  | get => trivial
  | _ => exact meets

/-- No compaction on the way of a commit loses anything. -/
theorem Lossless.along (lossless : session.Lossless (.commit now commitTs)) {table : ShardId}
    {engine : LSMTreeEngine} (found : session.store table = some engine) :
    call.Along (CompactionMeets Faithful) engine
      (((session.tx.writeBuffer.lookup table).getD []).map (WriteOp.toCall commitTs)) := by
  by_cases isKey : table ∈ session.tx.writeBuffer.keys
  · exact lossless table isKey engine found
  · rw [AList.lookup_eq_none.mpr isKey]
    trivial

section

variable (recorded : Recorded session)

include recorded

theorem Recorded.allowed (order : VisitOrder (ShardId × List WriteOp))
    (lossless : session.Lossless (.commit now commitTs)) :
    Allowed commitTs (ungrouped (order.visit session.tx.buffered)) session.store := by
  intro table engine found
  rw [itemsOf_visited]
  exact ⟨recorded.sound table engine found, lossless.along found⟩

theorem Recorded.allowed_issued (running : session.tx.rolledBack = false)
    (lossless : session.Lossless (.commit now commitTs)) :
    Allowed commitTs session.issued session.store := by
  intro table engine found
  rw [← recorded.buffer running]
  exact ⟨recorded.sound table engine found, lossless.along found⟩

/-- The engines behind a commit. -/
theorem Recorded.applied (order : VisitOrder (ShardId × List WriteOp))
    (lossless : session.Lossless (.commit now commitTs)) :
    let after := stateOf (session.tx.applyBuffer order commitTs session.store)
    ∀ table, (∀ engine ∈ after table, Sound engine) ∧
      (session.store table ≠ none → after table ≠ none) := by
  rw [applyBuffer_eq]
  exact sound_applied (recorded.allowed order lossless)

/-- A deletion goes to the buffer if the key exists. -/
theorem Recorded.delete (now : Nat) (table : ShardId) (key : Bytes) :
    Recorded (session.step order (.delete now table key)).2 := by
  cases active : session.tx.checkActive now with
  | error cause =>
    rw [Session.step, LSMTransaction.delete, active]
    exact recorded
  | ok =>
    have running := rolledBack_of_active active
    have asked {value : Option Bytes}
        (read : session.tx.getFromStore now table key session.store = .ok value session.store)
        (absent : value = none → (session.lastOp table key).bind (·.value) = none)
        (present : session.lastOp table key = none → session.store table ≠ none) :
        Recorded (session.step order (.delete now table key)).2 := by
      rw [Session.step, LSMTransaction.delete, active]
      simp only
      rw [bind_ok read]
      cases value with
      | none => exact recorded.missed (absent rfl) present
      | some value => exact recorded.push running table _
    have read := getFromStore_eq recorded.sound active table key
    rw [recorded.lastOp_eq running] at asked
    cases buffered : session.tx.getFromBuffer table key with
    | some op =>
      rw [buffered] at read asked
      exact asked read id (fun missing => by cases missing)
    | none =>
      cases found : session.store table with
      | none =>
        rw [buffered, found] at read
        rw [Session.step, LSMTransaction.delete, active]
        simp only
        rw [bind_error read]
        exact recorded
      | some engine =>
        rw [buffered, found] at read
        rw [buffered, found] at asked
        exact asked read (fun _ => rfl) (fun _ => by simp)

/-- Every call keeps the invariant. -/
theorem Recorded.step {input : SessionCall} (lossless : session.Lossless input) :
    Recorded (session.step order input).2 := by
  cases input with
  | other table input =>
    rw [Session.step]
    cases found : session.store table with
    | none => exact recorded
    | some engine =>
      have next := recorded.other found (lossless engine found)
      simp only
      split <;> exact next
  | get now table key =>
    have same := recorded.get now table key
    rw [Session.step]
    split
    all_goals
      next ran =>
        rw [ran] at same
        cases same
        exact recorded
  | put now table key value =>
    rw [Session.step, LSMTransaction.put]
    cases active : session.tx.checkActive now with
    | error cause => exact recorded
    | ok => exact recorded.push (rolledBack_of_active active) table _
  | delete now table key => exact recorded.delete now table key
  | commit now commitTs =>
    rw [Session.step]
    cases active : session.tx.checkActive now with
    | error cause => exact recorded
    | ok =>
      have applied := recorded.applied order lossless
      simp only
      split
      all_goals
        next ran =>
          rw [ran] at applied
          exact recorded.frame (fun table => (applied table).1) (fun table => (applied table).2)
            (fun running => ⟨running, rfl⟩)
  | rollback now =>
    rw [Session.step]
    cases active : session.tx.checkActive now with
    | error cause => exact recorded
    | ok => exact recorded.frame recorded.sound (fun _ => id) (fun running => by cases running)

end

/-- What is read from a store of sound engines. -/
theorem run'_get (sound : ∀ table, ∀ engine ∈ store table, Sound engine) (table : ShardId)
    (key : Bytes) :
    (LSMKeyValueStore.get table key).run' store = (store table).map (·.valueOf key) := by
  rw [EStateM.run', EStateM.run, LSMKeyValueStore.get]
  cases found : store table with
  | none => rw [LSMKeyValueStore.onEngine_missing found]; rfl
  | some engine =>
    have isSound := sound table engine found
    rw [onEngine_read found (get_spec isSound.ready isSound.stored.written isSound.ordered key)]
    rfl

/-- What is read behind operations that succeed. -/
theorem run'_get_applied {items : List (ShardId × WriteOp)} (allowed : Allowed commitTs items store)
    (ran : (forM items fun item => applyOp commitTs item.1 item.2) store =
      .ok ⟨⟩ next) (table : ShardId) (key : Bytes) :
    (LSMKeyValueStore.get table key).run' next =
      match (itemsOf items table).reverse.find? (·.key = key) with
      | some op => some op.value
      | none => (LSMKeyValueStore.get table key).run' store := by
  have applied := sound_applied allowed
  simp only [ran, stateOf_ok] at applied
  rw [run'_get fun table => (applied table).1,
    run'_get fun table engine found => (allowed table engine found).1]
  have each := applyAll_eq_ok.mp ran table
  cases found : store table with
  | none =>
    rw [found] at each
    obtain ⟨unwritten, missing⟩ := forM_withEngine_none each
    rw [missing, unwritten]
    rfl
  | some engine =>
    obtain ⟨sound, faithful⟩ := allowed table engine found
    rw [found] at each
    rw [forM_withEngine each, Option.map_some, valueOf_final sound faithful]
    cases (itemsOf items table).reverse.find? (fun op => decide (op.key = key)) <;> rfl

/-- Every call is honest. -/
theorem Recorded.honest (recorded : Recorded session) {input : SessionCall}
    (meets : session.Meets input) : session.Honest order input := by
  cases input with
  | other | put | delete | rollback => trivial
  | get now table key =>
    intro asked isLast active
    have own := recorded.own table key asked isLast
    have present := recorded.present table key (by simp [isLast])
    rw [recorded.lastOp_eq (rolledBack_of_active active)] at own present
    rw [Session.step, getFromStore_eq recorded.sound active]
    cases buffered : session.tx.getFromBuffer table key with
    | some op =>
      rw [buffered] at own
      simp [own]
    | none =>
      obtain ⟨engine, found⟩ := Option.ne_none_iff_exists'.mp (present buffered)
      have unseen := meets (by simp [isLast]) buffered engine found
      rw [buffered] at own
      simp [found, unseen, own]
  | commit now commitTs =>
    intro next stepped
    rw [Session.step] at stepped
    cases active : session.tx.checkActive now with
    | error cause => rw [active] at stepped; cases stepped
    | ok =>
      rw [active] at stepped
      have running := rolledBack_of_active active
      cases ran : session.tx.applyBuffer order commitTs session.store with
      | error fault store => simp [ran] at stepped
      | ok done store =>
        simp only [ran] at stepped
        cases stepped
        have applied := (recorded.applyBuffer_eq_ok_iff running).mp ran
        exact ⟨applied, run'_get_applied (recorded.allowed_issued running meets.lossless) applied⟩

theorem recorded_start (options : ShardId → Option LSMTreeOptions) (id : TransactionId)
    (snapshotTs : Int) (deadline : Option Nat) :
    Recorded (start options (.new id snapshotTs deadline)) where
  sound table engine found := by
    obtain ⟨option, -, rfl⟩ := Option.map_eq_some_iff.mp found
    exact sound_fresh option
  buffer _ table := by rfl
  own table key asked isLast := by cases isLast
  present table key isAsked := absurd rfl isAsked

def twoShards (table : ShardId) : Option LSMTreeOptions :=
  if table = ⟨0⟩ ∨ table = ⟨1⟩ then
    some { memtableSize := 200, blockSize := 4, fileSize := List.length }
  else none

end Session

end Nanograph.Lsm
