import Nanograph.BTree.KvStore
import Nanograph.BTree.Map
import Nanograph.Foundation.Effect

/-!
# Calls on the store

The store as a machine, and the invariant of its runs: every shard has a tree that
holds some history of calls, and no two shards share a tree. A store that starts
again has no shards, which is why it never finds its logs.
-/

namespace Nanograph.BTree

open BPlusTree Foundation Kvt

/-- The calls on a store and on its transactions. -/
inductive StoreCall where
  | createShard (shard : ShardId)
  | createShardWithConfig (shard : ShardId) (config : BTreeStorageConfig)
  | dropShard (shard : ShardId)
  | get (shard : ShardId) (key : Bytes)
  | put (shard : ShardId) (key value : Bytes)
  | delete (shard : ShardId) (key : Bytes)
  | clear (shard : ShardId)
  | checkpointShard (shard : ShardId)
  | beginTransaction (first : ShardId)
  | txGet (txId : TransactionId) (key : Bytes)
  | txPut (txId : TransactionId) (key value : Bytes)
  | txDelete (txId : TransactionId) (key : Bytes)
  | commit (txId : TransactionId)
  | rollback (txId : TransactionId)

/-- What the calls return. -/
inductive StoreAnswer where
  | done
  | deleted (present : Bool)
  | found (value : Option Bytes)
  | begun (txId : TransactionId)
deriving DecidableEq

/-- The call on the tree that a buffered write ends up as. -/
def WriteOp.toCall : WriteOp → TreeCall Bytes Bytes
  | .put key value => .insert key value
  | .delete key => .delete key

namespace BTreeKeyValueStore

/-- The result of a computation and the store it leaves. -/
def respond {α : Type} (run : StoreM α) (wrap : α → StoreAnswer) (store : BTreeKeyValueStore) :
    Except StoreFault StoreAnswer × BTreeKeyValueStore :=
  match run store with
  | .ok value changed => (.ok (wrap value), changed)
  | .error fault changed => (.error fault, changed)

def call : Machine BTreeKeyValueStore StoreCall (Except StoreFault StoreAnswer)
  | store, .createShard shard => respond (createShard shard) (fun _ => .done) store
  | store, .createShardWithConfig shard config =>
    respond (createShardWithConfig shard config) (fun _ => .done) store
  | store, .dropShard shard => respond (dropShard shard) (fun _ => .done) store
  | store, .get shard key => respond (get shard key) .found store
  | store, .put shard key value => respond (put shard key value) (fun _ => .done) store
  | store, .delete shard key => respond (delete shard key) .deleted store
  | store, .clear shard => respond (clear shard) (fun _ => .done) store
  | store, .checkpointShard shard => respond (checkpointShard shard) (fun _ => .done) store
  | store, .beginTransaction first => respond (beginTransaction first) .begun store
  | store, .txGet txId key => respond (txGet txId key) .found store
  | store, .txPut txId key value => respond (txPut txId key value) (fun _ => .done) store
  | store, .txDelete txId key => respond (txDelete txId key) .deleted store
  | store, .commit txId => respond (commit txId) (fun _ => .done) store
  | store, .rollback txId => respond (rollback txId) (fun _ => .done) store

@[simp] theorem respond_snd {α : Type} (run : StoreM α) (wrap : α → StoreAnswer)
    (store : BTreeKeyValueStore) : (respond run wrap store).2 = stateOf (run store) := by
  unfold respond
  cases run store <;> rfl

/-- A store that was started again over the files of an earlier run never gets a shard
with a log: the log is looked for in the shard that is still to be created. -/
theorem createShardWithConfig_after_restart (config again : BPlusTreeConfig)
    (files : AList fun _ : String => List WalEntry) (calls : List StoreCall) (shard : ShardId)
    (shardConfig : BTreeStorageConfig) :
    let before := call.final (start config true files) calls
    ((start again true before.files).call (.createShardWithConfig shard shardConfig)).1 =
      .error (.error (.shardNotFound shard)) := by
  rfl

/-- A shard whose calls all succeeded is not found again. -/
theorem restart_loses_shard :
    let config : BPlusTreeConfig := { maxKeys := 4, minKeys := 2 }
    let storage : BTreeStorageConfig := { dataDir := "data", walDir := "wal", order := 2 }
    let calls : List StoreCall :=
      [.createShard ⟨1⟩, .createShardWithConfig ⟨1⟩ storage, .put ⟨1⟩ [1] [7], .checkpointShard ⟨1⟩]
    call.answers (start config true ∅) calls = [.ok .done, .ok .done, .ok .done, .ok .done] ∧
      ((call.final (start config true ∅) calls).call (.get ⟨1⟩ [1])).1 = .ok (.found (some [7])) ∧
      ((start config true (call.final (start config true ∅) calls).files).call
        (.createShardWithConfig ⟨1⟩ storage)).1 = .error (.error (.shardNotFound ⟨1⟩)) := by
  decide +kernel

/-- The invariant of a store. -/
structure Proper (store : BTreeKeyValueStore) : Prop where
  splits : 2 ≤ store.config.maxKeys
  held : ∀ shard data, store.shards.lookup shard = some data → ∃ history, Holds data.tree history
  numbered : ∀ shard data, store.shards.lookup shard = some data → data.number < store.nextTree
  unshared : ∀ shard data other otherData, store.shards.lookup shard = some data →
    store.shards.lookup other = some otherData → data.number = otherData.number → shard = other

theorem lookup_putShard (store : BTreeKeyValueStore) (shard other : ShardId) (data : ShardData) :
    (store.putShard shard data).shards.lookup other =
      if other = shard then some data else store.shards.lookup other := by
  split
  next equal => rw [equal]; exact AList.lookup_insert _
  next different => exact AList.lookup_insert_ne different

/-- Every tree of a store is one of an earlier store or a new one under a new number. -/
theorem Proper.of_back {store after : BTreeKeyValueStore} (proper : Proper store) (shard : ShardId)
    (config : after.config = store.config) (grows : store.nextTree ≤ after.nextTree)
    (back : ∀ other data, after.shards.lookup other = some data →
      (∃ history, Holds data.tree history) ∧
        ((∃ before, store.shards.lookup other = some before ∧ data.number = before.number) ∨
          other = shard ∧ data.number = store.nextTree ∧ store.nextTree < after.nextTree)) :
    Proper after where
  splits := config ▸ proper.splits
  held other data found := (back other data found).1
  numbered other data found := by
    rcases (back other data found).2 with ⟨before, old, number⟩ | ⟨-, number, fresh⟩
    · rw [number]
      exact (proper.numbered other before old).trans_le grows
    · rwa [number]
  unshared := by
    intro first firstData second secondData firstFound secondFound same
    rcases (back first firstData firstFound).2 with ⟨before, old, number⟩ | ⟨rfl, number, -⟩ <;>
      rcases (back second secondData secondFound).2 with
        ⟨other, otherOld, otherNumber⟩ | ⟨rfl, otherNumber, -⟩
    · exact proper.unshared _ _ _ _ old otherOld (by rw [← number, same, otherNumber])
    · have below := proper.numbered _ before old
      omega
    · have below := proper.numbered _ other otherOld
      omega
    · rfl

/-- The store behind calls on the tree of one shard. -/
structure Follows (shard : ShardId) (calls : List (TreeCall Bytes Bytes))
    (store after : BTreeKeyValueStore) : Prop where
  config : after.config = store.config
  nextTree : after.nextTree = store.nextTree
  transactions : after.transactions = store.transactions
  nextTxId : after.nextTxId = store.nextTxId
  others : ∀ other, other ≠ shard → after.shards.lookup other = store.shards.lookup other
  missing : store.shards.lookup shard = none → after.shards.lookup shard = none
  held : ∀ data, store.shards.lookup shard = some data → ∃ changed,
    after.shards.lookup shard = some changed ∧ changed.number = data.number ∧
      ∀ history, Holds data.tree history → Holds changed.tree (calls.reverse ++ history)

section

variable {store middle after : BTreeKeyValueStore} {shard : ShardId} {data changed : ShardData}
  {calls more : List (TreeCall Bytes Bytes)}

theorem Follows.refl (shard : ShardId) (store : BTreeKeyValueStore) : Follows shard [] store store :=
  ⟨rfl, rfl, rfl, rfl, fun _ _ => rfl, id, fun data found => ⟨data, found, rfl, fun _ => id⟩⟩

theorem Follows.trans (first : Follows shard calls store middle)
    (second : Follows shard more middle after) : Follows shard (calls ++ more) store after where
  config := second.config.trans first.config
  nextTree := second.nextTree.trans first.nextTree
  transactions := second.transactions.trans first.transactions
  nextTxId := second.nextTxId.trans first.nextTxId
  others other different := (second.others other different).trans (first.others other different)
  missing gone := second.missing (first.missing gone)
  held data found := by
    obtain ⟨changed, changedFound, number, holds⟩ := first.held data found
    obtain ⟨last, lastFound, lastNumber, lastHolds⟩ := second.held changed changedFound
    refine ⟨last, lastFound, lastNumber.trans number, fun history held => ?_⟩
    rw [List.reverse_append, List.append_assoc]
    exact lastHolds _ (holds history held)

/-- Every history of calls is that of a missing shard. -/
theorem Follows.of_missing (follows : Follows shard calls store after)
    (missing : store.shards.lookup shard = none) : Follows shard more store after :=
  { follows with held := fun data found => by cases missing.symm.trans found }

theorem Follows.putShard (found : store.shards.lookup shard = some data)
    (number : changed.number = data.number)
    (holds : ∀ history, Holds data.tree history → Holds changed.tree (calls.reverse ++ history)) :
    Follows shard calls store (store.putShard shard changed) where
  config := rfl
  nextTree := rfl
  transactions := rfl
  nextTxId := rfl
  others other different := by rw [lookup_putShard, if_neg different]
  missing gone := by cases gone.symm.trans found
  held before isBefore := by
    cases found.symm.trans isBefore
    exact ⟨changed, by rw [lookup_putShard, if_pos rfl], number, holds⟩

theorem Proper.follows (proper : Proper store) (follows : Follows shard calls store after) :
    Proper after := by
  refine proper.of_back shard follows.config follows.nextTree.ge fun other data found => ?_
  by_cases same : other = shard
  · subst same
    cases before : store.shards.lookup other with
    | none =>
      rw [follows.missing before] at found
      cases found
    | some old =>
      obtain ⟨changed, isChanged, number, holds⟩ := follows.held old before
      cases isChanged.symm.trans found
      obtain ⟨history, held⟩ := proper.held other old before
      exact ⟨⟨_, holds history held⟩, .inl ⟨old, rfl, number⟩⟩
  · rw [follows.others other same] at found
    exact ⟨proper.held other data found, .inl ⟨data, found, rfl⟩⟩

end

variable {changed : BPlusTree Bytes Bytes}

section

variable {store : BTreeKeyValueStore} {shard : ShardId} {data : ShardData}

theorem run_getShard (found : store.shards.lookup shard = some data) :
    getShard shard store = .ok data store := by
  simp only [getShard, get_bind, found]
  rfl

theorem run_getShard_missing (missing : store.shards.lookup shard = none) :
    getShard shard store = .error (.error (.shardNotFound shard)) store := by
  simp only [getShard, get_bind, missing]
  rfl

theorem run_onTree {α : Type} {operation : TreeM Bytes Bytes α} {value : α}
    (found : store.shards.lookup shard = some data) (ran : operation data.tree = .ok value changed) :
    onTree shard operation store = .ok value (store.putShard shard { data with tree := changed }) := by
  simp only [onTree, bind_ok (run_getShard found), ran]
  rfl

end

/-- What a computation does is to make calls on the tree of a shard, and it succeeds when there is
such a shard. -/
def Logs {α : Type} (shard : ShardId) (calls : List (TreeCall Bytes Bytes))
    (run : StoreM α) : Prop :=
  ∀ store, Proper store → Follows shard calls store (stateOf (run store)) ∧
    (store.shards.lookup shard ≠ none → ∃ value after, run store = .ok value after)

section

variable {α β : Type} {shard : ShardId} {calls more : List (TreeCall Bytes Bytes)}

theorem Logs.bind {first : StoreM α} {rest : α → StoreM β} (firstLogs : Logs shard calls first)
    (restLogs : ∀ value, Logs shard more (rest value)) :
    Logs shard (calls ++ more) (first >>= rest) := by
  intro store proper
  obtain ⟨follows, succeeds⟩ := firstLogs store proper
  cases ran : first store with
  | ok value middle =>
    rw [ran, stateOf_ok] at follows
    obtain ⟨restFollows, restSucceeds⟩ := restLogs value middle (proper.follows follows)
    rw [bind_ok ran]
    refine ⟨follows.trans restFollows, fun present => restSucceeds ?_⟩
    obtain ⟨data, found⟩ := Option.ne_none_iff_exists'.mp present
    obtain ⟨changed, isChanged, -⟩ := follows.held data found
    simp [isChanged]
  | error fault middle =>
    -- The first part fails on a missing shard only.
    have missing : store.shards.lookup shard = none := by
      by_contra present
      obtain ⟨value, after, isOk⟩ := succeeds present
      cases ran.symm.trans isOk
    rw [ran] at follows
    rw [bind_error ran]
    exact ⟨follows.of_missing missing, fun present => absurd missing present⟩

theorem logs_pure (value : α) : Logs shard [] (pure value) :=
  fun store _ => ⟨.refl shard store, fun _ => ⟨value, store, rfl⟩⟩

variable (shard)

theorem logs_getShard : Logs shard [] (getShard shard) := by
  intro store proper
  cases found : store.shards.lookup shard with
  | none => exact run_getShard_missing found ▸ ⟨.refl shard store, nofun⟩
  | some data => exact run_getShard found ▸ ⟨.refl shard store, fun _ => ⟨data, store, rfl⟩⟩

theorem logs_onTree {operation : TreeM Bytes Bytes α}
    (runs : ∀ tree history, Holds tree history → ∃ value changed,
      operation tree = .ok value changed ∧ Holds changed (calls.reverse ++ history)) :
    Logs shard calls (onTree shard operation) := by
  intro store proper
  cases found : store.shards.lookup shard with
  | none =>
    rw [onTree, bind_error (run_getShard_missing found)]
    exact ⟨(Follows.refl shard store).of_missing found, nofun⟩
  | some data =>
    obtain ⟨history, holds⟩ := proper.held shard data found
    obtain ⟨value, changed, ran, -⟩ := runs data.tree history holds
    rw [run_onTree found ran]
    refine ⟨.putShard found rfl fun other held => ?_, fun _ => ⟨_, _, rfl⟩⟩
    obtain ⟨_, _, again, next⟩ := runs data.tree other held
    cases ran.symm.trans again
    exact next

theorem logs_appendWal (kind : WalRecordKind) (payload : Bytes) :
    Logs shard [] (appendWal shard kind payload) := by
  intro store proper
  cases found : store.shards.lookup shard with
  | none =>
    rw [appendWal, bind_error (run_getShard_missing found)]
    exact ⟨.refl shard store, nofun⟩
  | some data =>
    rw [appendWal, bind_ok (run_getShard found)]
    cases data.wal with
    | none => exact ⟨.refl shard store, fun _ => ⟨_, _, rfl⟩⟩
    | some wal =>
      cases wal with
      | memory entries => exact ⟨.putShard found rfl fun _ => id, fun _ => ⟨_, _, rfl⟩⟩
      | directory path =>
        exact ⟨{ Follows.refl shard store with }, fun _ => ⟨_, _, rfl⟩⟩

theorem logs_logIfEnabled (kind : WalRecordKind) (payload : Bytes) :
    Logs shard [] (do if (← MonadState.get).walEnabled then appendWal shard kind payload) := by
  intro store proper
  rw [get_bind]
  split
  · exact logs_appendWal shard kind payload store proper
  · exact logs_pure () store proper

theorem logs_get (key : Bytes) : Logs shard [] (get shard key) :=
  logs_onTree shard fun tree _ holds => ⟨_, tree, holds.get key, holds⟩

theorem logs_insert (key value : Bytes) :
    Logs shard [.insert key value] (onTree shard (BPlusTree.insert key value)) :=
  logs_onTree shard fun _ _ holds =>
    let ⟨changed, ran, next⟩ := holds.insert key value
    ⟨(), changed, ran, next⟩

theorem logs_erase (key : Bytes) : Logs shard [.delete key] (onTree shard (BPlusTree.delete key)) :=
  logs_onTree shard fun _ _ holds =>
    let ⟨changed, ran, next⟩ := holds.delete key
    ⟨_, changed, ran, next⟩

theorem logs_put (key value : Bytes) : Logs shard [.insert key value] (put shard key value) :=
  (logs_logIfEnabled shard _ _).bind fun _ =>
    (logs_get shard key).bind fun _ => logs_insert shard key value

theorem logs_delete (key : Bytes) : Logs shard [.delete key] (delete shard key) :=
  (logs_logIfEnabled shard _ _).bind fun _ => logs_erase shard key

theorem logs_clear : Logs shard [.clear] (clear shard) := by
  have cleared : Logs shard [.clear] (onTree shard BPlusTree.clear) :=
    logs_onTree shard fun _ _ holds =>
      let ⟨changed, ran, next⟩ := holds.clear
      ⟨(), changed, ran, next⟩
  exact cleared.bind fun _ => logs_appendWal shard _ _

theorem logs_checkpointShard : Logs shard [] (checkpointShard shard) :=
  (logs_getShard shard).bind fun _ => logs_logIfEnabled shard _ _

/-- Applied writes are calls on the tree. -/
theorem logs_applyWrites (writes : List WriteOp) :
    Logs shard (writes.map WriteOp.toCall) (applyWrites shard writes) := by
  induction writes with
  | nil => exact logs_pure ()
  | cons write rest ih =>
    cases write with
    | put key value => exact (logs_insert shard key value).bind fun _ => ih
    | delete key => exact (logs_erase shard key).bind fun _ => ih

end

section

variable {tree : BPlusTree Bytes Bytes}

/-- A replayed record leaves a tree that holds a history. -/
theorem replayEntry_holds {history : List (TreeCall Bytes Bytes)}
    (holds : Holds tree history) {entry : WalEntry}
    (replayed : replayEntry entry tree = .ok changed) : ∃ next, Holds changed next := by
  unfold replayEntry at replayed
  split at replayed
  · split at replayed
    · cases replayed
    · obtain ⟨inserted, ran, next⟩ := holds.insert _ _
      rw [ran] at replayed
      cases replayed
      exact ⟨_, next⟩
  · split at replayed
    · cases replayed
    · obtain ⟨erased, ran, next⟩ := holds.delete _
      rw [ran] at replayed
      cases replayed
      exact ⟨_, next⟩
  · obtain ⟨cleared, ran, next⟩ := holds.clear
    rw [ran] at replayed
    cases replayed
    exact ⟨_, next⟩
  all_goals cases replayed; exact ⟨_, holds⟩

theorem replay_holds {entries : List WalEntry} (held : ∃ history, Holds tree history)
    (replayed : replay entries tree = .ok changed) : ∃ history, Holds changed history := by
  induction entries generalizing tree with
  | nil => cases replayed; exact held
  | cons entry rest ih =>
    rw [replay] at replayed
    split at replayed
    next middle first =>
      obtain ⟨history, holds⟩ := held
      exact ih (replayEntry_holds holds first) replayed
    next => cases replayed

/-- Recovery reads the store, and returns a tree that holds a history. -/
theorem run_recoverFromWal (store : BTreeKeyValueStore) (shard : ShardId)
    (held : ∃ history, Holds tree history) :
    (∃ recovered, recoverFromWal shard tree store = .ok recovered store ∧
        ∃ history, Holds recovered history) ∨
      ∃ fault, recoverFromWal shard tree store = .error fault store := by
  rw [recoverFromWal, get_bind]
  split
  next =>
    cases found : store.shards.lookup shard with
    | none => exact .inr ⟨_, bind_error (run_getShard_missing found)⟩
    | some data =>
      rw [bind_ok (run_getShard found)]
      cases data.wal with
      | none => exact .inl ⟨tree, rfl, held⟩
      | some wal =>
        simp only [get_bind]
        cases replayed : replay (store.entriesOf wal) tree with
        | ok recovered => exact .inl ⟨recovered, rfl, replay_holds held replayed⟩
        | error fault => exact .inr ⟨fault, rfl⟩
  next => exact .inl ⟨tree, rfl, held⟩

end

/-- A number was used up for a tree, and the tree stored unless its log could not be replayed. -/
def Creates (shard : ShardId) (store after : BTreeKeyValueStore) : Prop :=
  ∃ files, after = { store with nextTree := store.nextTree + 1, files } ∨
    ∃ data, (∃ history, Holds data.tree history) ∧ data.number = store.nextTree ∧
      after = ({ store with nextTree := store.nextTree + 1, files } : BTreeKeyValueStore).putShard
        shard data

section

variable {store : BTreeKeyValueStore}

theorem Proper.creates (proper : Proper store) {after : BTreeKeyValueStore} {shard : ShardId}
    (creates : Creates shard store after) : Proper after := by
  obtain ⟨files, rfl | ⟨data, held, number, rfl⟩⟩ := creates <;>
    refine proper.of_back shard rfl (Nat.le_succ _) fun other otherData found => ?_
  · exact ⟨proper.held other otherData found, .inl ⟨otherData, found, rfl⟩⟩
  · rw [lookup_putShard] at found
    split at found
    next same =>
      cases found
      exact ⟨held, .inr ⟨same, number, Nat.lt_succ_self _⟩⟩
    next => exact ⟨proper.held other otherData found, .inl ⟨otherData, found, rfl⟩⟩

/-- Opening a log changes the files at most. -/
theorem run_openWal (store : BTreeKeyValueStore) (path : String) :
    ∃ wal files, openWal path store = .ok wal { store with files } := by
  rw [openWal, run_modifyGet]
  split
  · exact ⟨_, _, rfl⟩
  · exact ⟨none, store.files, rfl⟩

theorem creates_createShardWithConfig (shard : ShardId) {config : BTreeStorageConfig}
    (order : 1 ≤ config.order) :
    Creates shard store (stateOf (createShardWithConfig shard config store)) := by
  have held : ∃ history, Holds (BPlusTree.new
      { maxKeys := config.order * 2, minKeys := config.order } : BPlusTree Bytes Bytes)
      history :=
    ⟨[], holds_new (show 2 ≤ config.order * 2 by omega)⟩
  have numbered : allocateTree store =
      .ok store.nextTree { store with nextTree := store.nextTree + 1 } := rfl
  obtain ⟨wal, files, opened⟩ :=
    run_openWal { store with nextTree := store.nextTree + 1 } config.walDir
  rw [createShardWithConfig, bind_ok numbered, bind_ok opened]
  rcases run_recoverFromWal { store with nextTree := store.nextTree + 1, files } shard held with
    ⟨recovered, ran, recoveredHeld⟩ | ⟨fault, failed⟩
  · rw [bind_ok ran]
    exact ⟨files, .inr ⟨_, recoveredHeld, rfl, rfl⟩⟩
  · rw [bind_error failed]
    exact ⟨files, .inl rfl⟩

theorem creates_createShard (proper : Proper store) (shard : ShardId) :
    Creates shard store (stateOf (createShard shard store)) := by
  have held : ∃ history, Holds (BPlusTree.new store.config : BPlusTree Bytes Bytes)
      history := ⟨[], holds_new proper.splits⟩
  have numbered : allocateTree store =
      .ok store.nextTree { store with nextTree := store.nextTree + 1 } := rfl
  rw [createShard, get_bind, bind_ok numbered, modify_bind]
  generalize (if store.walEnabled then some (.memory []) else none : Option ShardWal) = wal
  rcases run_recoverFromWal _ shard held with ⟨recovered, ran, recoveredHeld⟩ | ⟨fault, failed⟩
  · rw [bind_ok ran]
    refine ⟨store.files, .inr ⟨⟨recovered, store.nextTree, wal⟩, recoveredHeld, rfl, ?_⟩⟩
    exact congrArg (fun shards => { store with nextTree := store.nextTree + 1, shards })
      (AList.insert_insert _)
  · rw [bind_error failed]
    exact ⟨store.files, .inr ⟨_, held, rfl, rfl⟩⟩

theorem Proper.dropShard (proper : Proper store) (shard : ShardId) :
    Proper { store with shards := store.shards.erase shard } := by
  refine proper.of_back shard rfl le_rfl fun other data found => ?_
  by_cases same : other = shard
  · rw [same, AList.lookup_erase] at found
    cases found
  · rw [AList.lookup_erase_ne same] at found
    exact ⟨proper.held other data found, .inl ⟨data, found, rfl⟩⟩

/-- Transactions are no part of the invariant. -/
theorem Proper.setTransactions (proper : Proper store)
    (transactions : AList fun _ : TransactionId => BTreeTransaction) (nextTxId : Nat) :
    Proper { store with transactions, nextTxId } :=
  ⟨proper.splits, proper.held, proper.numbered, proper.unshared⟩

variable {txId : TransactionId} {tx : BTreeTransaction}

theorem run_transaction (found : store.transactions.lookup txId = some tx) :
    transaction txId store = .ok tx store := by
  simp only [transaction, get_bind, found]
  rfl

theorem run_transaction_missing (missing : store.transactions.lookup txId = none) :
    transaction txId store = .error (.error (.storageCorruption "no such transaction")) store := by
  simp only [transaction, get_bind, missing]
  rfl

theorem run_getTree {shard : ShardId} (exists_ : store.shardOfTree tx.tree = some shard) :
    getTree tx store = .ok shard store := by
  simp only [getTree, get_bind, exists_]
  rfl

theorem run_getTree_missing (missing : store.shardOfTree tx.tree = none) :
    getTree tx store = .error (.error (.storageCorruption "Tree no longer exists")) store := by
  simp only [getTree, get_bind, missing]
  rfl

end

end BTreeKeyValueStore

end Nanograph.BTree
