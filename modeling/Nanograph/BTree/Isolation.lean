import Nanograph.BTree.StoreCalls

/-!
# What a transaction reads

A transaction refers to the live tree of its shard, and no copy of it is kept. A
read of a key it has not written therefore returns what the tree holds at that
moment: the value at the beginning of the transaction, unless a write since then
left another one.
-/

namespace Nanograph.BTree

open List BPlusTree Foundation Kvt

namespace StoreCall

/-- A shard created over a file system has an order of at least one. -/
def Sized : StoreCall → Prop
  | .createShardWithConfig _ config => 1 ≤ config.order
  | _ => True

/-- The call creates or drops a shard. -/
def Replaces (shard : ShardId) : StoreCall → Prop
  | .createShard other | .createShardWithConfig other _ | .dropShard other => other = shard
  | _ => False

def Writes (txId : TransactionId) (key : Bytes) : StoreCall → Prop
  | .txPut other written _ | .txDelete other written => other = txId ∧ written = key
  | _ => False

end StoreCall

namespace BTreeKeyValueStore

/-- The writes that a call makes on the tree of a shard. -/
def writesOn (store : BTreeKeyValueStore) (shard : ShardId) :
    StoreCall → List (TreeCall Bytes Bytes)
  | .put written key value => if written = shard then [.insert key value] else []
  | .delete written key => if written = shard then [.delete key] else []
  | .clear cleared => if cleared = shard then [.clear] else []
  | .commit txId =>
    match store.transactions.lookup txId with
    | some tx =>
      if tx.active ∧ store.shardOfTree tx.tree = some shard then
        tx.writeBuffer.entries.map (·.2.toCall)
      else []
    | none => []
  | _ => []

/-- The writes that a run makes on the tree of a shard. -/
def writesDuring (store : BTreeKeyValueStore) (shard : ShardId) :
    List StoreCall → List (TreeCall Bytes Bytes)
  | [] => []
  | input :: rest => store.writesOn shard input ++ writesDuring (store.call input).2 shard rest

/-- The transactions have one that refers to a tree and has not written a key. -/
def Pending (transactions : AList fun _ : TransactionId => BTreeTransaction)
    (txId : TransactionId) (number : Nat) (key : Bytes) : Prop :=
  ∃ tx, transactions.lookup txId = some tx ∧ tx.tree = number ∧ tx.writeBuffer.lookup key = none

variable {transactions : AList fun _ : TransactionId => BTreeTransaction} {data : ShardData}
  {store : BTreeKeyValueStore}

/-- A change of another transaction, or of another key of the same one. -/
theorem Pending.insert {txId other : TransactionId} {number : Nat} {key : Bytes}
    {tx changed : BTreeTransaction} (pending : Pending transactions txId number key)
    (found : transactions.lookup other = some tx) (tree : changed.tree = tx.tree)
    (unwritten : other = txId → tx.writeBuffer.lookup key = none →
      changed.writeBuffer.lookup key = none) :
    Pending (transactions.insert other changed) txId number key := by
  obtain ⟨held, heldFound, heldTree, heldUnwritten⟩ := pending
  by_cases equal : other = txId
  · subst equal
    cases found.symm.trans heldFound
    exact ⟨changed, AList.lookup_insert _, tree.trans heldTree, unwritten rfl heldUnwritten⟩
  · exact ⟨held, (AList.lookup_insert_ne (Ne.symm equal)).trans heldFound, heldTree, heldUnwritten⟩

/-- What a call does that neither creates nor drops a shard: it makes its writes on the tree of
one shard, and changes transactions. -/
structure Advances (input : StoreCall) (store after middle : BTreeKeyValueStore) (shard : ShardId)
    (calls : List (TreeCall Bytes Bytes)) : Prop where
  follows : Follows shard calls store middle
  writes : ∀ other, store.writesOn other input = if shard = other then calls else []
  shards : ∃ transactions nextTxId, after = { middle with transactions, nextTxId }
  issued : store.nextTxId ≤ after.nextTxId
  pending : ∀ txId number key, txId.raw < store.nextTxId → ¬input.Writes txId key →
    Pending store.transactions txId number key → Pending after.transactions txId number key

section

variable {store : BTreeKeyValueStore} {shard : ShardId} {number : Nat}

theorem shardOfTree_spec (found : store.shardOfTree number = some shard) :
    ∃ data, store.shards.lookup shard = some data ∧ data.number = number := by
  obtain ⟨entry, foundEntry, rfl⟩ := Option.map_eq_some_iff.mp found
  refine ⟨entry.2, AList.mem_lookup_iff.mpr (mem_of_find?_eq_some foundEntry), ?_⟩
  simpa using find?_some foundEntry

/-- Every shard is found by the number of its tree. -/
theorem Proper.shardOfTree_eq (proper : Proper store)
    (found : store.shards.lookup shard = some data) :
    store.shardOfTree data.number = some shard := by
  cases searched : store.shardOfTree data.number with
  | none =>
    rw [shardOfTree, Option.map_eq_none_iff, find?_eq_none] at searched
    have missed := searched _ (AList.mem_lookup_iff.mp found)
    simp at missed
  | some other =>
    obtain ⟨otherData, otherFound, same⟩ := shardOfTree_spec searched
    rw [proper.unshared other otherData shard data otherFound found same]

variable {input : StoreCall}

/-- A call that makes its writes on the tree of one shard. -/
theorem Proper.advances_logs {α : Type} (proper : Proper store) {shard : ShardId}
    {calls : List (TreeCall Bytes Bytes)} {run : StoreM α} (logs : Logs shard calls run)
    (writes : ∀ other, store.writesOn other input = if shard = other then calls else []) :
    ∃ middle shard calls, Advances input store (stateOf (run store)) middle shard calls := by
  have follows := (logs store proper).1
  exact ⟨_, shard, calls, follows, writes, ⟨_, _, rfl⟩, follows.nextTxId.ge,
    fun _ _ _ _ _ pending => follows.transactions ▸ pending⟩

/-- A call that changes transactions only. -/
theorem advances_transactions {nextTxId : Nat} (shard : ShardId)
    (nothing : ∀ other, store.writesOn other input = []) (issued : store.nextTxId ≤ nextTxId)
    (pending : ∀ txId number key, txId.raw < store.nextTxId → ¬input.Writes txId key →
      Pending store.transactions txId number key → Pending transactions txId number key) :
    ∃ middle shard calls,
      Advances input store { store with transactions, nextTxId } middle shard calls :=
  ⟨store, shard, [], .refl shard store, fun other => by rw [nothing, ite_self], ⟨_, _, rfl⟩, issued,
    pending⟩

theorem advances_unchanged (nothing : ∀ other, store.writesOn other input = []) :
    ∃ middle shard calls, Advances input store store middle shard calls :=
  advances_transactions ⟨0⟩ nothing le_rfl fun _ _ _ _ _ pending => pending

/-- A call that changes one active transaction. -/
theorem advances_change {txId : TransactionId} {change : BTreeTransaction → BTreeTransaction}
    {otherwise : StoreM Unit} (idle : stateOf (otherwise store) = store)
    (nothing : ∀ other, store.writesOn other input = []) (tree : ∀ tx, (change tx).tree = tx.tree)
    (unwritten : ∀ tx key, ¬input.Writes txId key → tx.writeBuffer.lookup key = none →
      (change tx).writeBuffer.lookup key = none) :
    ∃ middle shard calls, Advances input store
      (stateOf ((do
        let tx ← transaction txId
        if tx.active then putTransaction txId (change tx) else otherwise) store))
      middle shard calls := by
  cases found : store.transactions.lookup txId with
  | none =>
    rw [bind_error (run_transaction_missing found)]
    exact advances_unchanged nothing
  | some tx =>
    rw [bind_ok (run_transaction found)]
    split
    · refine advances_transactions ⟨0⟩ nothing le_rfl fun other _ key _ allowed pending => ?_
      exact pending.insert found (tree tx) fun same => unwritten tx key (same ▸ allowed)
    · rw [idle]
      exact advances_unchanged nothing

theorem advances_beginTransaction (first : ShardId) :
    ∃ middle shard calls, Advances (.beginTransaction first) store
      (stateOf (beginTransaction first store)) middle shard calls := by
  rw [beginTransaction, get_bind]
  cases store.firstShard first with
  | none => exact advances_unchanged fun _ => rfl
  | some data =>
    refine advances_transactions first (fun _ => rfl) (Nat.le_succ _) ?_
    rintro txId number key issued - ⟨tx, found, facts⟩
    refine ⟨tx, (AList.lookup_insert_ne ?_).trans found, facts⟩
    rintro rfl
    exact absurd issued (lt_irrefl _)

section

variable (proper : Proper store)

include proper

theorem Proper.advances_txGet (txId : TransactionId) (key : Bytes) :
    ∃ middle shard calls, Advances (.txGet txId key) store (stateOf (txGet txId key store))
      middle shard calls := by
  have unchanged : ∃ middle shard calls,
      Advances (.txGet txId key) store store middle shard calls :=
    advances_unchanged fun _ => rfl
  rw [txGet]
  cases found : store.transactions.lookup txId with
  | none => rwa [bind_error (run_transaction_missing found)]
  | some tx =>
    rw [bind_ok (run_transaction found)]
    rcases tx.writeBuffer.lookup key with - | ⟨_, value⟩ | ⟨_⟩
    · cases owner : store.shardOfTree tx.tree with
      | none => simpa only [bind_error (run_getTree_missing owner), stateOf_error] using unchanged
      | some shard =>
        simp only [bind_ok (run_getTree owner)]
        exact proper.advances_logs (logs_get shard key) fun _ => (ite_self _).symm
    · exact unchanged
    · exact unchanged

theorem Proper.advances_commit (txId : TransactionId) :
    ∃ middle shard calls, Advances (.commit txId) store (stateOf (commit txId store))
      middle shard calls := by
  rw [commit]
  cases found : store.transactions.lookup txId with
  | none =>
    rw [bind_error (run_transaction_missing found)]
    exact advances_unchanged (by simp [writesOn, found])
  | some tx =>
    rw [bind_ok (run_transaction found)]
    by_cases active : tx.active = true
    · rw [if_pos active]
      cases owner : store.shardOfTree tx.tree with
      | none =>
        rw [bind_error (run_getTree_missing owner)]
        exact advances_unchanged (by simp [writesOn, found, owner])
      | some shard =>
        obtain ⟨data, present, -⟩ := shardOfTree_spec owner
        obtain ⟨follows, succeeds⟩ :=
          logs_applyWrites shard (tx.writeBuffer.entries.map (·.2)) store proper
        obtain ⟨_, middle, applied⟩ := succeeds (by simp [present])
        rw [applied, stateOf_ok] at follows
        rw [bind_ok (run_getTree owner), bind_ok applied]
        refine ⟨middle, shard, _, follows, ?_, ⟨_, _, rfl⟩, follows.nextTxId.ge, ?_⟩
        · simp [writesOn, found, active, owner, Function.comp_def]
        · intro other number key _ _ pending
          rw [← follows.transactions] at found pending
          exact pending.insert found rfl fun _ => id
    · rw [if_neg active]
      exact advances_unchanged (by simp [writesOn, found, active])

/-- Every call but the creation and the drop of a shard. -/
theorem Proper.advances_call (keeps : ∀ shard, ¬input.Replaces shard) :
    ∃ middle shard calls, Advances input store (store.call input).2 middle shard calls := by
  cases input with
  | createShard shard => exact absurd rfl (keeps shard)
  | createShardWithConfig shard config => exact absurd rfl (keeps shard)
  | dropShard shard => exact absurd rfl (keeps shard)
  | get shard key =>
    exact respond_snd _ _ store ▸
      proper.advances_logs (logs_get shard key) fun _ => (ite_self _).symm
  | put shard key value =>
    exact respond_snd _ _ store ▸ proper.advances_logs (logs_put shard key value) fun _ => rfl
  | delete shard key =>
    exact respond_snd _ _ store ▸ proper.advances_logs (logs_delete shard key) fun _ => rfl
  | clear shard =>
    exact respond_snd _ _ store ▸ proper.advances_logs (logs_clear shard) fun _ => rfl
  | checkpointShard shard =>
    exact respond_snd _ _ store ▸
      proper.advances_logs (logs_checkpointShard shard) fun _ => (ite_self _).symm
  | beginTransaction first => exact respond_snd _ _ store ▸ advances_beginTransaction first
  | txGet txId key => exact respond_snd _ _ store ▸ proper.advances_txGet txId key
  | txPut txId key value =>
    rw [call, respond_snd]
    refine advances_change rfl (fun _ => rfl) (fun _ => rfl) fun tx other allowed unwritten => ?_
    exact (AList.lookup_insert_ne fun same => allowed ⟨rfl, same.symm⟩).trans unwritten
  | txDelete txId key =>
    rw [call, respond_snd, txDelete, stateOf_bind_pure]
    refine advances_change rfl (fun _ => rfl) (fun _ => rfl) fun tx other allowed unwritten => ?_
    exact (AList.lookup_insert_ne fun same => allowed ⟨rfl, same.symm⟩).trans unwritten
  | commit txId => exact respond_snd _ _ store ▸ proper.advances_commit txId
  | rollback txId =>
    rw [call, respond_snd]
    exact advances_change rfl (fun _ => rfl) (fun _ => rfl) fun _ _ _ _ => rfl

theorem Proper.of_advances {after : BTreeKeyValueStore}
    (advances : ∃ middle shard calls, Advances input store after middle shard calls) :
    Proper after := by
  obtain ⟨middle, _, _, advances⟩ := advances
  obtain ⟨transactions, nextTxId, rfl⟩ := advances.shards
  exact (proper.follows advances.follows).setTransactions _ _

/-- Every call keeps the invariant. -/
theorem Proper.call (sized : input.Sized) : Proper (store.call input).2 := by
  cases input with
  | createShard shard =>
    exact respond_snd _ _ store ▸ proper.creates (creates_createShard proper shard)
  | createShardWithConfig shard config =>
    exact respond_snd _ _ store ▸ proper.creates (creates_createShardWithConfig shard sized)
  | dropShard shard => exact respond_snd _ _ store ▸ proper.dropShard shard
  | _ => exact proper.of_advances (proper.advances_call fun _ => id)

end

end

/-- Every store reached by calls is proper. -/
theorem proper_final (proper : Proper store) {calls : List StoreCall}
    (sized : ∀ input ∈ calls, input.Sized) : Proper (call.final store calls) := by
  induction calls generalizing store with
  | nil => exact proper
  | cons input rest ih =>
    exact ih (proper.call (sized input (by simp)))
      fun other mem => sized other (mem_cons_of_mem _ mem)

/-- A transaction reads a key from the tree of a shard, which holds a history. -/
structure Watching (shard : ShardId) (number : Nat) (txId : TransactionId) (key : Bytes)
    (history : List (TreeCall Bytes Bytes)) (store : BTreeKeyValueStore) : Prop where
  proper : Proper store
  held : ∃ data, store.shards.lookup shard = some data ∧ data.number = number ∧
    Holds data.tree history
  pending : ∃ tx, store.transactions.lookup txId = some tx ∧ tx.tree = number ∧
    tx.writeBuffer.lookup key = none
  issued : txId.raw < store.nextTxId

namespace Watching

variable {shard : ShardId} {number : Nat} {txId : TransactionId} {key : Bytes}
  {history : List (TreeCall Bytes Bytes)} {store : BTreeKeyValueStore}

variable {after : BTreeKeyValueStore}

section

variable (watching : Watching shard number txId key history store)

include watching

/-- A step that leaves the shard and the transactions alone. -/
theorem frame {after : BTreeKeyValueStore} (proper : Proper after)
    (shards : after.shards.lookup shard = store.shards.lookup shard)
    (transactions : after.transactions = store.transactions)
    (nextTxId : after.nextTxId = store.nextTxId) :
    Watching shard number txId key history after where
  proper := proper
  held := shards ▸ watching.held
  pending := transactions ▸ watching.pending
  issued := nextTxId ▸ watching.issued

theorem creates {other : ShardId} (creates : Creates other store after) (different : other ≠ shard) :
    Watching shard number txId key history after := by
  have proper := watching.proper.creates creates
  obtain ⟨files, rfl | ⟨data, -, -, rfl⟩⟩ := creates
  · exact watching.frame proper rfl rfl rfl
  · exact watching.frame proper (by rw [lookup_putShard, if_neg different.symm]) rfl rfl

theorem advances {input : StoreCall}
    (advances : ∃ middle written calls, Advances input store after middle written calls)
    (unwritten : ¬input.Writes txId key) :
    Watching shard number txId key ((store.writesOn shard input).reverse ++ history) after := by
  have proper := watching.proper.of_advances advances
  obtain ⟨middle, written, calls, advances⟩ := advances
  refine ⟨proper, ?_, advances.pending _ _ _ watching.issued unwritten watching.pending,
    watching.issued.trans_le advances.issued⟩
  obtain ⟨data, found, isNumber, holds⟩ := watching.held
  obtain ⟨transactions, nextTxId, rfl⟩ := advances.shards
  rw [advances.writes]
  split
  next same =>
    subst same
    obtain ⟨changed, isChanged, sameNumber, next⟩ := advances.follows.held data found
    exact ⟨changed, isChanged, sameNumber.trans isNumber, next history holds⟩
  next different =>
    exact ⟨data, (advances.follows.others shard (Ne.symm different)).trans found, isNumber, holds⟩

/-- One call of others, or one of the transaction that does not write the key. -/
theorem step {input : StoreCall} (sized : input.Sized) (keeps : ¬input.Replaces shard)
    (unwritten : ¬input.Writes txId key) :
    Watching shard number txId key ((store.writesOn shard input).reverse ++ history)
      (store.call input).2 := by
  cases input with
  | createShard other =>
    exact respond_snd _ _ store ▸ watching.creates (creates_createShard watching.proper other) keeps
  | createShardWithConfig other config =>
    exact respond_snd _ _ store ▸ watching.creates (creates_createShardWithConfig other sized) keeps
  | dropShard other =>
    exact respond_snd _ _ store ▸ watching.frame (watching.proper.dropShard other)
      (AList.lookup_erase_ne (Ne.symm keeps)) rfl rfl
  | _ => exact watching.advances (watching.proper.advances_call fun _ => id) unwritten

end

/-- A run of calls of others, and of calls of the transaction that do not write the key. -/
theorem run (watching : Watching shard number txId key history store) {calls : List StoreCall}
    (sized : ∀ input ∈ calls, input.Sized) (keeps : ∀ input ∈ calls, ¬input.Replaces shard)
    (unwritten : ∀ input ∈ calls, ¬input.Writes txId key) :
    Watching shard number txId key ((store.writesDuring shard calls).reverse ++ history)
      (call.final store calls) := by
  induction calls generalizing store history with
  | nil => exact watching
  | cons input rest ih =>
    have next := watching.step (sized input (by simp)) (keeps input (by simp))
      (unwritten input (by simp))
    rw [writesDuring, reverse_append, append_assoc]
    exact ih next
      (fun other mem => sized other (mem_cons_of_mem _ mem))
      (fun other mem => keeps other (mem_cons_of_mem _ mem))
      (fun other mem => unwritten other (mem_cons_of_mem _ mem))

/-- A read by the transaction returns what the history left under the key. -/
theorem txGet_answer (watching : Watching shard number txId key history store) :
    (store.call (.txGet txId key)).1 = .ok (.found (valueAfter history key)) := by
  obtain ⟨data, found, numberEq, holds⟩ := watching.held
  obtain ⟨tx, txFound, treeEq, unwritten⟩ := watching.pending
  have owner : store.shardOfTree tx.tree = some shard := by
    rw [treeEq, ← numberEq]
    exact watching.proper.shardOfTree_eq found
  have ran : BTreeKeyValueStore.txGet txId key store =
      .ok (valueAfter history key) (store.putShard shard { data with tree := data.tree }) := by
    simp only [BTreeKeyValueStore.txGet, bind_ok (run_transaction txFound), unwritten,
      bind_ok (run_getTree owner)]
    exact run_onTree found (holds.get key)
  rw [call, respond, ran]

end Watching

/-- A transaction that has not written a key reads the value the key had when it began
exactly when the last write of the key since then, if there is one, left that value. -/
theorem txGet_as_begun_iff {config : BPlusTreeConfig} (splits : 2 ≤ config.maxKeys)
    (walEnabled : Bool) (files : AList fun _ : String => List WalEntry)
    (earlier later : List StoreCall) (shard : ShardId) (key : Bytes)
    (sized : ∀ input ∈ earlier ++ later, input.Sized) :
    let store := call.final (start config walEnabled files) earlier
    let begun := (store.call (.beginTransaction shard)).2
    let txId : TransactionId := ⟨store.nextTxId⟩
    (store.shards.lookup shard).isSome →
    (∀ input ∈ later, ¬input.Replaces shard ∧ ¬input.Writes txId key) →
    (((call.final begun later).call (.txGet txId key)).1 = (store.call (.get shard key)).1 ↔
      ∀ value, lastWrite (begun.writesDuring shard later).reverse key = some value →
        (store.call (.get shard key)).1 = .ok (.found value)) := by
  intro store begun txId present others
  obtain ⟨data, found⟩ := Option.isSome_iff_exists.mp present
  have proper : Proper store :=
    proper_final ⟨splits, by rintro _ _ ⟨⟩, by rintro _ _ ⟨⟩, by rintro _ _ _ _ ⟨⟩⟩
      fun input mem => sized input (mem_append_left _ mem)
  obtain ⟨history, holds⟩ := proper.held shard data found
  have watching : Watching shard data.number txId key history begun := by
    have first : store.firstShard shard = some data := by rw [firstShard, found]; rfl
    have begunEq : begun =
        { store with
          nextTxId := store.nextTxId + 1
          transactions := store.transactions.insert txId
            { tree := data.number, writeBuffer := ∅, active := true } } := by
      simp only [begun, call, respond_snd, beginTransaction, get_bind, first]
      rfl
    rw [begunEq]
    exact
      { proper := proper.setTransactions _ _
        held := ⟨data, found, rfl, holds⟩
        pending := ⟨_, AList.lookup_insert _, rfl, rfl⟩
        issued := Nat.lt_succ_self _ }
  have after := watching.run (fun input mem => sized input (mem_append_right _ mem))
    (fun input mem => (others input mem).1) (fun input mem => (others input mem).2)
  rw [after.txGet_answer, call, respond, get, run_onTree found (holds.get key), valueAfter_append]
  cases written : lastWrite (begun.writesDuring shard later).reverse key with
  | none => simp
  | some value => simp [eq_comm]

theorem txGet_as_begun_iff_other_key :
    let store := call.final (start { maxKeys := 4, minKeys := 2 } true ∅)
      [.createShard ⟨1⟩, .put ⟨1⟩ [1] [7]]
    let begun := (store.call (.beginTransaction ⟨1⟩)).2
    ((call.final begun [.put ⟨1⟩ [2] [8], .delete ⟨1⟩ [3]]).call (.txGet ⟨1⟩ [1])).1 =
      (store.call (.get ⟨1⟩ [1])).1 := by
  refine (txGet_as_begun_iff (by decide) true ∅ _ _ ⟨1⟩ [1] ?_ (by decide +kernel) ?_).mpr ?_
  · simp [StoreCall.Sized]
  · simp [StoreCall.Replaces, StoreCall.Writes]
  · simp [writesDuring, writesOn, lastWrite]

/-- A put after the beginning of a transaction is seen by it. -/
theorem txGet_sees_later_put :
    let store := call.final (start { maxKeys := 4, minKeys := 2 } true ∅)
      [.createShard ⟨1⟩, .put ⟨1⟩ [1] [7]]
    let begun := (store.call (.beginTransaction ⟨1⟩)).2
    (store.call (.get ⟨1⟩ [1])).1 = .ok (.found (some [7])) ∧
      ((call.final begun [.put ⟨1⟩ [1] [8]]).call (.txGet ⟨1⟩ [1])).1 =
        .ok (.found (some [8])) := by
  decide +kernel

end BTreeKeyValueStore

end Nanograph.BTree
