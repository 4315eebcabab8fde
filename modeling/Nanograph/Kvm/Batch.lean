import Nanograph.Kvm.Context

/-!
# Batches against single writes

Writing several entries of a table at once splits them into one batch for each shard. Every
entry goes to the batch of the shard that a single write would go to, so the same is left
behind as by single writes in the order of the list.
-/

namespace Nanograph.Kvm

open List Nanograph.Core Foundation Kvt Raft KeyValueShardManager

namespace KeyValueDatabaseContext

/-- What writing an entry does to a shard that may be missing. -/
def putOn (shard : Option Shard) (pair : Record) : Option Shard :=
  shard.map (·.put pair.1 pair.2)

theorem foldl_putOn (shard : Option Shard) (pairs : List Record) :
    pairs.foldl putOn shard = shard.map (·.putAll pairs) := by
  induction pairs generalizing shard with
  | nil => cases shard <;> rfl
  | cons pair rest ih =>
    rw [foldl_cons, ih, putOn, Option.map_map]
    rfl

/-- Write entries of a table one by one. -/
def tableEntryPuts (hash : Bytes → UInt64) (context : KeyValueDatabaseContext)
    (principal : SecurityPrincipal) (containerId : ContainerId) (tableId : ObjectId) :
    List Record → Answer Unit
  | [] => (.ok (), context)
  | pair :: rest =>
    match context.tableEntryPut hash principal containerId tableId pair.1 pair.2 with
    | (.ok (), context) => tableEntryPuts hash context principal containerId tableId rest
    | (.error error, context) => (.error error, context)

variable {hash : Bytes → UInt64} {context after : KeyValueDatabaseContext}
  {principal : SecurityPrincipal} {containerId : ContainerId} {tableId : ObjectId}

/-- Batches that are all written. -/
theorem batchPuts_eq_ok {manager after : KeyValueShardManager}
    {groups : List (ShardId × List Record)} (written : batchPuts manager groups = .ok after) :
    (∀ group ∈ groups, manager.Available group.1) ∧
      after = manager.withContents (runGroups putOn manager.contents groups) := by
  induction groups generalizing manager with
  | nil =>
    obtain rfl := Except.ok.inj written
    exact ⟨by simp, withContents_contents.symm⟩
  | cons group rest ih =>
    obtain ⟨shardId, pairs⟩ := group
    rw [batchPuts] at written
    cases first : manager.batchPut shardId pairs with
    | error error => simp [first, bind, Except.bind] at written
    | ok next =>
      simp only [first, bind, Except.bind] at written
      obtain ⟨available, rfl⟩ := writeShard_eq_ok.mp first
      obtain ⟨others, rfl⟩ := ih written
      refine ⟨forall_mem_cons.mpr ⟨available, fun other mem => ?_⟩, ?_⟩
      · exact (available_write available _ _).mp (others other mem)
      · rw [withContents_withContents, contents_write available, ← foldl_putOn]
        rfl

variable {pair : Record} {routed : List (ShardId × Record)} {pairs : List Record}
  {router : ConsensusManager}

/-- The checks of pairs are the checks of each of them. -/
theorem validatePairs_cons {rest : List Record} (valid : validatePairs (pair :: rest) = .ok ()) :
    validateUserKey pair.1 = .ok () ∧ validatePairs rest = .ok () := by
  rw [validatePairs] at valid
  cases first : validateUserKey pair.1 with
  | error error => simp [first, bind, Except.bind] at valid
  | ok checked => simpa [first, bind, Except.bind] using valid

theorem routePairs_cons {rest : List Record}
    (routes : context.routePairs containerId tableId (pair :: rest) = .ok routed) :
    ∃ shardId later, context.getTableShardForKey containerId tableId pair.1 = .ok shardId ∧
      context.routePairs containerId tableId rest = .ok later ∧
      routed = (shardId, pair) :: later := by
  rw [routePairs] at routes
  cases found : context.getTableShardForKey containerId tableId pair.1 with
  | error error => simp [found, bind, Except.bind] at routes
  | ok shardId =>
    cases others : context.routePairs containerId tableId rest with
    | error error => simp [found, others, bind, Except.bind] at routes
    | ok later =>
      simp only [found, others, bind, Except.bind, pure, Except.pure, Except.ok.injEq] at routes
      exact ⟨shardId, later, rfl, rfl, routes.symm⟩

theorem routePairs_of_known (known : ∀ pair ∈ pairs, ∃ shardId,
      context.getTableShardForKey containerId tableId pair.1 = .ok shardId) :
    ∃ routed, context.routePairs containerId tableId pairs = .ok routed := by
  induction pairs with
  | nil => exact ⟨[], rfl⟩
  | cons pair rest ih =>
    obtain ⟨⟨shardId, found⟩, others⟩ := forall_mem_cons.mp known
    obtain ⟨later, routes⟩ := ih others
    refine ⟨(shardId, pair) :: later, ?_⟩
    simp only [routePairs, found, routes, bind, Except.bind, pure, Except.pure]

/-- The checks in front of a write that is permitted. -/
theorem checkEntry_eq {permission : Permission} {key : Bytes} {shardId : ShardId}
    (permitted : principal.hasTablePermission permission containerId.tenant
      containerId.database tableId = true) (valid : validateUserKey key = .ok ())
    (found : context.getTableShardForKey containerId tableId key = .ok shardId) :
    context.checkEntry principal containerId tableId permission key = .ok shardId := by
  rw [checkEntry, if_pos permitted, valid, found]
  rfl

/-- Routing depends on what is known of the tables only. -/
theorem routePairs_of_same {other : KeyValueDatabaseContext}
    (routes : context.routePairs containerId tableId pairs = .ok routed)
    (same : other.containerMetacaches = context.containerMetacaches) :
    other.routePairs containerId tableId pairs = .ok routed := by
  rw [← routes]
  clear routes
  induction pairs with
  | nil => rfl
  | cons pair rest ih =>
    rw [routePairs, routePairs, ih, getTableShardForKey, getTableShardForKey, same]

section

variable (permitted : principal.hasTablePermission .tableDataInsert containerId.tenant
    containerId.database tableId = true)

include permitted

/-- A permitted write of a valid key to an available shard, in standalone mode. -/
theorem tableEntryPut_standalone (standalone : context.raftRouter = none)
    (valid : validateUserKey pair.1 = .ok ()) {shardId : ShardId}
    (found : context.getTableShardForKey containerId tableId pair.1 = .ok shardId)
    (available : context.shardManager.Available shardId) :
    context.tableEntryPut hash principal containerId tableId pair.1 pair.2 =
      (.ok (), { context with
        shardManager := context.shardManager.withContents (Function.update
          context.shardManager.contents shardId
          (putOn (context.shardManager.contents shardId) pair)) }) := by
  have put : context.shardManager.writeShard shardId (·.put pair.1 pair.2) = .ok _ :=
    writeShard_eq_ok.mpr ⟨available, rfl⟩
  simp only [tableEntryPut, checkEntry_eq permitted valid found, standalone,
    KeyValueShardManager.put, put, withShards]
  rfl

/-- In standalone mode entries are written one by one when their shards are available. -/
theorem tableEntryPuts_standalone (context : KeyValueDatabaseContext)
    (standalone : context.raftRouter = none) (valid : validatePairs pairs = .ok ())
    (routes : context.routePairs containerId tableId pairs = .ok routed)
    (available : ∀ item ∈ routed, context.shardManager.Available item.1) :
    context.tableEntryPuts hash principal containerId tableId pairs =
      (.ok (), { context with
        shardManager := context.shardManager.withContents
          (runEach putOn context.shardManager.contents routed) }) := by
  induction pairs generalizing context routed with
  | nil =>
    obtain rfl := Except.ok.inj routes
    simp only [tableEntryPuts, runEach, foldl_nil, withContents_contents]
  | cons pair rest ih =>
    obtain ⟨validFirst, validRest⟩ := validatePairs_cons valid
    obtain ⟨shardId, later, found, others, rfl⟩ := routePairs_cons routes
    obtain ⟨first, behind⟩ := forall_mem_cons.mp available
    rw [tableEntryPuts, tableEntryPut_standalone permitted standalone validFirst found first]
    -- the rest goes to the same shards, which are still available
    have remaining := ih { context with
      shardManager := context.shardManager.withContents (Function.update
        context.shardManager.contents shardId
        (putOn (context.shardManager.contents shardId) pair)) }
      standalone validRest (routePairs_of_same others rfl)
      fun item mem => (available_write first _ _).mpr (behind item mem)
    simp only [withContents_withContents, contents_write first] at remaining
    exact remaining

/-- In distributed mode entries of a table that is known are written one by one when the
consensus manager writes them. -/
theorem tableEntryPuts_distributed {after : ConsensusManager}
    (distributed : context.raftRouter = some router) (valid : validatePairs pairs = .ok ())
    (routes : context.routePairs containerId tableId pairs = .ok routed)
    (performed : router.performAll hash (pairs.map fun pair => .put pair.1 pair.2) = .ok after) :
    context.tableEntryPuts hash principal containerId tableId pairs =
      (.ok (), { context with raftRouter := some after }) := by
  induction pairs generalizing context routed router with
  | nil =>
    obtain rfl := Except.ok.inj performed
    rw [tableEntryPuts, ← distributed]
  | cons pair rest ih =>
    obtain ⟨validFirst, validRest⟩ := validatePairs_cons valid
    obtain ⟨shardId, later, found, others, rfl⟩ := routePairs_cons routes
    rw [map_cons, ConsensusManager.performAll, ConsensusManager.perform] at performed
    cases put : router.put hash pair.1 pair.2 with
    | error error => simp [put, bind, Except.bind] at performed
    | ok next =>
      simp only [put, bind, Except.bind] at performed
      have one : context.tableEntryPut hash principal containerId tableId pair.1 pair.2 =
          (.ok (), { context with raftRouter := some next }) := by
        simp only [tableEntryPut, checkEntry_eq permitted validFirst found, distributed, put,
          withRouter]
      rw [tableEntryPuts, one]
      exact ih rfl validRest (routePairs_of_same others rfl)
        performed

end

/-- A batch that succeeds was permitted, and its keys are valid. -/
theorem tableEntryBatchPut_eq_ok {order : VisitOrder (ShardId × List Record)}
    {operationOrder : VisitOrder (ShardId × List Operation)}
    (written : context.tableEntryBatchPut hash principal containerId tableId order operationOrder
      pairs = (.ok (), after)) :
    principal.hasTablePermission .tableDataInsert containerId.tenant containerId.database
        tableId = true ∧ validatePairs pairs = .ok () ∧
      match context.raftRouter with
      | some router => context.withRouter ()
          (router.batch hash operationOrder (pairs.map fun pair => .put pair.1 pair.2)) =
            (.ok (), after)
      | none => context.withShards () (context.routePairs containerId tableId pairs >>=
          fun routed => batchPuts context.shardManager (order.visit (grouped routed))) =
            (.ok (), after) := by
  rw [tableEntryBatchPut] at written
  by_cases permitted : principal.hasTablePermission .tableDataInsert containerId.tenant
      containerId.database tableId = true
  · rw [if_pos permitted] at written
    cases valid : validatePairs pairs with
    | error error => simp [valid] at written
    | ok checked =>
      rw [valid] at written
      refine ⟨permitted, rfl, ?_⟩
      cases mode : context.raftRouter <;> rw [mode] at written <;> exact written
  · simp [permitted] at written

theorem withShards_eq_ok {changed : Except ContextError KeyValueShardManager}
    (done : context.withShards () changed = (.ok (), after)) :
    ∃ shardManager, changed = .ok shardManager ∧ after = { context with shardManager } := by
  cases changed with
  | error error => simp [withShards] at done
  | ok shardManager => exact ⟨shardManager, rfl, (Prod.mk.inj done).2.symm⟩

theorem withRouter_eq_ok {changed : Except ConsensusError ConsensusManager}
    (done : context.withRouter () changed = (.ok (), after)) :
    ∃ router, changed = .ok router ∧ after = { context with raftRouter := some router } := by
  cases changed with
  | error error => simp [withRouter] at done
  | ok router => exact ⟨router, rfl, (Prod.mk.inj done).2.symm⟩

section

variable {order : VisitOrder (ShardId × List Record)}
  {operationOrder : VisitOrder (ShardId × List Operation)} {pairs : List Record}
  (written : context.tableEntryBatchPut hash principal containerId tableId order operationOrder
    pairs = (.ok (), after))

include written

/-- In standalone mode a batch of entries leaves what single writes leave. -/
theorem tableEntryBatchPut_standalone (standalone : context.raftRouter = none) :
    context.tableEntryPuts hash principal containerId tableId pairs = (.ok (), after) := by
  obtain ⟨permitted, valid, done⟩ := tableEntryBatchPut_eq_ok written
  rw [standalone] at done
  obtain ⟨shardManager, changed, rfl⟩ := withShards_eq_ok done
  cases routes : context.routePairs containerId tableId pairs with
  | error error => simp [routes, bind, Except.bind] at changed
  | ok routed =>
    simp only [routes, bind, Except.bind] at changed
    obtain ⟨available, rfl⟩ := batchPuts_eq_ok changed
    simp only [(order.perm (grouped routed)).mem_iff] at available
    rw [runGroups_visit]
    exact tableEntryPuts_standalone permitted context standalone valid routes
      ((forall_keys_grouped context.shardManager.Available).mp available)

/-- In distributed mode a batch of entries leaves what single writes leave. The table has to be
known for the single writes; the batch does not ask for it. -/
theorem tableEntryBatchPut_distributed (distributed : context.raftRouter = some router) :
    (∃ router', router.performAll hash (pairs.map fun pair => .put pair.1 pair.2) = .ok router' ∧
        after = { context with raftRouter := some router' }) ∧
      ∀ routed, context.routePairs containerId tableId pairs = .ok routed →
        context.tableEntryPuts hash principal containerId tableId pairs = (.ok (), after) := by
  obtain ⟨permitted, valid, done⟩ := tableEntryBatchPut_eq_ok written
  rw [distributed] at done
  obtain ⟨router', changed, rfl⟩ := withRouter_eq_ok done
  have performed := ConsensusManager.batch_eq_ok_iff.mp changed
  refine ⟨⟨router', performed, rfl⟩, fun routed routes => ?_⟩
  exact tableEntryPuts_distributed permitted distributed valid routes performed

end

/-- A batch leaves what its operations leave one by one in their order, whatever the order in
which the shards are visited: for the consensus manager, for the entries of a table in
standalone mode, and for them in distributed mode, where the operations are the ones of the
consensus manager and, for a table that is known, the single writes of entries. -/
theorem batches_as_single_writes (hash : Bytes → UInt64) :
    (∀ (manager after : ConsensusManager) order operations,
      manager.batch hash order operations = .ok after ↔
        manager.performAll hash operations = .ok after) ∧
    (∀ (context after : KeyValueDatabaseContext) principal containerId tableId order
        operationOrder pairs,
      context.tableEntryBatchPut hash principal containerId tableId order operationOrder pairs =
          (.ok (), after) →
        match context.raftRouter with
        | none =>
          context.tableEntryPuts hash principal containerId tableId pairs = (.ok (), after)
        | some router =>
          (∃ router', router.performAll hash (pairs.map fun pair => .put pair.1 pair.2) =
              .ok router' ∧ after = { context with raftRouter := some router' }) ∧
            ((∀ pair ∈ pairs, ∃ shardId,
                context.getTableShardForKey containerId tableId pair.1 = .ok shardId) →
              context.tableEntryPuts hash principal containerId tableId pairs =
                (.ok (), after))) := by
  refine ⟨fun _ _ _ _ => ConsensusManager.batch_eq_ok_iff, ?_⟩
  intro context after principal containerId tableId order operationOrder pairs written
  cases mode : context.raftRouter with
  | none => exact tableEntryBatchPut_standalone written mode
  | some router =>
    obtain ⟨performed, single⟩ := tableEntryBatchPut_distributed written mode
    refine ⟨performed, fun known => ?_⟩
    obtain ⟨routed, routes⟩ := routePairs_of_known known
    exact single routed routes

/-- A context with one table in standalone mode, or with one consensus group. -/
def oneTable (distributed : Bool) : KeyValueDatabaseContext :=
  if distributed then newDistributed ⟨1, fun _ => some Shard.empty⟩
  else (newStandalone.bootstrapStandalone.2.createTable SecurityPrincipal.unrestricted ⟨0⟩
    ⟨[], [], artEngine, .single⟩).2

/-- Two values for one key of the table, in one batch. -/
def batchOfTwo (distributed : Bool) : Answer Unit :=
  (oneTable distributed).tableEntryBatchPut (fun _ => 0) SecurityPrincipal.unrestricted ⟨0⟩ ⟨0⟩
    VisitOrder.asListed VisitOrder.asListed [([1], [2]), ([1], [3])]

/-- A key that is written twice by one batch, in both modes. -/
theorem key_written_twice :
    (oneTable false).tableEntryPuts (fun _ => 0) SecurityPrincipal.unrestricted ⟨0⟩ ⟨0⟩
        [([1], [2]), ([1], [3])] = (.ok (), (batchOfTwo false).2) ∧
      ∃ router, ConsensusManager.performAll (fun _ => 0) ⟨1, fun _ => some Shard.empty⟩
          [.put [1] [2], .put [1] [3]] = .ok router ∧
        (batchOfTwo true).2 = newDistributed router := by
  have batches := (batches_as_single_writes fun _ => 0).2
  constructor
  · exact batches (oneTable false) _ SecurityPrincipal.unrestricted ⟨0⟩ ⟨0⟩ VisitOrder.asListed
      VisitOrder.asListed _ (by rfl)
  · exact (batches (oneTable true) (batchOfTwo true).2 SecurityPrincipal.unrestricted ⟨0⟩ ⟨0⟩
      VisitOrder.asListed VisitOrder.asListed [([1], [2]), ([1], [3])] (by rfl)).1

end KeyValueDatabaseContext

end Nanograph.Kvm
