import Nanograph.Core.Object
import Nanograph.Foundation.Machine
import Nanograph.Raft.StateStore

/-!
# Allocation of object identifiers

`nanograph-kvm/src/allocator.rs`. In distributed mode every node has its own counter. A call
takes identifiers from the counter of its node, proposes a command that names them and waits for
the response to it. Every node applies the committed commands in their order, each at its own
time, and sets its counter behind the identifiers of the command.

Nothing in a command says which counter it was taken from, so two nodes can propose the same
identifiers. A call returns identifiers only when the state store responds to its command, and
the state store drops the responder of every entry it applies: the calls all fail, and no
identifier is handed out.

In standalone mode there is one counter and a call hands out what it takes. The counter moves on
also when a call finds too few identifiers, so the calls behind it start again from below.
-/

namespace Nanograph.Kvm

open List Function Nanograph.Core Foundation Raft

/-- Why identifiers were not allocated. -/
inductive AllocationError where
  | consensusError
  | exhausted

/-- A command that allocates identifiers. -/
inductive AllocationCommand where
  | allocateObjectId (containerId : ContainerId) (objectId : ObjectId)
  | allocateObjectIdRange (containerId : ContainerId) (start stop : ObjectId)

/-- The allocator of a container on one node. -/
structure ObjectAllocator where
  containerId : ContainerId
  nextId : UInt32

/-- One more, or the largest number again. -/
def saturatingSucc (number : UInt32) : UInt32 :=
  if number.toNat + 1 < 2 ^ 32 then number + 1 else number

namespace AllocationCommand

/-- The counter behind the identifiers of a command. -/
def nextId : AllocationCommand → UInt32
  | allocateObjectId _ objectId => saturatingSucc objectId.raw
  | allocateObjectIdRange _ _ stop => stop.raw

/-- The identifiers that the call behind a command returns. -/
def Covers : AllocationCommand → ObjectId → Prop
  | allocateObjectId _ objectId, wanted => wanted = objectId
  | allocateObjectIdRange _ start stop, wanted =>
    start.raw ≤ wanted.raw ∧ wanted.raw < stop.raw

instance : ∀ command wanted, Decidable (Covers command wanted)
  | allocateObjectId _ objectId, wanted => inferInstanceAs (Decidable (wanted = objectId))
  | allocateObjectIdRange _ start stop, wanted =>
    inferInstanceAs (Decidable (start.raw ≤ wanted.raw ∧ wanted.raw < stop.raw))

/-- No identifier is returned for both of two commands. -/
def Apart (first second : AllocationCommand) : Prop :=
  ∀ objectId, first.Covers objectId → ¬ second.Covers objectId

end AllocationCommand

namespace ObjectAllocator

/-- An allocator starts with identifier 1. -/
def newDistributed (containerId : ContainerId) : ObjectAllocator := ⟨containerId, 1⟩

/-- Take one identifier from the counter, which wraps around, and name it in a command. -/
def allocateDistributed (allocator : ObjectAllocator) :
    Except AllocationError AllocationCommand × ObjectAllocator :=
  let id := allocator.nextId
  (if id.toNat + 1 = 2 ^ 32 then .error .exhausted
    else .ok (.allocateObjectId allocator.containerId ⟨id⟩),
    { allocator with nextId := id + 1 })

/-- Take a range of identifiers from the counter and name it in a command. -/
def allocateRangeDistributed (allocator : ObjectAllocator) (count : UInt32) :
    Except AllocationError AllocationCommand × ObjectAllocator :=
  let start := allocator.nextId
  (if start.toNat + count.toNat < 2 ^ 32 then
      .ok (.allocateObjectIdRange allocator.containerId ⟨start⟩ ⟨start + count⟩)
    else .error .exhausted,
    { allocator with nextId := start + count })

def newStandalone (containerId : ContainerId) : ObjectAllocator := ⟨containerId, 1⟩

def allocateLocal (allocator : ObjectAllocator) :
    Except AllocationError ObjectId × ObjectAllocator :=
  let id := allocator.nextId
  (if id.toNat + 1 = 2 ^ 32 then .error .exhausted else .ok ⟨id⟩,
    { allocator with nextId := id + 1 })

/-- Take a range of identifiers, from its start up to its end without it. -/
def allocateRangeLocal (allocator : ObjectAllocator) (count : UInt32) :
    Except AllocationError (ObjectId × ObjectId) × ObjectAllocator :=
  let start := allocator.nextId
  (if start.toNat + count.toNat < 2 ^ 32 then .ok (⟨start⟩, ⟨start + count⟩)
    else .error .exhausted,
    { allocator with nextId := start + count })

def applyAllocation (allocator : ObjectAllocator) (command : AllocationCommand) : ObjectAllocator :=
  { allocator with nextId := command.nextId }

end ObjectAllocator

/-- A proposed command and the node whose call waits for the response to it. -/
structure AllocationEntry (N : Type) where
  proposer : N
  command : AllocationCommand

namespace AllocationEntry

variable {N : Type}

/-- What the state store sends to the call behind an entry: `apply` in
`nanograph-raft/src/storage/statestore.rs` binds the responder of an entry to `_responder`
and drops it. -/
def respond (_ : AllocationEntry N) : Option OperationResponse := none

/-- What the call behind an entry returns: `client_write` hands on the response to it, and fails
when its responder is gone. -/
def outcome (entry : AllocationEntry N) : Except AllocationError AllocationCommand :=
  match entry.respond with
  | some _ => .ok entry.command
  | none => .error .consensusError

end AllocationEntry

/-- A node: its allocator, and how many of the committed commands its state store and its
allocator have applied. -/
structure AllocatorReplica where
  allocator : ObjectAllocator
  stored : Nat
  applied : Nat

/-- The nodes of a cluster, the commands proposed and not decided yet, and the committed ones. -/
structure AllocatorCluster (N : Type) where
  replicas : N → AllocatorReplica
  inFlight : List (AllocationEntry N)
  committed : List (AllocationEntry N)

/-- The atomic steps of a cluster. A command is committed or refused, the state store of a node
applies the next one, and so does its allocator. -/
inductive AllocatorStep (N : Type) where
  | allocate (node : N)
  | allocateRange (node : N) (count : UInt32)
  | commit (index : Nat)
  | refuse (index : Nat)
  | store (node : N)
  | apply (node : N)

namespace AllocatorCluster

/-- A cluster with a new allocator on every node. -/
def start {N : Type} (containerId : ContainerId) : AllocatorCluster N where
  replicas _ := ⟨ObjectAllocator.newDistributed containerId, 0, 0⟩
  inFlight := []
  committed := []

variable {N : Type} [DecidableEq N]

/-- Take identifiers on a node and propose the command, or return the error. -/
def propose (cluster : AllocatorCluster N) (node : N)
    (taken : Except AllocationError AllocationCommand × ObjectAllocator) :
    Option (Except AllocationError AllocationCommand) × AllocatorCluster N :=
  let replicas := update cluster.replicas node
    { cluster.replicas node with allocator := taken.2 }
  match taken.1 with
  | .ok command =>
    (none, { cluster with replicas, inFlight := cluster.inFlight ++ [⟨node, command⟩] })
  | .error error => (some (.error error), { cluster with replicas })

/-- One step, with what the call that ends in it returns. -/
def step : Machine (AllocatorCluster N) (AllocatorStep N)
    (Option (Except AllocationError AllocationCommand))
  | cluster, .allocate node =>
    cluster.propose node (cluster.replicas node).allocator.allocateDistributed
  | cluster, .allocateRange node count =>
    cluster.propose node ((cluster.replicas node).allocator.allocateRangeDistributed count)
  | cluster, .commit index =>
    match cluster.inFlight[index]? with
    | some entry =>
      (none, { cluster with
        inFlight := cluster.inFlight.eraseIdx index
        committed := cluster.committed ++ [entry] })
    | none => (none, cluster)
  | cluster, .refuse index =>
    match cluster.inFlight[index]? with
    | some _ =>
      (some (.error .consensusError), { cluster with inFlight := cluster.inFlight.eraseIdx index })
    | none => (none, cluster)
  | cluster, .store node =>
    let replica := cluster.replicas node
    match cluster.committed[replica.stored]? with
    | some entry =>
      -- only the node that proposed an entry has a call waiting for it
      (if entry.proposer = node then some entry.outcome else none,
        { cluster with
          replicas := update cluster.replicas node { replica with stored := replica.stored + 1 } })
    | none => (none, cluster)
  | cluster, .apply node =>
    let replica := cluster.replicas node
    match cluster.committed[replica.applied]? with
    | some entry =>
      (none, { cluster with
        replicas := update cluster.replicas node
          { replica with
            allocator := replica.allocator.applyAllocation entry.command
            applied := replica.applied + 1 } })
    | none => (none, cluster)

/-- The commands of the calls that succeeded, in the order of their answers. -/
def handedOut (answers : List (Option (Except AllocationError AllocationCommand))) :
    List AllocationCommand :=
  answers.filterMap fun answer => answer.bind Except.toOption

/-- No identifier is handed out by two calls. -/
def Unique (answers : List (Option (Except AllocationError AllocationCommand))) : Prop :=
  (handedOut answers).Pairwise AllocationCommand.Apart

/-- No step ends a call with identifiers. -/
theorem step_ne_ok (cluster : AllocatorCluster N) (next : AllocatorStep N)
    (command : AllocationCommand) : (step cluster next).1 ≠ some (.ok command) := by
  cases next with
  | allocate node =>
    simp only [step, propose]
    split <;> simp
  | allocateRange node count =>
    simp only [step, propose]
    split <;> simp
  | commit index =>
    simp only [step]
    split <;> simp
  | refuse index =>
    simp only [step]
    split <;> simp
  | store node =>
    simp only [step]
    split
    next entry found =>
      -- the responder is gone, so a call that waited for this entry fails
      have dropped : entry.outcome = .error .consensusError := rfl
      split <;> simp [dropped]
    next => simp
  | apply node =>
    simp only [step]
    split <;> simp

theorem handedOut_answers (cluster : AllocatorCluster N) (steps : List (AllocatorStep N)) :
    handedOut (step.answers cluster steps) = [] := by
  rw [handedOut, filterMap_eq_nil_iff]
  intro answer mem
  induction steps generalizing cluster with
  | nil => cases mem
  | cons next rest ih =>
    rcases mem_cons.mp mem with rfl | later
    · have failed := step_ne_ok cluster next
      revert failed
      rcases (step cluster next).1 with _ | _ | command
      · exact fun _ => rfl
      · exact fun _ => rfl
      · exact fun failed => absurd rfl (failed command)
    · exact ih _ later

end AllocatorCluster

namespace AllocationCommand

/-- All identifiers of a command stand between a number and the counter behind it. -/
structure Above (low : Nat) (command : AllocationCommand) : Prop where
  start : low ≤ command.nextId.toNat
  covered : ∀ objectId, command.Covers objectId →
    low ≤ objectId.raw.toNat ∧ objectId.raw.toNat < command.nextId.toNat

theorem above_allocateObjectId (containerId : ContainerId) {low : Nat} {id : UInt32}
    (behind : low ≤ id.toNat) (enough : id.toNat + 1 < 2 ^ 32) :
    Above low (allocateObjectId containerId ⟨id⟩) := by
  have next : (allocateObjectId containerId ⟨id⟩).nextId.toNat = id.toNat + 1 := by
    simp only [nextId, saturatingSucc, if_pos enough, UInt32.toNat_add]
    exact Nat.mod_eq_of_lt enough
  constructor
  · omega
  · rintro objectId rfl
    rw [next]
    exact ⟨behind, Nat.lt_succ_self _⟩

theorem above_allocateObjectIdRange (containerId : ContainerId) {low : Nat} {start count : UInt32}
    (behind : low ≤ start.toNat) (enough : start.toNat + count.toNat < 2 ^ 32) :
    Above low (allocateObjectIdRange containerId ⟨start⟩ ⟨start + count⟩) := by
  have next : (start + count).toNat = start.toNat + count.toNat := by
    exact Nat.mod_eq_of_lt enough
  constructor
  · rw [nextId, next]
    omega
  · rintro objectId ⟨first, last⟩
    exact ⟨behind.trans first, last⟩

end AllocationCommand

namespace ObjectAllocator

open AllocationCommand
open AllocatorCluster (handedOut)

/-- The calls that take identifiers. -/
inductive AllocationCall where
  | allocate
  | allocateRange (count : UInt32)

/-- A standalone allocator answers calls; what it returns is written as the command for it. -/
def standalone : Machine ObjectAllocator AllocationCall (Except AllocationError AllocationCommand)
  | allocator, .allocate =>
    allocator.allocateLocal.map (·.map (.allocateObjectId allocator.containerId)) id
  | allocator, .allocateRange count =>
    (allocator.allocateRangeLocal count).map
      (·.map fun range => .allocateObjectIdRange allocator.containerId range.1 range.2) id

/-- There are enough identifiers for a call. -/
def Enough (allocator : ObjectAllocator) : AllocationCall → Prop
  | .allocate => allocator.nextId.toNat + 1 < 2 ^ 32
  | .allocateRange count => allocator.nextId.toNat + count.toNat < 2 ^ 32

/-- A call hands out identifiers from the counter up to the next one, or there are too few. -/
theorem standalone_cases (allocator : ObjectAllocator) (call : AllocationCall) :
    (∃ command, (standalone allocator call).1 = .ok command ∧ command.Above allocator.nextId.toNat ∧
        (standalone allocator call).2.nextId = command.nextId) ∨
      ¬allocator.Enough call ∧ (standalone allocator call).1 = .error .exhausted := by
  cases call with
  | allocate =>
    by_cases enough : allocator.nextId.toNat + 1 < 2 ^ 32
    · refine .inl ⟨_, ?_, above_allocateObjectId allocator.containerId le_rfl enough,
        (if_pos enough).symm⟩
      exact congrArg (Except.map _) (if_neg enough.ne)
    · have last : allocator.nextId.toNat + 1 = 2 ^ 32 := by
        have := allocator.nextId.toNat_lt
        omega
      exact .inr ⟨enough, congrArg (Except.map _) (if_pos last)⟩
  | allocateRange count =>
    by_cases enough : allocator.nextId.toNat + count.toNat < 2 ^ 32
    · refine .inl ⟨_, ?_, above_allocateObjectIdRange allocator.containerId le_rfl enough, rfl⟩
      exact congrArg (Except.map _) (if_pos enough)
    · exact .inr ⟨enough, congrArg (Except.map _) (if_neg enough)⟩

/-- As long as there are enough identifiers, all that are handed out stand from the counter on. -/
theorem standalone_apart {allocator : ObjectAllocator} {calls : List AllocationCall}
    (last : AllocationCall) (enough : standalone.Along Enough allocator calls) :
    (∀ command ∈ handedOut ((standalone.answers allocator (calls ++ [last])).map some),
        ∀ objectId, command.Covers objectId → allocator.nextId.toNat ≤ objectId.raw.toNat) ∧
      (handedOut ((standalone.answers allocator (calls ++ [last])).map some)).Pairwise Apart := by
  induction calls generalizing allocator with
  | nil =>
    rcases standalone_cases allocator last with ⟨command, answer, above, -⟩ | ⟨-, answer⟩
    · have only : handedOut ((standalone.answers allocator [last]).map some) = [command] := by
        simp [Machine.answers, answer, handedOut, Except.toOption]
      rw [nil_append, only, forall_mem_singleton]
      exact ⟨fun objectId covers => (above.covered objectId covers).1, pairwise_singleton _ _⟩
    · have none : handedOut ((standalone.answers allocator [last]).map some) = [] := by
        rw [Machine.answers, answer]
        rfl
      simp [none]
  | cons call rest ih =>
    obtain ⟨command, answer, above, next⟩ :=
      (standalone_cases allocator call).resolve_right fun failed => failed.1 enough.1
    obtain ⟨behind, unique⟩ := ih enough.2
    rw [next] at behind
    simp only [cons_append, Machine.answers, answer, handedOut, map_cons, filterMap_cons,
      Option.bind_some, Except.toOption, forall_mem_cons, pairwise_cons]
    refine ⟨⟨fun objectId covers => ?_, fun other mem objectId covers => ?_⟩,
      fun other mem objectId first second => ?_, unique⟩
    · exact (above.covered objectId covers).1
    · exact above.start.trans (behind other mem objectId covers)
    · have low := (above.covered objectId first).2
      have high := behind other mem objectId second
      omega

/-- No identifier is handed out twice up to the first call that finds too few. -/
theorem unique_until_exhausted (allocator : ObjectAllocator) (calls : List AllocationCall)
    (last : AllocationCall) (enough : standalone.Along Enough allocator calls) :
    (handedOut ((standalone.answers allocator (calls ++ [last])).map some)).Pairwise Apart :=
  (standalone_apart last enough).2

/-- Two identifiers and a range, and then a range that is too large. -/
theorem unique_up_to_large_range :
    (handedOut ((standalone.answers (newStandalone ⟨1⟩)
      [.allocate, .allocateRange 3, .allocate, .allocateRange 4294967295]).map some)).Pairwise
        Apart :=
  unique_until_exhausted (newStandalone ⟨1⟩) [.allocate, .allocateRange 3, .allocate]
    (.allocateRange 4294967295) (by simp [Machine.Along, Enough]; decide)

/-- A range that is too large sets the counter back to the identifier handed out before. -/
theorem handed_out_again :
    ¬(handedOut ((standalone.answers (newStandalone ⟨1⟩)
      [.allocate, .allocateRange 4294967295, .allocate]).map some)).Pairwise Apart := by
  intro unique
  have apart := rel_of_pairwise_cons unique (mem_singleton.mpr rfl)
  exact apart ⟨1⟩ (by decide) (by decide)

end ObjectAllocator

end Nanograph.Kvm
