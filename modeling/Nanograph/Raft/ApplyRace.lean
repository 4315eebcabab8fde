import Nanograph.Foundation.Machine
import Nanograph.Raft.StateStore

/-!
# Snapshots built while entries are applied

`apply` performs the operation of an entry and only then marks the entry as applied. A builder
reads the last applied position and only then scans the shard. A snapshot is the state after
the entries up to its position when no operation falls between the two steps of the builder
and none is waiting to be marked at the first of them.
-/

namespace Nanograph.Raft

open List Foundation Kvt ConsensusStateStore

variable {M : Type}

/-- How far a builder is. -/
inductive BuildPhase (M : Type) where
  | idle
  | positioned (metadata : SnapshotMeta M)
  | built (metadata : SnapshotMeta M) (contents : Shard)

/-- A store, the entries it has not marked as applied yet, whether the operation of the first
of them was performed, and a builder. -/
structure ApplyRace (M : Type) where
  store : ConsensusStateStore M
  entries : List (Entry (EntryPayload M))
  performed : Bool
  builder : BuildPhase M

/-- Who takes the next step. -/
inductive RaceStep where
  | apply
  | build

def effectOf (shard : Shard) (entry : Entry (EntryPayload M)) : Shard :=
  match entry.payload with
  | .normal operation => applyOperation shard operation
  | _ => shard

def effect (shard : Shard) (entries : List (Entry (EntryPayload M))) : Shard :=
  entries.foldl effectOf shard

/-- The entries up to a position. -/
def upTo (entries : List (Entry (EntryPayload M))) : Option LogId → List (Entry (EntryPayload M))
  | none => []
  | some logId => entries.filter (·.logId.index ≤ logId.index)

/-- Entries that come behind the applied position of a store, in the order of the log. -/
structure InOrder (store : ConsensusStateStore M) (entries : List (Entry (EntryPayload M))) :
    Prop where
  ascending : entries.Pairwise (·.logId.index < ·.logId.index)
  behind : ∀ logId, store.raftState.lastApplied = some logId →
    ∀ entry ∈ entries, logId.index < entry.logId.index

namespace ApplyRace

/-- A store that is about to apply entries, and a builder that has not started. -/
def start (store : ConsensusStateStore M) (entries : List (Entry (EntryPayload M))) : ApplyRace M :=
  ⟨store, entries, false, .idle⟩

def step (nameOf : Option LogId → List Char) : Machine (ApplyRace M) RaceStep Unit
  | race, .apply => ((), match race.entries with
    | [] => race
    | entry :: rest =>
      if race.performed then
        { race with store := race.store.setLastApplied entry, entries := rest, performed := false }
      else { race with store := race.store.applyPayload entry, performed := true })
  | race, .build => ((), match race.builder with
    | .idle => { race with builder := .positioned (race.store.snapshotMetadata nameOf) }
    | .positioned metadata => { race with builder := .built metadata race.store.shardStorage }
    | .built .. => race)

/-- The entry in turn changes data. -/
def ChangesData (race : ApplyRace M) : Prop :=
  ∃ entry operation, race.entries.head? = some entry ∧ entry.payload = .normal operation

/-- No operation is performed between the two steps of the builder, and none is waiting to be
marked at the first of them. -/
def Quiet (race : ApplyRace M) : RaceStep → Prop
  | .apply => race.performed = false → race.ChangesData →
    ∀ metadata, race.builder ≠ .positioned metadata
  | .build => race.builder = .idle → race.performed = true → ¬ race.ChangesData

end ApplyRace

section

variable {store : ConsensusStateStore M} {entry : Entry (EntryPayload M)}
  {entries done rest : List (Entry (EntryPayload M))} {shard : Shard}

theorem effect_concat : effect shard (done ++ [entry]) = effectOf (effect shard done) entry := by
  rw [effect, foldl_append]
  rfl

theorem shardStorage_applyPayload :
    (store.applyPayload entry).shardStorage = effectOf store.shardStorage entry := by
  rw [applyPayload, effectOf]
  split <;> simp_all

theorem lastApplied_applyPayload :
    (store.applyPayload entry).raftState.lastApplied = store.raftState.lastApplied := by
  rw [applyPayload]
  split <;> rfl

theorem effectOf_of_not_normal (unchanging : ∀ operation, entry.payload ≠ .normal operation) :
    effectOf shard entry = shard := by
  rw [effectOf]
  split
  next operation normal => exact absurd normal (unchanging operation)
  next => rfl

/-- The position of a store after it marked entries as applied. -/
def positionAfter (store : ConsensusStateStore M) (done : List (Entry (EntryPayload M))) :
    Option LogId :=
  (done.getLast?.map (·.logId)).or store.raftState.lastApplied

/-- The entries up to the position are the ones marked as applied. -/
theorem upTo_positionAfter (inOrder : InOrder store (done ++ rest)) :
    upTo (done ++ rest) (positionAfter store done) = done := by
  obtain ⟨ascending, behind⟩ := inOrder
  rw [positionAfter]
  rcases eq_nil_or_concat done with rfl | ⟨front, last, rfl⟩
  · cases position : store.raftState.lastApplied with
    | none => rfl
    | some logId =>
      refine filter_eq_nil_iff.mpr fun entry mem => ?_
      have later := behind logId position entry mem
      simpa using later
  · rw [concat_eq_append] at ascending ⊢
    rw [getLast?_concat]
    obtain ⟨frontAscending, -, apart⟩ := pairwise_append.mp ascending
    have kept : ∀ entry ∈ front ++ [last], entry.logId.index ≤ last.logId.index := by
      intro entry mem
      rcases mem_append.mp mem with inFront | isLast
      · exact ((pairwise_append.mp frontAscending).2.2 entry inFront last (by simp)).le
      · rw [mem_singleton.mp isLast]
    have dropped : ∀ entry ∈ rest, last.logId.index < entry.logId.index :=
      fun entry mem => apart last (by simp) entry mem
    change ((front ++ [last]) ++ rest).filter (·.logId.index ≤ last.logId.index) = _
    rw [filter_append, filter_eq_self.mpr (by simpa using kept),
      filter_eq_nil_iff.mpr (by simpa using dropped), append_nil]

end

namespace ApplyRace

variable {nameOf : Option LogId → List Char} {store : ConsensusStateStore M}
  {entries : List (Entry (EntryPayload M))} {race : ApplyRace M}

/-- Contents that are the effect of the entries up to a position. -/
def Exact (store : ConsensusStateStore M) (entries : List (Entry (EntryPayload M)))
    (metadata : SnapshotMeta M) (contents : Shard) : Prop :=
  contents = effect store.shardStorage (upTo entries metadata.lastLogId)

/-- What a quiet run keeps. -/
structure Kept (store : ConsensusStateStore M) (entries done : List (Entry (EntryPayload M)))
    (race : ApplyRace M) : Prop where
  split : entries = done ++ race.entries
  position : race.store.raftState.lastApplied = positionAfter store done
  shard : race.store.shardStorage = effect store.shardStorage
    (if race.performed then done ++ race.entries.take 1 else done)
  positioned : ∀ metadata, race.builder = .positioned metadata →
    Exact store entries metadata race.store.shardStorage
  built : ∀ metadata contents, race.builder = .built metadata contents →
    Exact store entries metadata contents

/-- A quiet step of `apply`. -/
theorem Kept.apply {done : List (Entry (EntryPayload M))} (kept : Kept store entries done race)
    (quiet : race.Quiet .apply) : ∃ done, Kept store entries done (step nameOf race .apply).2 := by
  obtain ⟨current, pending, performed, builder⟩ := race
  cases pending with
  | nil => exact ⟨done, kept⟩
  | cons entry rest =>
    cases performed with
    | true =>
      refine ⟨done ++ [entry], ?_⟩
      constructor
      case split => exact kept.split.trans (append_cons done entry rest)
      case position => simp [step, setLastApplied, positionAfter]
      case shard => exact kept.shard
      case positioned => exact kept.positioned
      case built => exact kept.built
    | false =>
      refine ⟨done, ?_⟩
      constructor
      case split => exact kept.split
      case position => exact lastApplied_applyPayload.trans kept.position
      case shard =>
        refine shardStorage_applyPayload.trans ?_
        rw [kept.shard]
        exact effect_concat.symm
      case positioned =>
        intro metadata isPositioned
        have unchanging : effectOf current.shardStorage entry = current.shardStorage := by
          apply effectOf_of_not_normal
          intro operation normal
          exact quiet rfl ⟨entry, operation, rfl, normal⟩ metadata isPositioned
        have exactly := kept.positioned metadata isPositioned
        exact shardStorage_applyPayload.trans (unchanging.trans exactly)
      case built => exact kept.built

/-- A quiet step of the builder. -/
theorem Kept.build {done : List (Entry (EntryPayload M))} (inOrder : InOrder store entries)
    (kept : Kept store entries done race) (quiet : race.Quiet .build) :
    Kept store entries done (step nameOf race .build).2 := by
  obtain ⟨current, pending, performed, builder⟩ := race
  cases builder with
  | idle =>
    have position : Exact store entries (current.snapshotMetadata nameOf)
        current.shardStorage := by
      have applied := kept.position
      have shard := kept.shard
      rw [Exact, snapshotMetadata, applied, kept.split,
        upTo_positionAfter (kept.split ▸ inOrder), shard]
      cases performed with
      | false => rfl
      | true =>
        cases pending with
        | nil => simp
        | cons entry rest =>
          rw [if_pos rfl, take_succ_cons, take_zero, effect_concat]
          apply effectOf_of_not_normal
          intro operation normal
          exact quiet rfl rfl ⟨entry, operation, rfl, normal⟩
    refine { kept with positioned := ?_, built := fun _ _ isBuilt => nomatch isBuilt }
    rintro metadata ⟨rfl⟩
    exact position
  | positioned metadata =>
    refine { kept with positioned := fun _ isPositioned => (nomatch isPositioned), built := ?_ }
    rintro metadata contents ⟨rfl, rfl⟩
    exact kept.positioned _ rfl
  | built metadata contents => exact kept

/-- In a run whose steps are all quiet a snapshot has exactly the effect of the entries up to
its position. -/
theorem snapshot_exact_of_quiet (nameOf : Option LogId → List Char)
    (store : ConsensusStateStore M) (entries : List (Entry (EntryPayload M)))
    (inOrder : InOrder store entries) (steps : List RaceStep)
    (quiet : (step nameOf).Along Quiet (start store entries) steps)
    (metadata : SnapshotMeta M) (contents : Shard)
    (built : ((step nameOf).final (start store entries) steps).builder = .built metadata contents) :
    Exact store entries metadata contents := by
  have always : ∃ done, Kept store entries done
      ((step nameOf).final (start store entries) steps) := by
    apply Machine.invariant_along (fun race => ∃ done, Kept store entries done race) _
      ⟨[], rfl, rfl, rfl, by rintro _ ⟨⟩, by rintro _ _ ⟨⟩⟩ quiet
    rintro race next ⟨done, kept⟩ met
    cases next with
    | apply => exact kept.apply met
    | build => exact ⟨done, kept.build inOrder met⟩
  obtain ⟨done, kept⟩ := always
  exact kept.built metadata contents built

/-- An entry without data is applied while a snapshot is built, and one with data behind it. -/
theorem snapshot_among_entries :
    Exact (new ⟨7⟩ Shard.empty ⟨.none, .none, .none, 0⟩ : ConsensusStateStore Unit)
      [⟨⟨1, 1⟩, .normal (.put [1] [2])⟩, ⟨⟨1, 2⟩, .blank⟩, ⟨⟨1, 3⟩, .normal (.put [3] [4])⟩]
      ⟨some ⟨1, 1⟩, ⟨none, ()⟩, []⟩ (Shard.empty.put [1] [2]) := by
  apply snapshot_exact_of_quiet (fun _ => []) _ _ _
    [.apply, .apply, .build, .apply, .apply, .build, .apply, .apply] _ _ _ rfl
  · exact ⟨by decide, fun _ none => nomatch none⟩
  · refine ⟨?_, ?_, ?_, ?_, ?_, ?_, ?_, ?_, trivial⟩
    · exact fun _ _ _ positioned => nomatch positioned
    · exact fun unperformed => nomatch unperformed
    · exact fun _ performed => nomatch performed
    · rintro - ⟨_, _, ⟨⟩, ⟨⟩⟩
    · exact fun unperformed => nomatch unperformed
    · exact fun idle => nomatch idle
    · exact fun _ _ _ positioned => nomatch positioned
    · exact fun unperformed => nomatch unperformed

/-- An operation between the two steps of the builder is in the snapshot, but not among the
entries up to its position. -/
theorem snapshot_ahead_of_position :
    ∃ metadata contents, ((step fun _ => []).final (start
        (new ⟨7⟩ Shard.empty ⟨.none, .none, .none, 0⟩ :
          ConsensusStateStore Unit)
        [⟨⟨1, 1⟩, .normal (.put [1] [2])⟩]) [.build, .apply, .build]).builder =
          .built metadata contents ∧
      ¬ Exact (new ⟨7⟩ Shard.empty ⟨.none, .none, .none, 0⟩ :
          ConsensusStateStore Unit)
        [⟨⟨1, 1⟩, .normal (.put [1] [2])⟩] metadata contents := by
  refine ⟨_, _, rfl, fun exactly => ?_⟩
  have shown := congrArg (Shard.get · [1]) exactly
  exact absurd shown (by decide)

end ApplyRace

end Nanograph.Raft
