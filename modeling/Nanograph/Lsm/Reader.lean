import Nanograph.Foundation.Handoff
import Nanograph.Lsm.FileNumbers
import Nanograph.Lsm.Writers

/-!
# A reader beside writers and a flush

A read looks at the memtable, the immutable memtable and the levels under a lock
each, and a flush hands the entries on in the same order. A key is never missed: as
long as no compaction runs, a read returns a value that its key had at some moment
of the read.
-/

namespace Nanograph.Lsm

open List Option Foundation Kvt LSMTreeEngine

namespace LSMTreeEngine

/-- Get a value by key, where the memtable, the immutable memtable and the levels are looked
at in three states of the engine. -/
def getAcross (first second third : LSMTreeEngine) (key : Bytes) :
    Except EngineFault EngineAnswer :=
  match first.memtable.get key with
  | some entry => .ok (.found entry.value)
  | none =>
    match second.immutableMemtable.bind (·.get key) with
    | some entry => .ok (.found entry.value)
    | none =>
      if third.poisoned then .error .panicked
      else .ok (.found ((third.findInLevels key).bind (·.value)))

/-- Where the values of a key are. -/
def places (engine : LSMTreeEngine) (key : Bytes) : Places (Option Bytes) where
  active := (engine.memtable.get key).map (·.value)
  passing := (engine.immutableMemtable.bind (·.get key)).map (·.value)
  stored := (engine.findInLevels key).map (·.value)

theorem getAcross_self (engine : LSMTreeEngine) (key : Bytes) :
    getAcross engine engine engine key = (engine.call (.get key)).1 := by
  rw [call_get, findInMemtables, getAcross]
  cases engine.memtable.get key with
  | some entry => rfl
  | none => rfl

theorem getAcross_eq (first second : LSMTreeEngine) {third : LSMTreeEngine}
    (ready : third.poisoned = false) (key : Bytes) :
    getAcross first second third key = .ok (.found ((first.places key).active.or
        ((second.places key).passing.or (third.places key).stored)).join) := by
  rw [getAcross, places, places, places]
  cases first.memtable.get key with
  | some entry => rfl
  | none =>
    cases second.immutableMemtable.bind (·.get key) with
    | some entry => rfl
    | none =>
      simp only [ready]
      cases third.findInLevels key <;> rfl

end LSMTreeEngine

/-- What a flush has done for the entries of the immutable memtable: their table is written,
or all of them are found in the levels. -/
def FlushPhase.Passed (engine : LSMTreeEngine) : FlushPhase → Prop
  | .written table => ∃ memtable, engine.immutableMemtable = some memtable ∧
      Holding engine.files table memtable.data
  | .registered _ | .recorded =>
    ∀ key, (engine.places key).behind = (engine.places key).stored
  | _ => True

def ThreadStep.isCompaction : ThreadStep → Bool
  | .compaction _ => true
  | .writer _ | .flush _ => false

namespace Threads

/-- What holds between the steps of writers and a flush. -/
structure Passing (threads : Threads) : Prop where
  claimed : Claimed threads
  alone : threads.compaction = .idle
  levelled : threads.engine.levels ≠ []
  passed : threads.flush.Passed threads.engine

/-- The value that an event writes for a key. -/
def written (event : ThreadEvent) (key : Bytes) : Option (Option Bytes) :=
  lastWritten (insertedWrites [event]) key

section

variable {threads : Threads}

/-- The table of the immutable memtable gets a file that no table in the levels has. -/
theorem Passing.writeTable (passing : Passing threads) :
    (threads.flushStep .writeTable).flush.Passed (threads.flushStep .writeTable).engine ∧
      ∀ key, (threads.flushStep .writeTable).engine.places key = threads.engine.places key := by
  rw [flushStep]
  split
  next number memtable isNumbered isImmutable =>
    split
    next => exact ⟨passing.passed, fun _ => rfl⟩
    next table created =>
      have fresh : ∀ other ∈ threads.engine.levels.flatMap (·.sstables),
          other.fileNumber ≠ number := by
        intro other mem same
        have distinct := passing.claimed.distinct
        rw [numbers, isNumbered, nodup_append] at distinct
        exact distinct.2.2 _ (mem_map_of_mem mem) number (by simp [FlushPhase.numbers]) same
      constructor
      · exact ⟨memtable, isImmutable, holding_create created (AList.lookup_insert _)⟩
      · intro key
        rw [places, places,
          @LSMTreeEngine.findInLevels_congr threads.engine _ (by rfl) (fun other mem =>
            AList.lookup_insert_ne (fresh other mem)) key]
  next => exact ⟨passing.passed, fun _ => rfl⟩

/-- A table in level 0 has the entries of the immutable memtable. -/
theorem Passing.register (passing : Passing threads) :
    (threads.flushStep .register).flush.Passed (threads.flushStep .register).engine ∧
      ∀ key, Places.Move none (threads.engine.places key)
        ((threads.flushStep .register).engine.places key) := by
  have passed := passing.passed
  rw [flushStep]
  split
  next table isWritten =>
    split
    next => exact ⟨trivial, fun _ => .stay _⟩
    next =>
      rw [isWritten] at passed
      obtain ⟨memtable, isImmutable, holding⟩ := passed
      have registered (key : Bytes) : { threads.engine with
          levels := threads.engine.levels.modify 0 (·.addSstable table) }.places key =
            { threads.engine.places key with stored := (threads.engine.places key).behind } := by
        rw [places, findInLevels_addSstable passing.levelled holding, Option.map_or, Option.map_map]
        simp only [places, Places.behind, isImmutable]
        rfl
      constructor
      · intro key
        rw [registered]
        simp [Places.behind, ← Option.or_assoc]
      · intro key
        rw [registered]
        exact .store _
  next => exact ⟨passed, fun _ => .stay _⟩

/-- A flush hands the values of a key on. -/
theorem Passing.flush (passing : Passing threads) (step : FlushStep) :
    (threads.flushStep step).flush.Passed (threads.flushStep step).engine ∧
      ∀ key, Places.Move none (threads.engine.places key)
        ((threads.flushStep step).engine.places key) := by
  have passed := passing.passed
  cases step with
  | writeTable =>
    obtain ⟨isPassed, same⟩ := passing.writeTable
    refine ⟨isPassed, fun key => ?_⟩
    rw [same]
    exact .stay _
  | register => exact passing.register
  | claim | release =>
    rw [flushStep]
    split
    next => exact ⟨trivial, fun _ => .stay _⟩
    next => exact ⟨passed, fun _ => .stay _⟩
  | swap =>
    rw [flushStep]
    split
    next =>
      split
      next => exact ⟨trivial, fun _ => .stay _⟩
      next free =>
        refine ⟨trivial, fun key => ?_⟩
        apply Places.Move.swap (threads.engine.places key)
        rw [places, not_isSome_iff_eq_none.mp free]
        rfl
    next => exact ⟨passed, fun _ => .stay _⟩
  | takeNumber =>
    rw [flushStep]
    split
    next memtable isSwapped isImmutable =>
      split
      next isEmpty =>
        have nothing (key : Bytes) : memtable.get key = none := by
          rw [MemTable.get, isEmpty_iff.mp isEmpty]
          rfl
        refine ⟨fun key => ?_, fun _ => .stay _⟩
        simp [Places.behind, places, isImmutable, nothing]
      next => exact ⟨trivial, fun _ => .stay _⟩
    next => exact ⟨passed, fun _ => .stay _⟩
  | record =>
    rw [flushStep]
    split
    next number isRegistered =>
      split
      next => exact ⟨trivial, fun _ => .stay _⟩
      next =>
        rw [isRegistered] at passed
        exact ⟨passed, fun _ => .stay _⟩
    next => exact ⟨passed, fun _ => .stay _⟩
  | clear =>
    rw [flushStep]
    split
    next isRecorded =>
      rw [isRecorded] at passed
      exact ⟨trivial, fun key => .clear _ (passed key)⟩
    next => exact ⟨passed, fun _ => .stay _⟩

/-- A writer writes the value of its record when it inserts it. -/
theorem writer_moves (threads : Threads) (step : WriterStep) (key : Bytes) :
    Places.Move (written (threads.writerStep step).1 key) (threads.engine.places key)
      ((threads.writerStep step).2.engine.places key) := by
  cases step with
  | append | stamp =>
    rw [writerStep]
    repeat' split
    all_goals exact .stay _
  | insert writer =>
    rw [writerStep]
    split
    next => exact .stay _
    next phase _ =>
      split
      next => exact .stay _
      next insertion ready =>
        obtain ⟨other, value, writes, inserted⟩ := phase.insertion?_spec ready
        have places : { threads.engine with
            memtable := insertion threads.engine.memtable }.places key =
              { threads.engine.places key with
                active := if key = other then some value
                  else (threads.engine.places key).active } := by
          rw [places, inserted]
          rfl
        have isWritten : written (.inserted phase.record) key =
            if key = other then some value else none := by
          rw [written, insertedWrites, filterMap_cons_some (by exact writes),
            filterMap_nil, lastWritten_singleton]
          exact if_congr eq_comm rfl rfl
        rw [places, isWritten]
        split
        next => exact .write _ value
        next => exact .stay _

theorem flushStep_frame (threads : Threads) (step : FlushStep) :
    (threads.flushStep step).compaction = threads.compaction ∧
      (threads.flushStep step).engine.poisoned = threads.engine.poisoned ∧
      (threads.flushStep step).engine.levels.length = threads.engine.levels.length := by
  cases step with
  | claim | clear | release =>
    rw [flushStep]
    split <;> exact ⟨rfl, rfl, rfl⟩
  | swap | takeNumber | writeTable | record =>
    rw [flushStep]
    split
    next => split <;> exact ⟨rfl, rfl, rfl⟩
    next => exact ⟨rfl, rfl, rfl⟩
  | register =>
    rw [flushStep]
    split
    next =>
      split
      next => exact ⟨rfl, rfl, rfl⟩
      next => exact ⟨rfl, rfl, length_modify ..⟩
    next => exact ⟨rfl, rfl, rfl⟩

/-- A step of a writer or the flush. -/
theorem Passing.step (passing : Passing threads) {step : ThreadStep}
    (apart : step.isCompaction = false) :
    Passing (Threads.step threads step).2 ∧
      (Threads.step threads step).2.engine.poisoned = threads.engine.poisoned ∧
      ∀ key, Places.Move (written (Threads.step threads step).1 key) (threads.engine.places key)
        ((Threads.step threads step).2.engine.places key) := by
  have undisturbed : threads.Undisturbed step := by
    intro _
    rw [passing.alone]
    rfl
  have claimed := passing.claimed.step step undisturbed
  cases step with
  | compaction step => cases apart
  | flush step =>
    obtain ⟨compaction, poisoned, levels⟩ := flushStep_frame threads step
    obtain ⟨passed, moves⟩ := passing.flush step
    refine ⟨⟨claimed, compaction.trans passing.alone, ?_, passed⟩, poisoned, moves⟩
    apply length_pos_iff.mp
    exact levels ▸ length_pos_iff.mpr passing.levelled
  | writer step =>
    have moves := writer_moves threads step
    obtain ⟨wal, clock, memtable, writers, next⟩ := writerStep_frame threads step
    rw [Threads.step, next] at claimed ⊢
    rw [next] at moves
    refine ⟨⟨claimed, passing.alone, passing.levelled, ?_⟩, rfl, moves⟩
    have passed := passing.passed
    cases isFlush : threads.flush <;> rw [isFlush] at passed <;> exact passed

end

def engineAfter (start : LSMTreeEngine) (steps : List ThreadStep) : LSMTreeEngine :=
  (step.final (.idle start) steps).engine

/-- The value that a key has after some steps: the one inserted last, or the one that it had at
the start. -/
def heldAfter (start : LSMTreeEngine) (steps : List ThreadStep) (key : Bytes) :
    Except EngineFault EngineAnswer :=
  match lastWritten (insertedWrites (step.answers (.idle start) steps)) key with
  | some value => .ok (.found value)
  | none => (start.call (.get key)).1

section

variable {start : LSMTreeEngine} {steps : List ThreadStep}

/-- After a run the places hold the value that was inserted last. -/
theorem passing_after (numbered : start.Numbered)
    (apart : ∀ step ∈ steps, step.isCompaction = false) :
    Passing (step.final (.idle start) steps) ∧ (engineAfter start steps).poisoned = start.poisoned ∧
      ∀ key, ((engineAfter start steps).places key).held =
        (lastWritten (insertedWrites (step.answers (.idle start) steps)) key).or
          (start.places key).held := by
  have along : step.Along (fun _ step => step.isCompaction = false) (.idle start) steps :=
    Machine.along_of_mem apart
  have initial : Passing (.idle start) ∧ start.poisoned = start.poisoned ∧
      ∀ key, (start.places key).held =
        (lastWritten (insertedWrites []) key).or (start.places key).held :=
    ⟨⟨claimed_idle numbered, rfl, numbered.levelled, trivial⟩, rfl, fun _ => rfl⟩
  refine Machine.answers_along (fun events threads => Passing threads ∧
    threads.engine.poisoned = start.poisoned ∧ ∀ key, (threads.engine.places key).held =
      (lastWritten (insertedWrites events) key).or (start.places key).held) ?_ initial along
  rintro events threads step ⟨passing, poisoned, held⟩ apart
  obtain ⟨next, same, moves⟩ := passing.step apart
  refine ⟨next, same.trans poisoned, fun key => ?_⟩
  rw [(moves key).held_eq, held, insertedWrites_append, lastWritten_append, Option.or_assoc]
  rfl

theorem heldAfter_eq (ready : start.poisoned = false) (key : Bytes) :
    heldAfter start steps key =
      .ok (.found ((lastWritten (insertedWrites (step.answers (.idle start) steps)) key).or
        (start.places key).held).join) := by
  rw [heldAfter]
  split
  next value isLast => rw [isLast]; rfl
  next isLast =>
    rw [isLast, none_or, ← getAcross_self, getAcross_eq start start ready]
    rfl

/-- A read beside writers and a flush returns a value that its key had at some moment of
the read. -/
theorem getAcross_eq_heldAfter (reachable : start.Reachable) (ready : start.poisoned = false)
    (apart : ∀ step ∈ steps, step.isCompaction = false) {first second third : Nat}
    (inOrder : first ≤ second ∧ second ≤ third) (key : Bytes) :
    ∃ moment, first ≤ moment ∧ moment ≤ third ∧ getAcross (engineAfter start (steps.take first))
          (engineAfter start (steps.take second)) (engineAfter start (steps.take third)) key =
        heldAfter start (steps.take moment) key := by
  have after (count : Nat) := @passing_after start (steps.take count) reachable.numbered
    fun step mem => apart step (mem_of_mem_take mem)
  have moves (index : Nat) (_ : first ≤ index) (_ : index < third) :
      ∃ written, Places.Move written ((engineAfter start (steps.take index)).places key)
        ((engineAfter start (steps.take (index + 1))).places key) := by
    by_cases inside : index < steps.length
    · rw [engineAfter, engineAfter, take_succ_eq_append_getElem inside, Machine.final_append]
      exact ⟨_, ((after index).1.step (apart _ (getElem_mem inside))).2.2 key⟩
    · rw [take_of_length_le (by omega), take_of_length_le (by omega)]
      exact ⟨none, .stay _⟩
  obtain ⟨moment, atLeast, atMost, held⟩ :=
    Places.exists_held_eq_read inOrder.1 inOrder.2 moves
  refine ⟨moment, atLeast, atMost, ?_⟩
  rw [getAcross_eq _ _ ((after third).2.1.trans ready), ← held, heldAfter_eq ready,
    (after moment).2.2]

end

/-- A read whose first look comes behind the swap and whose second one behind the end of the
flush. -/
theorem getAcross_beside_flush :
    let options : LSMTreeOptions := { memtableSize := 100, blockSize := 4, fileSize := List.length }
    ∃ moment, 5 ≤ moment ∧ moment ≤ 11 ∧
      getAcross (engineAfter (.fresh options) ((putAndFlush [1] [7]).take 5))
          (engineAfter (.fresh options) ((putAndFlush [1] [7]).take 10))
          (engineAfter (.fresh options) ((putAndFlush [1] [7]).take 11)) [1] =
        heldAfter (.fresh options) ((putAndFlush [1] [7]).take moment) [1] := by
  intro options
  exact getAcross_eq_heldAfter (.fresh options) rfl (by decide +kernel) (by decide) [1]

end Threads

end Nanograph.Lsm
