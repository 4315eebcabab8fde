import Nanograph.Lsm.Map

/-!
# The order of the tables in a level

The tables of every level but level 0 have disjoint ranges in all states of an
engine. They are in order as long as no compaction puts its new tables behind a
table with higher keys. After a panic in a compaction the levels do not change any
more.
-/

namespace Nanograph.Lsm

open Foundation Kvt

namespace LSMTreeEngine

/-- An engine whose levels are locked for good, with its tables in order. -/
structure Frozen (engine : LSMTreeEngine) : Prop where
  poisoned : engine.poisoned = true
  busy : engine.compactionInProgress = true
  ordered : Ordered engine.levels

variable (fails : Failures)

section

variable {α : Type}

/-- Nothing comes after locking the levels. -/
theorem keeps_frozen_lockLevels (rest : PUnit → EngineM α) : Keeps Frozen (lockLevels >>= rest) := by
  intro engine frozen
  rw [bind_error (run_lockLevels_poisoned frozen.poisoned)]
  exact frozen

theorem keeps_frozen_appendWal (record : WalRecord) : Keeps Frozen (appendWal record) :=
  keeps_modify fun _ frozen => ⟨frozen.poisoned, frozen.busy, frozen.ordered⟩

theorem keeps_frozen_removeStale (number : Nat) : Keeps Frozen (removeStale fails number) := by
  refine keeps_get_bind fun engine frozen => ?_
  split
  · refine keeps_bind (keeps_attempt fails _) (fun _ => keeps_modify fun _ kept => ?_)
      engine frozen
    exact ⟨kept.poisoned, kept.busy, kept.ordered⟩
  · exact frozen

theorem keeps_frozen_writeTable (entries : List Entry) (number : Nat) :
    Keeps Frozen (writeTable fails entries number) := by
  refine keeps_bind (keeps_attempt fails _) fun _ =>
    keeps_bind (keeps_frozen_removeStale fails number) fun _ =>
      keeps_bind (keeps_attempt fails _) fun _ =>
        keeps_bind (keeps_modify fun _ kept => ⟨kept.poisoned, kept.busy, kept.ordered⟩) fun _ =>
          keeps_bind (keeps_attempt fails _) fun _ =>
            keeps_get_bind fun engine frozen => ?_
  cases SSTable.create engine.options.fileSize entries number 0 with
  | error message => exact frozen
  | ok metadata =>
    exact keeps_bind (keeps_modify fun _ kept => ⟨kept.poisoned, kept.busy, kept.ordered⟩)
      (fun _ => keeps_bind (keeps_attempt fails _) fun _ => keeps_pure _) engine frozen

theorem keeps_frozen_writeMarker (point : FlushPoint) (record : WalRecord) :
    Keeps Frozen (writeMarker fails point record) :=
  keeps_bind (keeps_attempt fails point) fun _ => keeps_frozen_appendWal record

theorem keeps_frozen_persistMemtable (memtable : MemTable) :
    Keeps Frozen (persistMemtable fails memtable) :=
  keeps_bind (fun _ kept => ⟨kept.poisoned, kept.busy, kept.ordered⟩) fun _ =>
    keeps_bind (keeps_frozen_writeTable fails _ _) fun _ =>
      keeps_bind (keeps_frozen_writeMarker fails _ _) fun _ =>
        keeps_bind (keeps_frozen_lockLevels _) fun _ =>
          keeps_bind (keeps_frozen_writeMarker fails _ _) fun _ =>
            keeps_bind (keeps_frozen_lockLevels _) fun _ =>
              keeps_bind (keeps_attempt fails _) fun _ => keeps_attempt fails _

theorem keeps_frozen_maybeCompact : Keeps Frozen maybeCompact := by
  refine keeps_get_bind fun engine frozen => ?_
  rw [if_pos frozen.busy]
  exact frozen

theorem keeps_frozen_flush : Keeps Frozen (maybeFlushMemtable fails) := by
  refine keeps_get_bind fun engine frozen => ?_
  split
  · exact frozen
  · split
    · exact frozen
    · refine keeps_bind (keeps_capture ?_) (fun result => keeps_bind
        (keeps_modify fun _ kept => ?_) fun _ => ?_)
        engine.swapMemtable ⟨frozen.poisoned, frozen.busy, frozen.ordered⟩
      · refine keeps_get_bind fun swapped kept => ?_
        cases swapped.immutableMemtable with
        | none => exact kept
        | some memtable =>
          exact keeps_ite (keeps_pure _) (keeps_bind (keeps_frozen_persistMemtable fails memtable)
            fun _ => keeps_frozen_maybeCompact) swapped kept
      · exact ⟨kept.poisoned, kept.busy, kept.ordered⟩
      · exact keeps_release result

theorem keeps_frozen_flushIfFull : Keeps Frozen flushIfFull := by
  refine keeps_get_bind fun engine frozen => ?_
  exact keeps_ite (keeps_frozen_flush noFailure) (keeps_pure _) engine frozen

section

variable {engine : LSMTreeEngine} (frozen : Frozen engine)

include frozen

theorem frozen_logged (record : WalRecord) : Frozen (engine.logged record) := by
  rw [logged_frame]
  exact ⟨frozen.poisoned, frozen.busy, frozen.ordered⟩

/-- No call thaws an engine. -/
theorem Frozen.call (input : EngineCall) : Frozen (engine.call input).2 := by
  cases recorded : input.record? with
  | some record =>
    rw [call_of_record recorded, answer_snd]
    exact keeps_bind (keeps_modify fun _ kept => frozen_logged kept record)
      (fun _ => keeps_frozen_flushIfFull) engine frozen
  | none =>
    cases input with
    | put | delete | putCommitted | deleteCommitted => cases recorded
    | get key =>
      rw [LSMTreeEngine.call, answer_snd]
      exact keeps_get key engine frozen
    | flush =>
      rw [LSMTreeEngine.call, answer_snd]
      exact keeps_frozen_flush noFailure engine frozen
    | compact =>
      rw [LSMTreeEngine.call, answer_snd]
      exact keeps_frozen_maybeCompact engine frozen
    | checkpoint =>
      rw [LSMTreeEngine.call, answer_snd]
      exact keeps_get_bind (fun state kept => keeps_bind (keeps_frozen_appendWal _)
        (fun _ => keeps_frozen_lockLevels _) state kept) engine frozen
    | clear =>
      rw [LSMTreeEngine.call, answer_snd]
      refine keeps_bind (keeps_modify fun _ kept => ?_) (fun _ => keeps_frozen_lockLevels _)
        engine frozen
      exact ⟨kept.poisoned, kept.busy, kept.ordered⟩

theorem Frozen.startedTask_eq : engine.startedTask = none :=
  if_neg fun free => by simp [frozen.busy] at free

theorem Frozen.flushedEngine {start : LSMTreeEngine} (starts : engine.flushedEngine = some start) :
    Frozen start := by
  rw [LSMTreeEngine.flushedEngine] at starts
  split at starts
  next => cases starts
  next =>
    have kept := keeps_frozen_persistMemtable noFailure engine.memtable engine.swapMemtable
      ⟨frozen.poisoned, frozen.busy, frozen.ordered⟩
    cases ran : persistMemtable noFailure engine.memtable engine.swapMemtable with
    | ok value persisted =>
      rw [ran] at starts kept
      cases starts
      exact kept
    | error fault state => simp [ran] at starts

/-- No compaction starts in an engine that is frozen. -/
theorem Frozen.meets (input : EngineCall)
    (condition : List Level → TableFiles → CompactionTask → Prop) :
    engine.CompactionMeets condition input := by
  intro start starts task started
  have startFrozen : Frozen start := by
    cases recorded : input.record? with
    | some record =>
      rw [compactionStart_of_record recorded, writtenEngine] at starts
      split at starts
      · exact (frozen_logged frozen record).flushedEngine starts
      · cases starts
    | none =>
      cases input with
      | put | delete | putCommitted | deleteCommitted => cases recorded
      | flush => exact frozen.flushedEngine starts
      | compact => cases starts; exact frozen
      | get | checkpoint | clear => cases starts
  rw [startFrozen.startedTask_eq] at started
  cases started

end

end

section

variable {engine : LSMTreeEngine}

/-- An engine in any state of a run in which the tables are in order. -/
def InLine (engine : LSMTreeEngine) : Prop := Sound engine ∨ Frozen engine

theorem InLine.ordered (inLine : InLine engine) : Ordered engine.levels :=
  inLine.elim (·.ordered) (·.ordered)

/-- A computation that keeps the tables in order exactly if a condition is met. -/
def InLineIff (condition : Prop) (run : EngineM Unit) (engine : LSMTreeEngine) : Prop :=
  (condition → InLine (stateOf (run engine))) ∧ (Ordered (stateOf (run engine)).levels → condition)

section

variable {start : LSMTreeEngine} {result : EStateM.Result EngineFault LSMTreeEngine Unit}
  (isResult : CompactionResult start result)

include isResult

/-- A compaction keeps the tables in order exactly if its new tables go behind all others. -/
theorem CompactionResult.ordered_iff (ordered : Ordered start.levels) :
    Ordered (stateOf result).levels ↔
      ∀ task ∈ start.startedTask, InOrder start.levels start.files task := by
  cases isResult with
  | nothing started => simp [started, ordered]
  | done task started compacted =>
    simp only [started, Option.mem_some, forall_eq']
    exact compacted.ordered_iff ordered
  | stuck task started inOrder =>
    simp only [started, Option.mem_some, forall_eq']
    exact iff_of_true ordered inOrder

/-- A compaction changes the tables, or it ends in a panic. -/
theorem CompactionResult.tables (stored : Stored start.levels start.files start.nextFileNumber) :
    (∃ levels files nextFileNumber manifest,
      result = .ok () { start with levels, files, nextFileNumber, manifest } ∧
        Stored levels files nextFileNumber) ∨
      ∃ files after, result = .error .panicked (start.stuck files after) := by
  cases isResult with
  | nothing => exact .inl ⟨_, _, _, _, rfl, stored⟩
  | done task started compacted => exact .inl ⟨_, _, _, _, rfl, compacted.stored⟩
  | stuck => exact .inr ⟨_, _, rfl⟩

end

theorem Sound.compact_inLine (sound : Sound engine) :
    InLineIff (∀ task ∈ engine.startedTask, InOrder engine.levels engine.files task)
      maybeCompact engine := by
  have isResult := maybeCompact_spec sound.ready sound.idle sound.stored
  rw [InLineIff, ← isResult.ordered_iff sound.ordered]
  refine ⟨fun ordered => ?_, id⟩
  rcases isResult.tables sound.stored with ⟨levels, files, next, manifest, ran, stored⟩ |
    ⟨files, after, ran⟩
  · rw [ran] at ordered ⊢
    exact .inl ⟨⟨sound.ready, sound.unflushed, sound.idle, sound.settled, stored⟩, ordered⟩
  · rw [ran]
    exact .inr ⟨rfl, rfl, sound.ordered⟩

theorem Sound.flush_inLine (sound : Sound engine) :
    InLineIff (∀ start ∈ engine.flushedEngine, ∀ task ∈ start.startedTask,
      InOrder start.levels start.files task) (maybeFlushMemtable noFailure) engine := by
  by_cases empty : engine.memtable.data = []
  · obtain ⟨nowhere, ran⟩ := maybeFlushMemtable_empty sound.toHealthy empty
    rw [InLineIff, nowhere, ran]
    exact ⟨fun _ => .inl ⟨⟨sound.ready, sound.unflushed, sound.idle, sound.settled, sound.stored⟩,
      sound.ordered⟩, by simp⟩
  · obtain ⟨table, tableFor, starts, ends⟩ := maybeFlushMemtable_spec sound.toHealthy empty
    have added := sound.stored.flushed tableFor.number tableFor.holding
    have startOrdered : Ordered (engine.swapMemtable.persisted engine.memtable table).levels :=
      fun level mem => sound.ordered level (added.2.2 ▸ mem)
    simp only [InLineIff, starts, Option.mem_some, forall_eq']
    rcases ends with ⟨next, isResult, ran⟩ | ⟨next, isResult, ran⟩
    · have ordered_iff := isResult.ordered_iff startOrdered
      rw [ran, ← ordered_iff]
      refine ⟨fun ordered => ?_, id⟩
      rcases isResult.tables added.1 with ⟨levels, files, after, manifest, same, stored⟩ |
        ⟨files, after, same⟩
      · cases same
        exact .inl ⟨⟨sound.ready, rfl, sound.idle, rfl, stored⟩, ordered⟩
      · cases same
    · have ordered_iff := isResult.ordered_iff startOrdered
      rw [ran, ← ordered_iff]
      refine ⟨fun ordered => ?_, id⟩
      rcases isResult.tables added.1 with ⟨levels, files, after, manifest, same, -⟩ |
        ⟨files, after, same⟩
      · cases same
      · cases same
        exact .inr ⟨rfl, rfl, startOrdered⟩

theorem Sound.call_inLine (sound : Sound engine) (input : EngineCall) :
    (engine.CompactionMeets InOrder input → InLine (engine.call input).2) ∧
      (Ordered (engine.call input).2.levels → engine.CompactionMeets InOrder input) := by
  cases recorded : input.record? with
  | some record =>
    obtain ⟨written, value, writes, -⟩ := EngineCall.write?_of_record recorded
    have logged := (sound.logged writes).1
    rw [CompactionMeets, compactionStart_of_record recorded, call_of_record recorded, answer_snd,
      writeRecord, modify_bind, LSMTreeEngine.flushIfFull, get_bind, writtenEngine]
    split
    next => exact logged.flush_inLine
    next => exact ⟨fun _ => .inl logged, by simp⟩
  | none =>
    have quiet (nowhere : engine.compactionStart input = none) :
        (engine.CompactionMeets InOrder input → InLine (engine.call input).2) ∧
          (Ordered (engine.call input).2.levels → engine.CompactionMeets InOrder input) := by
      have meets (condition : List Level → TableFiles → CompactionTask → Prop) :
          engine.CompactionMeets condition input := by simp [CompactionMeets, nowhere]
      exact ⟨fun _ => .inl (sound.call (meets Faithful)).2.sound, fun _ => meets InOrder⟩
    cases input with
    | put | delete | putCommitted | deleteCommitted => cases recorded
    | get key => exact quiet rfl
    | flush =>
      rw [LSMTreeEngine.call, answer_snd]
      exact sound.flush_inLine
    | compact =>
      have meets : engine.CompactionMeets InOrder .compact ↔
          ∀ task ∈ engine.startedTask, InOrder engine.levels engine.files task := by
        simp [CompactionMeets, show engine.compactionStart .compact = some engine from rfl]
      rw [LSMTreeEngine.call, answer_snd, meets]
      exact sound.compact_inLine
    | checkpoint => exact quiet rfl
    | clear => exact quiet rfl

end

theorem InLine.call (inLine : InLine engine) (input : EngineCall)
    (meets : engine.CompactionMeets InOrder input) : InLine (engine.call input).2 := by
  rcases inLine with sound | frozen
  · exact (sound.call_inLine input).1 meets
  · exact .inr (frozen.call input)

theorem inLine_final (options : LSMTreeOptions) {calls : List EngineCall}
    (inOrder : call.Along (CompactionMeets InOrder) (fresh options) calls) :
    InLine (call.final (fresh options) calls) :=
  Machine.invariant_along InLine (fun _ input inLine => inLine.call input)
    (.inl (sound_fresh options)) inOrder

/-- The tables of all levels but level 0 are in order in every state of a run if and only
if every compaction of the run puts its new tables behind all others of their level. -/
theorem ordered_iff_inOrder (options : LSMTreeOptions) (calls : List EngineCall) :
    call.Along (CompactionMeets InOrder) (fresh options) calls ↔
      ∀ earlier, earlier <+: calls → Ordered (call.final (fresh options) earlier).levels := by
  refine Machine.along_iff_prefixes InLine (fun engine => Ordered engine.levels) ?_ ?_ ?_
    (.inl (sound_fresh options))
  · exact fun engine inLine => inLine.ordered
  · exact fun engine input inLine => inLine.call input
  · rintro engine input (sound | frozen) ordered
    · exact (sound.call_inLine input).2 ordered
    · exact frozen.meets input InOrder

/-- The second compaction into level 1 puts its table behind one with higher keys. -/
theorem compaction_breaks_order :
    let calls : List EngineCall :=
      [.put [5] [0], .flush, .put [6] [0], .flush, .put [7] [0], .flush, .put [8] [0], .flush,
        .put [1] [0], .flush, .put [2] [0], .flush, .put [3] [0], .flush, .put [4] [0], .flush]
    let engine := call.final
      (fresh { memtableSize := 1000, blockSize := 4, fileSize := List.length }) calls
    (engine.levels.map fun level => level.sstables.map fun table => (table.minKey, table.maxKey)) =
        [[], [([5], [8]), ([1], [4])], [], [], [], [], []] ∧
      ¬Ordered engine.levels := by
  decide +kernel

end LSMTreeEngine

end Nanograph.Lsm
