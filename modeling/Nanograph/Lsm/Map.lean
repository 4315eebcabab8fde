import Nanograph.Lsm.Calls

/-!
# The engine as a finite map

What an engine holds under a key is the newest entry in its memtables and tables.
A write changes it for one key, a flush and a faithful compaction leave it as it is.
An engine whose compactions are all faithful therefore answers as a finite map.
-/

namespace Nanograph.Lsm

open List Foundation Kvt

/-- The key that a record writes, and the value. -/
def WalRecord.write? : WalRecord → Option (Bytes × Option Bytes)
  | .put key value | .putCommitted key value _ => some (key, some value)
  | .delete key | .deleteCommitted key _ => some (key, none)
  | .commit _ | .checkpoint _ _ | .flushComplete _ _ => none

namespace EngineCall

/-- The key that a call writes, and the value. -/
def write? (input : EngineCall) : Option (Bytes × Option Bytes) :=
  input.record?.bind (·.write?)

/-- The value of a key after a call. -/
def effect (key : Bytes) (old : Option Bytes) : EngineCall → Option Bytes
  | .put written value | .putCommitted written value _ =>
    if key = written then some value else old
  | .delete written | .deleteCommitted written _ => if key = written then none else old
  | .clear => none
  | .get _ | .flush | .compact | .checkpoint => old

theorem write?_of_record {input : EngineCall} {record : WalRecord}
    (recorded : input.record? = some record) :
    ∃ written value, record.write? = some (written, value) ∧ input.write? = some (written, value) ∧
      ∀ key old, input.effect key old = if key = written then value else old := by
  cases input <;> cases recorded <;> exact ⟨_, _, rfl, rfl, fun _ _ => rfl⟩

end EngineCall

def finiteMap : Machine (Bytes → Option Bytes) EngineCall
    (Except EngineFault EngineAnswer) := fun map input =>
  (.ok (match input with | .get key => .found (map key) | _ => .done),
    fun key => input.effect key (map key))

namespace LSMTreeEngine

variable {engine : LSMTreeEngine}

/-- The value that an engine holds under a key. -/
def valueOf (engine : LSMTreeEngine) (key : Bytes) : Option Bytes :=
  ((engine.memtable.get key).or ((engine.immutableMemtable.bind (·.get key)).or
    (firstHit Entry.key ((readOrder engine.levels).map (contents engine.files)) key))).bind
      (·.value)

/-- An engine has a key in its memtable or its tables. -/
def Has (engine : LSMTreeEngine) (key : Bytes) : Prop :=
  (engine.memtable.get key).isSome ∨ InTables engine.levels engine.files key

/-- The writes in the log. -/
def loggedWrites (engine : LSMTreeEngine) : List (Bytes × Option Bytes) :=
  engine.wal.filterMap WalRecord.write?

/-- The manifest lists the tables. -/
def Listed (engine : LSMTreeEngine) : Prop :=
  engine.manifest = .written (manifestEntries engine.levels) ∨
    (engine.manifest = .missing ∧ engine.levels = (List.range 7).map Level.new)

/-- The invariant of an engine between two calls. -/
structure Sound (engine : LSMTreeEngine) : Prop extends Healthy engine where
  ordered : Ordered engine.levels

/-- Between two calls only the memtable and the tables count. -/
theorem valueOf_of_settled (settled : engine.immutableMemtable = none) (key : Bytes) :
    engine.valueOf key =
      (engine.memtable.get key).elim (readTables engine.levels engine.files key) (·.value) := by
  rw [valueOf, settled, readTables]
  cases engine.memtable.get key <;> rfl

/-- A read finds what the engine holds. -/
theorem get_spec (ready : engine.poisoned = false)
    (written : ∀ table ∈ engine.levels.flatMap (·.sstables), Written engine.files table)
    (ordered : Ordered engine.levels) (key : Bytes) :
    get key engine = .ok (engine.valueOf key) engine := by
  rw [get, get_bind, valueOf]
  cases engine.memtable.get key with
  | some entry => rfl
  | none =>
    cases engine.immutableMemtable.bind (·.get key) with
    | some entry => rfl
    | none =>
      simp only [Option.none_or]
      rw [bind_ok (run_lockLevels ready), findInLevels_eq key written ordered]
      rfl

/-- What a compaction leaves of an engine that loses nothing by it. -/
structure KeptBy (start next : LSMTreeEngine) : Prop where
  frame : next =
    { start with
      levels := next.levels
      files := next.files
      nextFileNumber := next.nextFileNumber
      manifest := next.manifest }
  stored : Stored next.levels next.files next.nextFileNumber
  ordered : Ordered next.levels
  reads : ∀ key, readTables next.levels next.files key = readTables start.levels start.files key
  keys : ∀ key, InTables next.levels next.files key → InTables start.levels start.files key
  listed : Listed start → Listed next

theorem CompactionResult.kept {start : LSMTreeEngine}
    {result : EStateM.Result EngineFault LSMTreeEngine Unit}
    (isResult : CompactionResult start result)
    (stored : Stored start.levels start.files start.nextFileNumber) (ordered : Ordered start.levels)
    (faithful : ∀ task ∈ start.startedTask, Faithful start.levels start.files task) :
    ∃ next, result = .ok () next ∧ KeptBy start next := by
  cases isResult with
  | nothing => exact ⟨start, rfl, rfl, stored, ordered, fun _ => rfl, fun _ has => has, id⟩
  | done task started compacted =>
    have loses := faithful task started
    exact ⟨_, rfl, rfl, compacted.stored, (compacted.ordered_iff ordered).mpr loses.inOrder,
      compacted.reads loses, compacted.keys, fun _ => .inl rfl⟩
  | stuck task started inOrder unfaithful => exact absurd (faithful task started) unfaithful

/-- What a call that does not write leaves of an engine. -/
structure Unchanged (engine next : LSMTreeEngine) : Prop where
  sound : Sound next
  values : ∀ key, next.valueOf key = engine.valueOf key
  keys : ∀ key, next.Has key → engine.Has key
  logged : next.loggedWrites = engine.loggedWrites
  listed : Listed engine → Listed next

theorem Unchanged.refl (sound : Sound engine) : Unchanged engine engine :=
  ⟨sound, fun _ => rfl, fun _ => id, rfl, id⟩

/-- A faithful compaction leaves the engine unchanged. -/
theorem Sound.compact (sound : Sound engine)
    (faithful : ∀ task ∈ engine.startedTask, Faithful engine.levels engine.files task) :
    ∃ next, maybeCompact engine = .ok () next ∧ Unchanged engine next := by
  obtain ⟨next, ran, kept⟩ := (maybeCompact_spec sound.ready sound.idle sound.stored).kept
    sound.stored sound.ordered faithful
  have memtable : next.memtable = engine.memtable := by rw [kept.frame]
  have settled : next.immutableMemtable = none := by rw [kept.frame]; exact sound.settled
  have healthy : Healthy next :=
    { ready := by rw [kept.frame]; exact sound.ready
      unflushed := by rw [kept.frame]; exact sound.unflushed
      idle := by rw [kept.frame]; exact sound.idle
      settled
      stored := kept.stored }
  refine ⟨next, ran, ⟨healthy, kept.ordered⟩, fun key => ?_, fun key has => ?_, ?_, kept.listed⟩
  · rw [valueOf_of_settled settled, valueOf_of_settled sound.settled, memtable, kept.reads]
  · rw [Has, memtable] at has
    exact has.imp_right (kept.keys key)
  · rw [loggedWrites, kept.frame]
    rfl

section

variable {table : SSTableMetadata}

section

variable (stored : Stored engine.levels engine.files engine.nextFileNumber)

include stored

theorem contents_insert_next (entries : List Entry)
    (mem : table ∈ engine.levels.flatMap (·.sstables)) :
    contents (engine.files.insert engine.nextFileNumber entries) table =
      contents engine.files table := by
  have earlier := stored.issued table mem
  rw [contents, AList.lookup_insert_ne (by omega), contents]

/-- The tables of a flushed engine have the entries of its memtable in front. -/
theorem readTables_persisted (tableFor : TableFor engine engine.memtable table) (key : Bytes) :
    readTables (engine.levels.modify 0 (·.addSstable table))
        (engine.files.insert engine.nextFileNumber (engine.memtable.data.map Entry.persisted)) key =
      (engine.memtable.get key).elim (readTables engine.levels engine.files key) (·.value) := by
  have others : (readOrder engine.levels).map (contents (engine.files.insert
        engine.nextFileNumber (engine.memtable.data.map Entry.persisted))) =
      (readOrder engine.levels).map (contents engine.files) :=
    map_congr_left fun other mem =>
      contents_insert_next stored _ (mem_readOrder.mp mem)
  rw [readTables, (stored.flushed tableFor.number tableFor.holding).2.1, map_cons, others,
    firstHit_cons, tableFor.holding.contents_eq]
  change (((entryAt (engine.memtable.data.map Entry.persisted) key).or _).bind _) = _
  rw [entryAt_persisted, MemTable.get, readTables]
  cases entryAt engine.memtable.data key <;> rfl

theorem inTables_persisted (tableFor : TableFor engine engine.memtable table) {key : Bytes}
    (has : InTables (engine.levels.modify 0 (·.addSstable table))
      (engine.files.insert engine.nextFileNumber (engine.memtable.data.map Entry.persisted)) key) :
    engine.Has key := by
  obtain ⟨other, mem, entry, inFile, rfl⟩ := has
  rw [← mem_readOrder, (stored.flushed tableFor.number tableFor.holding).2.1] at mem
  rcases mem_cons.mp mem with rfl | old
  · rw [tableFor.holding.contents_eq] at inFile
    obtain ⟨stored, inMemtable, rfl⟩ := mem_map.mp inFile
    left
    exact Option.isSome_iff_exists.mpr ⟨stored, engine.memtable.ascending.itemAt_eq inMemtable⟩
  · rw [contents_insert_next stored _ (mem_readOrder.mp old)] at inFile
    exact .inr ⟨other, mem_readOrder.mp old, entry, inFile, rfl⟩

end

/-- The engine in which a flush starts its compaction has the entries of the memtable in its
tables. -/
theorem Sound.flushedEngine {start : LSMTreeEngine} (sound : Sound engine)
    (starts : engine.flushedEngine = some start) :
    Stored start.levels start.files start.nextFileNumber ∧ Ordered start.levels ∧
      start.poisoned = false ∧ start.memtable = MemTable.new ∧
      ∀ key, readTables start.levels start.files key = engine.valueOf key := by
  by_cases empty : engine.memtable.data = []
  · rw [(maybeFlushMemtable_empty sound.toHealthy empty).1] at starts
    cases starts
  · obtain ⟨table, tableFor, isStart, -⟩ := maybeFlushMemtable_spec sound.toHealthy empty
    obtain rfl := Option.some.inj (isStart.symm.trans starts)
    have added := sound.stored.flushed tableFor.number tableFor.holding
    refine ⟨added.1, fun level mem => sound.ordered level (added.2.2 ▸ mem), sound.ready, rfl,
      fun key => ?_⟩
    rw [valueOf_of_settled sound.settled]
    exact readTables_persisted sound.stored tableFor key

/-- A flush with a faithful compaction leaves the engine unchanged. -/
theorem Sound.flush (sound : Sound engine)
    (faithful : ∀ start ∈ engine.flushedEngine, ∀ task ∈ start.startedTask,
      Faithful start.levels start.files task) :
    ∃ next, maybeFlushMemtable noFailure engine = .ok () next ∧ Unchanged engine next := by
  by_cases empty : engine.memtable.data = []
  · have missing (key : Bytes) : engine.memtable.get key = none := by
      rw [MemTable.get, empty]
      rfl
    have settled : { engine with memtable := MemTable.new }.immutableMemtable = none :=
      sound.settled
    refine ⟨_, (maybeFlushMemtable_empty sound.toHealthy empty).2,
      ⟨⟨sound.ready, sound.unflushed, sound.idle, settled, sound.stored⟩, sound.ordered⟩,
      fun key => ?_, fun key has => .inr (has.resolve_left (by simp)), rfl, id⟩
    rw [valueOf_of_settled settled, valueOf_of_settled sound.settled, missing]
    rfl
  · obtain ⟨table, tableFor, starts, ends⟩ := maybeFlushMemtable_spec sound.toHealthy empty
    have added := sound.stored.flushed tableFor.number tableFor.holding
    have ordered : Ordered (engine.swapMemtable.persisted engine.memtable table).levels :=
      fun level mem => sound.ordered level (added.2.2 ▸ mem)
    rcases ends with ⟨next, isResult, ran⟩ | ⟨next, isResult, -⟩
    · obtain ⟨_, same, kept⟩ := isResult.kept added.1 ordered (faithful _ starts)
      cases same
      have settled : next.settle.immutableMemtable = none := rfl
      have memtable : next.settle.memtable = MemTable.new := by rw [settle, kept.frame]; rfl
      refine ⟨next.settle, ran, ⟨⟨?_, rfl, ?_, settled, kept.stored⟩, kept.ordered⟩,
        fun key => ?_, fun key has => ?_, ?_, fun _ => kept.listed (.inl rfl)⟩
      · rw [settle, kept.frame]; exact sound.ready
      · rw [settle, kept.frame]; exact sound.idle
      · rw [valueOf_of_settled settled, valueOf_of_settled sound.settled, memtable]
        exact (kept.reads key).trans (readTables_persisted sound.stored tableFor key)
      · have inTables := has.resolve_left (by rw [memtable]; simp)
        exact inTables_persisted sound.stored tableFor (kept.keys key inTables)
      · rw [loggedWrites, settle, kept.frame]
        simp [persisted, withTables, swapMemtable, loggedWrites, WalRecord.write?]
    · obtain ⟨_, same, -⟩ := isResult.kept added.1 ordered (faithful _ starts)
      cases same

end

structure Performed (engine : LSMTreeEngine) (input : EngineCall) (next : LSMTreeEngine) :
    Prop where
  sound : Sound next
  values : ∀ key, next.valueOf key = input.effect key (engine.valueOf key)
  keys : ∀ key, next.Has key → engine.Has key ∨ ∃ value, input.write? = some (key, value)
  logged : next.loggedWrites = engine.loggedWrites ++ input.write?.toList
  listed : Listed engine → Listed next

variable {input : EngineCall}

section

variable {record : WalRecord} {written : Bytes} {value : Option Bytes}

section

variable (engine)

include engine

/-- A record with a write goes to the memtable. -/
theorem get_replayRecord (writes : record.write? = some (written, value)) :
    ∃ entry : Entry, entry.key = written ∧ entry.value = value ∧
      ∀ key, (engine.replayRecord record).memtable.get key =
        if key = written then some entry else engine.memtable.get key := by
  have stored (entry : Entry) (key : Bytes) : (engine.memtable.store entry).get key =
      if key = entry.key then some entry else engine.memtable.get key := by
    rw [MemTable.get_store]
    simp only [eq_comm]
  cases record with
  | put key value => cases writes; exact ⟨_, rfl, rfl, stored _⟩
  | delete key => cases writes; exact ⟨_, rfl, rfl, stored _⟩
  | putCommitted key value commitTs => cases writes; exact ⟨_, rfl, rfl, stored _⟩
  | deleteCommitted key commitTs => cases writes; exact ⟨_, rfl, rfl, stored _⟩
  | commit | checkpoint | flushComplete => cases writes

theorem replayRecord_of_marker (marks : record.write? = none) :
    engine.replayRecord record = engine := by
  cases record <;> first | rfl | cases marks

/-- A record changes the memtable and the clock only. -/
theorem replayRecord_frame (record : WalRecord) :
    engine.replayRecord record =
      { engine with
        memtable := (engine.replayRecord record).memtable
        clock := (engine.replayRecord record).clock } := by
  cases record <;> rfl

/-- A record changes the memtable, the clock and the log only. -/
theorem logged_frame (record : WalRecord) :
    engine.logged record =
      { engine with
        memtable := (engine.logged record).memtable
        clock := (engine.logged record).clock
        wal := engine.wal ++ [record] } := by
  cases record <;> rfl

end

/-- A record in the log and in the memtable, before any flush. -/
theorem Sound.logged (sound : Sound engine) (writes : record.write? = some (written, value)) :
    Sound (engine.logged record) ∧ (∀ key, (engine.logged record).valueOf key =
        if key = written then value else engine.valueOf key) ∧
      (∀ key, (engine.logged record).Has key → engine.Has key ∨ key = written) ∧
      (engine.logged record).loggedWrites = engine.loggedWrites ++ [(written, value)] ∧
      (Listed engine → Listed (engine.logged record)) := by
  obtain ⟨entry, rfl, rfl, stored⟩ :=
    get_replayRecord { engine with wal := engine.wal ++ [record] } writes
  have frame := logged_frame engine record
  have settled : (engine.logged record).immutableMemtable = none := by
    rw [frame]; exact sound.settled
  have levels : (engine.logged record).levels = engine.levels := by rw [frame]
  have files : (engine.logged record).files = engine.files := by rw [frame]
  refine ⟨⟨⟨?_, ?_, ?_, settled, ?_⟩, levels ▸ sound.ordered⟩, fun key => ?_, fun key has => ?_, ?_,
    fun listed => ?_⟩
  · rw [frame]; exact sound.ready
  · rw [frame]; exact sound.unflushed
  · rw [frame]; exact sound.idle
  · rw [frame]; exact sound.stored
  · rw [valueOf_of_settled settled, valueOf_of_settled sound.settled, LSMTreeEngine.logged, stored]
    rw [← LSMTreeEngine.logged, levels, files]
    split <;> rfl
  · rw [Has, levels, files, LSMTreeEngine.logged, stored] at has
    by_cases hit : key = entry.key
    · exact .inr hit
    · rw [if_neg hit] at has
      exact .inl has
  · rw [loggedWrites, frame]
    simp [loggedWrites, writes]
  · rw [frame]
    exact listed

theorem Sound.flushIfFull (sound : Sound engine)
    (faithful : engine.memtable.size ≥ engine.options.memtableSize →
      ∀ start ∈ engine.flushedEngine, ∀ task ∈ start.startedTask,
        Faithful start.levels start.files task) :
    ∃ next, LSMTreeEngine.flushIfFull engine = .ok () next ∧ Unchanged engine next := by
  rw [LSMTreeEngine.flushIfFull, get_bind]
  split
  next full => exact sound.flush (faithful full)
  next => exact ⟨engine, rfl, .refl sound⟩

/-- A write to the log and to the memtable, and a flush if that is full. -/
theorem Sound.write (sound : Sound engine) (recorded : input.record? = some record)
    (faithful : ∀ start ∈ engine.writtenEngine record, ∀ task ∈ start.startedTask,
      Faithful start.levels start.files task) :
    ∃ next, writeRecord record engine = .ok () next ∧ Performed engine input next := by
  obtain ⟨written, value, writes, same, effect⟩ := EngineCall.write?_of_record recorded
  obtain ⟨logged, values, keys, writesLogged, listed⟩ := sound.logged writes
  obtain ⟨next, ran, unchanged⟩ := logged.flushIfFull fun full start starts =>
    faithful start (by rwa [writtenEngine, if_pos full])
  refine ⟨next, ran, unchanged.sound, fun key => ?_, fun key has => ?_, ?_,
    fun isListed => unchanged.listed (listed isListed)⟩
  · rw [unchanged.values, values, effect]
  · refine (keys key (unchanged.keys key has)).imp_right ?_
    rintro rfl
    exact ⟨value, same⟩
  · rw [unchanged.logged, writesLogged, same]
    rfl

end

/-- A call that does not write. -/
theorem Unchanged.performed {next : LSMTreeEngine} {input : EngineCall}
    (unchanged : Unchanged engine next) (writes : input.write? = none)
    (effect : ∀ key old, input.effect key old = old) : Performed engine input next where
  sound := unchanged.sound
  values key := by rw [unchanged.values, effect]
  keys key has := .inl (unchanged.keys key has)
  logged := by rw [unchanged.logged, writes]; simp
  listed := unchanged.listed

theorem Sound.checkpoint (sound : Sound engine) :
    ∃ next, LSMTreeEngine.checkpoint engine = .ok () next ∧ Unchanged engine next := by
  have ran : LSMTreeEngine.checkpoint engine = .ok ()
      { engine with
        wal := engine.wal ++ [.checkpoint engine.memtable.sequence engine.nextFileNumber]
        manifest := .written (manifestEntries engine.levels) } := by
    rw [LSMTreeEngine.checkpoint, get_bind, appendWal, modify_bind,
      run_saveManifest (by exact sound.ready)]
  refine ⟨_, ran,
    ⟨⟨sound.ready, sound.unflushed, sound.idle, sound.settled, sound.stored⟩, sound.ordered⟩,
    fun _ => rfl, fun _ => id, ?_, fun _ => .inl rfl⟩
  simp [loggedWrites, WalRecord.write?]

section

variable (levels : List Level)

theorem flatMap_emptyLevels : (emptyLevels levels).flatMap (·.sstables) = [] := by
  simp [emptyLevels, flatMap_map]

theorem pairwise_emptyLevels (relation : SSTableMetadata → SSTableMetadata → Prop) :
    ∀ level ∈ (emptyLevels levels).tail, level.sstables.Pairwise relation := by
  intro level mem
  obtain ⟨old, -, rfl⟩ := mem_map.mp (mem_of_mem_tail mem)
  exact List.Pairwise.nil

theorem stored_emptyLevels (numbered : levels.map (·.levelNumber) = List.range 7)
    (files : TableFiles) (next : Nat) : Stored (emptyLevels levels) files next where
  numbered := by rw [← numbered, emptyLevels, map_map]; rfl
  written := by simp [flatMap_emptyLevels]
  issued := by simp [flatMap_emptyLevels]
  distinct := by simp [flatMap_emptyLevels]
  apart := pairwise_emptyLevels levels Apart

theorem readOrder_emptyLevels : readOrder (emptyLevels levels) = [] := by
  refine eq_nil_iff_forall_not_mem.mpr fun table mem => ?_
  rw [mem_readOrder, flatMap_emptyLevels] at mem
  cases mem

end

theorem Sound.clear (sound : Sound engine) :
    ∃ next, LSMTreeEngine.clear engine = .ok () next ∧ Performed engine .clear next := by
  have ran : LSMTreeEngine.clear engine = .ok ()
      { engine with
        memtable := engine.memtable.clear
        immutableMemtable := none
        files := removeFiles (engine.levels.flatMap (·.sstables)) engine.files
        levels := emptyLevels engine.levels
        manifest := .written (manifestEntries (emptyLevels engine.levels)) } := by
    rw [LSMTreeEngine.clear, modify_bind, bind_ok (run_lockLevels (by exact sound.ready)),
      modify_bind, run_saveManifest (by exact sound.ready)]
  refine ⟨_, ran, ⟨⟨sound.ready, sound.unflushed, sound.idle, rfl, ?_⟩, ?_⟩, fun key => ?_,
    fun key has => ?_, ?_, fun _ => .inl rfl⟩
  · exact stored_emptyLevels _ sound.stored.numbered _ _
  · exact pairwise_emptyLevels _ Below
  · rw [valueOf_of_settled rfl, readTables, readOrder_emptyLevels]
    rfl
  · rcases has with inMemtable | ⟨table, mem, -⟩
    · cases inMemtable
    · rw [flatMap_emptyLevels] at mem
      cases mem
  · simp [loggedWrites, EngineCall.write?, EngineCall.record?]

/-- The answer of a call that ran, and the engine behind it. -/
theorem performed_of_run {α : Type} {run : EngineM α} {wrap : α → EngineAnswer} {value : α}
    {next : LSMTreeEngine} (ran : run engine = .ok value next)
    (isCall : engine.call input = answer run wrap engine)
    (answers : (finiteMap engine.valueOf input).1 = .ok (wrap value))
    (performed : Performed engine input next) :
    (engine.call input).1 = (finiteMap engine.valueOf input).1 ∧
      Performed engine input (engine.call input).2 := by
  rw [isCall, answer, ran, answers]
  exact ⟨rfl, performed⟩

/-- A call with a faithful compaction answers as a finite map, and does what it says. -/
theorem Sound.call (sound : Sound engine) (faithful : engine.CompactionMeets Faithful input) :
    (engine.call input).1 = (finiteMap engine.valueOf input).1 ∧
      Performed engine input (engine.call input).2 := by
  cases recorded : input.record? with
  | some record =>
    obtain ⟨next, ran, performed⟩ := sound.write recorded
      (compactionStart_of_record recorded ▸ faithful)
    refine performed_of_run ran (call_of_record recorded) ?_ performed
    cases input <;> cases recorded <;> rfl
  | none =>
    cases input with
    | put | delete | putCommitted | deleteCommitted => cases recorded
    | get key =>
      have ran := get_spec sound.ready sound.stored.written sound.ordered key
      exact performed_of_run ran rfl rfl
        ((Unchanged.refl sound).performed rfl fun _ _ => rfl)
    | flush =>
      obtain ⟨next, ran, unchanged⟩ := sound.flush faithful
      exact performed_of_run ran rfl rfl (unchanged.performed rfl fun _ _ => rfl)
    | compact =>
      obtain ⟨next, ran, unchanged⟩ := sound.compact (faithful engine rfl)
      exact performed_of_run ran rfl rfl (unchanged.performed rfl fun _ _ => rfl)
    | checkpoint =>
      obtain ⟨next, ran, unchanged⟩ := sound.checkpoint
      exact performed_of_run ran rfl rfl (unchanged.performed rfl fun _ _ => rfl)
    | clear =>
      obtain ⟨next, ran, performed⟩ := sound.clear
      exact performed_of_run ran rfl rfl performed

theorem sound_fresh (options : LSMTreeOptions) : Sound (fresh options) where
  ready := rfl
  unflushed := rfl
  idle := rfl
  settled := rfl
  stored :=
    { numbered := rfl
      written := by simp [fresh, blank, Level.new, flatMap_map]
      issued := by simp [fresh, blank, Level.new, flatMap_map]
      distinct := nodup_nil
      apart := by simp [fresh, blank, Level.new, range_succ] }
  ordered := by simp [Ordered, fresh, blank, Level.new, range_succ]

/-- The state that calls with faithful compactions lead to. -/
theorem sound_final (options : LSMTreeOptions) {calls : List EngineCall}
    (faithful : call.Along (CompactionMeets Faithful) (fresh options) calls) :
    Sound (call.final (fresh options) calls) :=
  Machine.invariant_along Sound (fun _ _ sound meets => (sound.call meets).2.sound)
    (sound_fresh options) faithful

/-- When no compaction of a run loses anything, the engine answers all calls as a finite
map does. -/
theorem engine_answers_finiteMap (options : LSMTreeOptions) (calls : List EngineCall)
    (faithful : call.Along (CompactionMeets Faithful) (fresh options) calls) :
    call.answers (fresh options) calls = finiteMap.answers (fun _ => none) calls := by
  refine (Machine.simulates_along (fun engine map => Sound engine ∧ engine.valueOf = map)
    (fun engine map input holds meets => ?_) ⟨sound_fresh options, ?_⟩ faithful).1
  · obtain ⟨sound, rfl⟩ := holds
    obtain ⟨answers, performed⟩ := sound.call meets
    exact ⟨answers, performed.sound, funext performed.values⟩
  · rfl

/-- Four flushes of different keys, and the compaction of their tables. -/
theorem engine_answers_finiteMap_four_tables :
    call.answers (fresh { memtableSize := 100, blockSize := 4, fileSize := List.length })
      [.put [1] [7], .flush, .put [2] [8], .flush, .put [3] [9], .flush, .put [4] [6], .flush,
        .delete [3], .get [2], .get [3]] =
      [.ok .done, .ok .done, .ok .done, .ok .done, .ok .done, .ok .done, .ok .done, .ok .done,
        .ok .done, .ok (.found (some [8])), .ok (.found none)] :=
  engine_answers_finiteMap _ _ (by decide +kernel)

/-- A compaction keeps the entry with the lowest sequence number, here the older one. -/
theorem compaction_keeps_older_value :
    call.answers (fresh { memtableSize := 1000, blockSize := 4, fileSize := List.length })
      [.put [1] [7], .flush, .put [2] [0], .put [1] [8], .flush, .put [3] [0], .flush, .get [1],
        .put [4] [0], .flush, .get [1]] =
      [.ok .done, .ok .done, .ok .done, .ok .done, .ok .done, .ok .done, .ok .done,
        .ok (.found (some [8])), .ok .done, .ok .done, .ok (.found (some [7]))] := by
  decide +kernel

end LSMTreeEngine

end Nanograph.Lsm
