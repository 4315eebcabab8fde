import Nanograph.Lsm.Map

/-!
# Opening an engine again

A new engine over the files of an old one has the tables that the manifest lists, and
a memtable with all writes of the log. The log is never truncated, so the new engine
holds the last write of every key, also of those keys that were cleared since.
-/

namespace Nanograph.Lsm

open List Function Foundation Kvt

def callWrites (calls : List EngineCall) : List (Bytes × Option Bytes) :=
  calls.filterMap EngineCall.write?

/-- The calls of a run up to the last clear. -/
def beforeClear (calls : List EngineCall) : List EngineCall := calls.rdropWhile (· ≠ .clear)

/-- The calls of a run after the last clear. -/
def sinceClear (calls : List EngineCall) : List EngineCall := calls.rtakeWhile (· ≠ .clear)

/-- Every key that held a value before the last clear is written again after it. -/
def RewrittenAfterClear (calls : List EngineCall) : Prop :=
  ∀ write ∈ callWrites (beforeClear calls),
    (lastWritten (callWrites (beforeClear calls)) write.1).join.isSome →
      (lastWritten (callWrites (sinceClear calls)) write.1).isSome

instance (calls : List EngineCall) : Decidable (RewrittenAfterClear calls) :=
  inferInstanceAs (Decidable (∀ write ∈ callWrites (beforeClear calls), _))

section

variable (calls : List EngineCall) (key : Bytes)

/-- The value of a key after a run. -/
def valueAfter : Option Bytes := calls.foldl (fun old input => input.effect key old) none

theorem callWrites_append (earlier later : List EngineCall) :
    callWrites (earlier ++ later) = callWrites earlier ++ callWrites later :=
  filterMap_append

theorem beforeClear_append_sinceClear : beforeClear calls ++ sinceClear calls = calls := by
  rw [beforeClear, sinceClear, List.rdropWhile, List.rtakeWhile, ← reverse_append,
    takeWhile_append_dropWhile, reverse_reverse]

/-- Nothing is left after a clear. -/
theorem valueAfter_beforeClear : valueAfter (beforeClear calls) key = none := by
  by_cases empty : beforeClear calls = []
  · rw [empty]
    rfl
  · have isClear : (beforeClear calls).getLast empty = .clear := by
      have last : ¬decide ((beforeClear calls).getLast empty ≠ .clear) = true :=
        rdropWhile_last_not _ calls empty
      rwa [decide_eq_true_iff, not_not] at last
    rw [← dropLast_append_getLast empty, isClear, valueAfter, foldl_append]
    rfl

/-- A call other than a clear changes a key only by a write. -/
theorem effect_eq {input : EngineCall} (notClear : input ≠ .clear) (old : Option Bytes) :
    input.effect key old = (lastWritten input.write?.toList key).getD old := by
  cases recorded : input.record? with
  | some record =>
    obtain ⟨written, value, -, writes, effect⟩ := EngineCall.write?_of_record recorded
    rw [effect, writes, Option.toList_some, lastWritten_singleton]
    by_cases hit : key = written
    · simp [hit]
    · simp [hit, Ne.symm hit]
  | none =>
    cases input with
    | put | delete | putCommitted | deleteCommitted => cases recorded
    | get | flush | compact | checkpoint => rfl
    | clear => exact absurd rfl notClear

/-- Calls other than a clear change a key only by their last write to it. -/
theorem foldl_effect {calls : List EngineCall} (noClear : ∀ input ∈ calls, input ≠ .clear)
    (old : Option Bytes) :
    calls.foldl (fun old input => input.effect key old) old =
      (lastWritten (callWrites calls) key).getD old := by
  induction calls generalizing old with
  | nil => rfl
  | cons input rest ih =>
    rw [forall_mem_cons] at noClear
    rw [foldl_cons, ih noClear.2, effect_eq key noClear.1,
      ← singleton_append, callWrites_append, lastWritten_append]
    cases lastWritten (callWrites rest) key with
    | some value => rfl
    | none => cases writes : input.write? <;> simp [callWrites, writes]

/-- A run leaves the last write after the last clear. -/
theorem valueAfter_eq :
    valueAfter calls key = (lastWritten (callWrites (sinceClear calls)) key).getD none := by
  have noClear : ∀ input ∈ sinceClear calls, input ≠ .clear := fun input mem => by
    simpa using mem_rtakeWhile_imp mem
  rw [← foldl_effect key noClear, ← valueAfter_beforeClear calls key, valueAfter, valueAfter,
    ← foldl_append, beforeClear_append_sinceClear]

/-- The last write of a key in the log is its value, unless a clear came in between. -/
theorem lastWritten_eq_valueAfter_iff :
    (∀ key, (lastWritten (callWrites calls) key).getD none = valueAfter calls key) ↔
      RewrittenAfterClear calls := by
  have split (key : Bytes) : lastWritten (callWrites calls) key =
      (lastWritten (callWrites (sinceClear calls)) key).or
        (lastWritten (callWrites (beforeClear calls)) key) := by
    rw [← lastWritten_append, ← callWrites_append, beforeClear_append_sinceClear]
  simp only [valueAfter_eq, split]
  constructor
  · intro agree write _ held
    by_contra missing
    have same := agree write.1
    cases last : lastWritten (callWrites (beforeClear calls)) write.1 with
    | none => simp [last] at held
    | some value => simp_all
  · intro rewritten key
    cases since : lastWritten (callWrites (sinceClear calls)) key with
    | some value => rfl
    | none =>
      cases before : lastWritten (callWrites (beforeClear calls)) key with
      | none => rfl
      | some value =>
        have written : ∃ write ∈ callWrites (beforeClear calls), write.1 = key := by
          by_contra absent
          rw [lastWritten_eq_none.mpr fun write mem same => absent ⟨write, mem, same⟩]
            at before
          cases before
        obtain ⟨write, mem, rfl⟩ := written
        have kept := rewritten write mem
        rw [since, before] at kept
        cases value with
        | none => rfl
        | some value => cases kept rfl

end

namespace LSMTreeEngine

variable {calls : List EngineCall} {engine : LSMTreeEngine} {levels : List Level}

/-- The tables that a manifest lists for a level. -/
def listedAt (entries : List ManifestEntry) (index : Nat) : List SSTableMetadata :=
  (entries.filter (·.level = index)).map (·.metadata)

theorem loadEntry_frame (engine : LSMTreeEngine) (entry : ManifestEntry) :
    engine.loadEntry entry =
      { engine with
        levels := (engine.loadEntry entry).levels
        nextFileNumber := (engine.loadEntry entry).nextFileNumber } := by
  rw [loadEntry]
  split <;> rfl

/-- Every level gets the tables that the manifest lists for it. -/
theorem levels_loadEntries (entries : List ManifestEntry) (engine : LSMTreeEngine) (index : Nat) :
    ((entries.foldl loadEntry engine).levels[index]?).map (·.sstables) =
      (engine.levels[index]?).map fun level => level.sstables ++ listedAt entries index := by
  induction entries generalizing engine with
  | nil => simp [listedAt]
  | cons entry rest ih =>
    rw [foldl_cons, ih, loadEntry]
    split
    next inside =>
      by_cases hit : entry.level = index
      · simp [listedAt, hit, Level.addSstable, comp_def]
      · simp [listedAt, hit]
    next outside =>
      by_cases hit : entry.level = index
      · rw [getElem?_eq_none (by omega)]
        rfl
      · simp [listedAt, hit]

theorem listedAt_append (first second : List ManifestEntry) (index : Nat) :
    listedAt (first ++ second) index = listedAt first index ++ listedAt second index := by
  simp [listedAt]

/-- The manifest lists the tables of every level under its number. -/
theorem listedAt_manifestEntries {start : Nat}
    (numbered : levels.map (·.levelNumber) = List.range' start levels.length) (index : Nat) :
    listedAt (manifestEntries levels) index =
      if start ≤ index then ((levels[index - start]?).map (·.sstables)).getD [] else [] := by
  induction levels generalizing start with
  | nil => simp [manifestEntries, listedAt]
  | cons level rest ih =>
    rw [map_cons, length_cons, List.range'_succ, List.cons.injEq] at numbered
    obtain ⟨rfl, restNumbered⟩ := numbered
    have own : listedAt (level.sstables.map fun table =>
        { fileNumber := table.fileNumber, level := level.levelNumber, metadata := table }) index =
        if level.levelNumber = index then level.sstables else [] := by
      by_cases hit : level.levelNumber = index
      · simp [listedAt, hit, filter_map, comp_def]
      · simp [listedAt, hit, filter_map, comp_def]
    rw [manifestEntries, flatMap_cons, listedAt_append, own]
    rw [← manifestEntries, ih restNumbered]
    rcases lt_trichotomy level.levelNumber index with below | rfl | above
    · rw [if_neg (by omega), if_pos (by omega), if_pos (by omega),
        show index - level.levelNumber = index - (level.levelNumber + 1) + 1 by omega,
        getElem?_cons_succ, nil_append]
    · simp
    · rw [if_neg (by omega), if_neg (by omega), if_neg (by omega)]
      rfl

theorem loadEntries_frame (entries : List ManifestEntry) (engine : LSMTreeEngine) :
    entries.foldl loadEntry engine =
      { engine with
        levels := (entries.foldl loadEntry engine).levels
        nextFileNumber := (entries.foldl loadEntry engine).nextFileNumber } := by
  induction entries generalizing engine with
  | nil => rfl
  | cons entry rest ih =>
    rw [foldl_cons]
    refine (ih (engine.loadEntry entry)).trans ?_
    rw [loadEntry_frame engine entry]

/-- A manifest restores the tables of all levels. -/
theorem sstables_loadEntries {start : LSMTreeEngine}
    (numbered : engine.levels.map (·.levelNumber) = List.range 7)
    (empty : start.levels = (List.range 7).map Level.new) :
    ((manifestEntries engine.levels).foldl loadEntry start).levels.map (·.sstables) =
      engine.levels.map (·.sstables) := by
  have seven : engine.levels.length = 7 := by simpa using congrArg List.length numbered
  have inOrder : engine.levels.map (·.levelNumber) = List.range' 0 engine.levels.length := by
    rw [numbered, seven, range_eq_range']
  have listed (index : Nat) := listedAt_manifestEntries inOrder index
  refine ext_getElem? fun index => ?_
  rw [getElem?_map, getElem?_map, levels_loadEntries, listed, empty]
  by_cases inside : index < 7
  · simp [inside, seven, Level.new]
  · have missing : engine.levels[index]? = none := getElem?_eq_none (by omega)
    have none : ((List.range 7).map Level.new)[index]? = none :=
      getElem?_eq_none (by simpa using inside)
    rw [missing, none]
    rfl

/-- Loading the manifest gives an empty engine the tables of the old one. -/
theorem loadManifest_spec (listed : Listed engine)
    (numbered : engine.levels.map (·.levelNumber) = List.range 7) (options : LSMTreeOptions) :
    ∃ loaded, (blank options engine.files engine.manifest engine.wal).loadManifest = .ok loaded ∧
      loaded = { blank options engine.files engine.manifest engine.wal with
        levels := loaded.levels
        nextFileNumber := loaded.nextFileNumber } ∧
      loaded.levels.map (·.sstables) = engine.levels.map (·.sstables) := by
  rcases listed with isWritten | ⟨isMissing, empty⟩
  · rw [loadManifest, show (blank options engine.files engine.manifest engine.wal).manifest = _
      from isWritten]
    exact ⟨_, rfl, loadEntries_frame _ _, sstables_loadEntries numbered rfl⟩
  · rw [loadManifest, show (blank options engine.files engine.manifest engine.wal).manifest = _
      from isMissing]
    exact ⟨_, rfl, rfl, (congrArg (List.map (·.sstables)) empty).symm⟩

section

variable {engine : LSMTreeEngine}

theorem replay_frame (records : List WalRecord) (engine : LSMTreeEngine) :
    records.foldl replayRecord engine =
      { engine with
        memtable := (records.foldl replayRecord engine).memtable
        clock := (records.foldl replayRecord engine).clock } := by
  induction records generalizing engine with
  | nil => rfl
  | cons record rest ih =>
    rw [foldl_cons]
    refine (ih (engine.replayRecord record)).trans ?_
    rw [replayRecord_frame engine record]

/-- After a replay the memtable has the last write of every key. -/
theorem get_replay (records : List WalRecord) (engine : LSMTreeEngine) (key : Bytes) :
    ((records.foldl replayRecord engine).memtable.get key).map (·.value) =
      (lastWritten (records.filterMap WalRecord.write?) key).or
        ((engine.memtable.get key).map (·.value)) := by
  induction records generalizing engine with
  | nil => rfl
  | cons record rest ih =>
    rw [foldl_cons, ih]
    cases writes : record.write? with
    | none => rw [replayRecord_of_marker engine writes, filterMap_cons_none writes]
    | some write =>
      obtain ⟨written, value⟩ := write
      obtain ⟨entry, -, rfl, stored⟩ := get_replayRecord engine writes
      rw [filterMap_cons_some writes, ← singleton_append, lastWritten_append,
        lastWritten_singleton, stored, Option.or_assoc]
      by_cases hit : key = written
      · simp [hit]
      · simp [hit, Ne.symm hit]

end

/-- What a run has left in the engine and in its files. -/
structure Recorded (calls : List EngineCall) (engine : LSMTreeEngine) : Prop where
  sound : Sound engine
  listed : Listed engine
  logged : engine.loggedWrites = callWrites calls
  keys : ∀ key, engine.Has key → (lastWritten (callWrites calls) key).isSome
  values : ∀ key, engine.valueOf key = valueAfter calls key

theorem recorded_fresh (options : LSMTreeOptions) : Recorded [] (fresh options) where
  sound := sound_fresh options
  listed := .inr ⟨rfl, rfl⟩
  logged := rfl
  keys key has := by
    rcases has with inMemtable | ⟨table, mem, -⟩
    · cases inMemtable
    · simp [fresh, blank, Level.new, flatMap_map] at mem
  values _ := rfl

theorem Recorded.call (recorded : Recorded calls engine) {input : EngineCall}
    (faithful : engine.CompactionMeets Faithful input) :
    Recorded (calls ++ [input]) (engine.call input).2 := by
  obtain ⟨-, performed⟩ := recorded.sound.call faithful
  have writes : callWrites (calls ++ [input]) = callWrites calls ++ input.write?.toList := by
    cases writes : input.write? <;> simp [callWrites, writes]
  refine ⟨performed.sound, performed.listed recorded.listed, ?_, fun key has => ?_, fun key => ?_⟩
  · rw [performed.logged, recorded.logged, writes]
  · rw [writes, lastWritten_append, Option.isSome_or]
    rcases performed.keys key has with earlier | ⟨value, own⟩
    · simp [recorded.keys key earlier]
    · simp [own, lastWritten_singleton]
  · rw [performed.values, recorded.values, valueAfter, valueAfter, foldl_append]
    rfl

/-- Only the tables of the levels decide whether they are in order. -/
theorem ordered_of_sstables {others : List Level}
    (same : others.map (·.sstables) = levels.map (·.sstables)) (ordered : Ordered levels) :
    Ordered others := by
  have tails : ∀ tables ∈ levels.tail.map (·.sstables), tables.Pairwise Below :=
    forall_mem_map.mpr ordered
  rw [map_tail, ← same, ← map_tail] at tails
  exact forall_mem_map.mp tails

/-- Tables without a key have no value for it. -/
theorem readTables_of_not_inTables {files : TableFiles} {key : Bytes}
    (missing : ¬InTables levels files key) : readTables levels files key = none := by
  rw [readTables, firstHit_eq_none.mpr]
  · rfl
  · intro source mem
    obtain ⟨table, isTable, rfl⟩ := mem_map.mp mem
    exact itemAt_eq_none.mpr fun entry inFile same =>
      missing ⟨table, mem_readOrder.mp isTable, entry, inFile, same⟩

/-- An engine opened again over the files of another one holds the last logged write of
every key. -/
theorem new_spec (recorded : Recorded calls engine) (again : LSMTreeOptions) :
    ∃ recovered, new again engine.files engine.manifest engine.wal = .ok recovered ∧
      ∀ key, LSMTreeEngine.get key recovered =
        .ok ((lastWritten (callWrites calls) key).getD none) recovered := by
  obtain ⟨loaded, ran, frame, tables⟩ :=
    loadManifest_spec recorded.listed recorded.sound.stored.numbered again
  have same : loaded.levels.flatMap (·.sstables) = engine.levels.flatMap (·.sstables) := by
    rw [flatMap_def, tables, ← flatMap_def]
  have replayed := replay_frame loaded.wal loaded
  rw [← recoverFromWal] at replayed
  have levels : loaded.recoverFromWal.levels = loaded.levels := by rw [replayed]
  have files : loaded.recoverFromWal.files = engine.files := by rw [replayed, frame]; rfl
  have settled : loaded.recoverFromWal.immutableMemtable = none := by rw [replayed, frame]; rfl
  have memtable (key : Bytes) : (loaded.recoverFromWal.memtable.get key).map (·.value) =
      lastWritten (callWrites calls) key := by
    rw [recoverFromWal, get_replay, frame]
    change (lastWritten engine.loggedWrites key).or none = _
    rw [recorded.logged, Option.or_none]
  refine ⟨loaded.recoverFromWal, by rw [new, ran]; rfl, fun key => ?_⟩
  rw [get_spec (by rw [replayed, frame]; rfl) ?_ ?_, valueOf_of_settled settled, levels, files,
    ← memtable]
  · cases found : loaded.recoverFromWal.memtable.get key with
    | some entry => rfl
    | none =>
      -- a key that is not in the log is not in the tables either
      have unlogged : lastWritten (callWrites calls) key = none := by rw [← memtable, found]; rfl
      have missing : ¬InTables loaded.levels engine.files key := by
        rw [InTables, same]
        intro inTables
        simpa [unlogged] using recorded.keys key (.inr inTables)
      exact congrArg (EStateM.Result.ok · _) (readTables_of_not_inTables missing)
  · rw [levels, files, same]
    exact recorded.sound.stored.written
  · rw [levels]
    exact ordered_of_sstables tables recorded.sound.ordered

end LSMTreeEngine

end Nanograph.Lsm
