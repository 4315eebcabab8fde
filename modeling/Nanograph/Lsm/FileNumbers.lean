import Nanograph.Lsm.Threads

/-!
# File numbers under several threads

A flush takes its file number with one atomic step. A compaction reads the next
number, writes its tables and stores the number behind them later. A flush that
takes a number in between gets one that the compaction uses too.
-/

namespace Nanograph.Lsm

open List Foundation Kvt

/-- The number that a flush has taken for a table that is not in the levels yet. -/
def FlushPhase.numbers : FlushPhase → List Nat
  | .numbered number => [number]
  | .written table => [table.fileNumber]
  | _ => []

/-- The numbers that a compaction has stored for tables that are not in the levels yet. -/
def CompactionPhase.numbers : CompactionPhase → List Nat
  | .stored _ newSstables => newSstables.map (·.fileNumber)
  | _ => []

/-- Whether a compaction has read the next file number and not stored it again. -/
def CompactionPhase.numbering : CompactionPhase → Bool
  | .loaded _ _ | .executed _ _ _ => true
  | _ => false

namespace Threads

/-- The file numbers of the tables in the levels. -/
def liveNumbers (threads : Threads) : List Nat :=
  (threads.engine.levels.flatMap (·.sstables)).map (·.fileNumber)

/-- The file numbers that are in use. -/
def numbers (threads : Threads) : List Nat :=
  threads.liveNumbers ++ (threads.flush.numbers ++ threads.compaction.numbers)

/-- No flush takes a number while a compaction is about to store one. -/
def Undisturbed (threads : Threads) (step : ThreadStep) : Prop :=
  step = .flush .takeNumber → threads.compaction.numbering = false

instance (threads : Threads) (step : ThreadStep) : Decidable (threads.Undisturbed step) :=
  inferInstanceAs (Decidable (step = .flush .takeNumber → _))

/-- The numbers in use are all different and lie before the next one, and the numbers of a
compaction that is about to store begin there. -/
structure Claimed (threads : Threads) : Prop where
  distinct : threads.numbers.Nodup
  earlier : ∀ number ∈ threads.numbers, number < threads.engine.nextFileNumber
  loaded : ∀ task next, threads.compaction = .loaded task next →
    next = threads.engine.nextFileNumber
  executed : ∀ task new after, threads.compaction = .executed task new after →
    new.map (·.fileNumber) = List.range' threads.engine.nextFileNumber new.length ∧
      after = threads.engine.nextFileNumber + new.length

section

variable {threads next : Threads}

section

variable (claimed : Claimed threads)

include claimed

/-- New numbers come behind those in use. -/
theorem Claimed.numbers_extend (new : List Nat)
    (tables : next.numbers.Subperm (threads.numbers ++ new)) (distinct : new.Nodup)
    (range : ∀ number ∈ new, threads.engine.nextFileNumber ≤ number ∧
      number < next.engine.nextFileNumber)
    (le : threads.engine.nextFileNumber ≤ next.engine.nextFileNumber) :
    next.numbers.Nodup ∧ ∀ number ∈ next.numbers, number < next.engine.nextFileNumber := by
  constructor
  · obtain ⟨kept, perm, sublist⟩ := tables
    apply perm.nodup_iff.mp
    apply sublist.nodup
    apply nodup_append.mpr
    refine ⟨claimed.distinct, distinct, ?_⟩
    intro old isOld number isNew
    have before := claimed.earlier old isOld
    have after := (range number isNew).1
    omega
  · intro number mem
    rcases mem_append.mp (tables.subset mem) with old | isNew
    · exact (claimed.earlier number old).trans_le le
    · exact (range number isNew).2

/-- A step that takes no number. -/
theorem Claimed.keep (tables : next.numbers.Subperm threads.numbers)
    (same : next.engine.nextFileNumber = threads.engine.nextFileNumber)
    (compaction : next.compaction.numbering = true → next.compaction = threads.compaction) :
    Claimed next := by
  obtain ⟨distinct, earlier⟩ := claimed.numbers_extend []
    (by rwa [append_nil]) nodup_nil (by simp) same.ge
  refine ⟨distinct, earlier, ?_, ?_⟩
  · intro task number isLoaded
    rw [same]
    exact claimed.loaded task number (compaction (by rw [isLoaded]; rfl) ▸ isLoaded)
  · intro task new after isExecuted
    rw [same]
    exact claimed.executed task new after (compaction (by rw [isExecuted]; rfl) ▸ isExecuted)

/-- A step of the flush between two phases that hold the same numbers. -/
theorem Claimed.flush_keep (live : next.liveNumbers = threads.liveNumbers)
    (flush : next.flush.numbers.Subperm threads.flush.numbers)
    (compaction : next.compaction = threads.compaction)
    (same : next.engine.nextFileNumber = threads.engine.nextFileNumber) : Claimed next := by
  apply claimed.keep _ same fun _ => compaction
  rw [numbers, numbers, live, compaction]
  apply List.Subperm.append (List.Subperm.refl _)
  exact flush.append (List.Subperm.refl _)

theorem Claimed.takeNumber (undisturbed : threads.compaction.numbering = false) :
    Claimed (threads.flushStep .takeNumber) := by
  rw [flushStep]
  split
  next memtable isSwapped isImmutable =>
    split
    next =>
      exact claimed.flush_keep rfl nil_subperm rfl rfl
    next =>
      have taken : ({ threads with
          engine := { threads.engine with nextFileNumber := threads.engine.nextFileNumber + 1 }
          flush := .numbered threads.engine.nextFileNumber } : Threads).numbers.Perm
            (threads.numbers ++ [threads.engine.nextFileNumber]) := by
        rw [numbers, numbers, isSwapped, append_assoc]
        apply List.Perm.append_left
        exact perm_append_comm
      obtain ⟨distinct, earlier⟩ := claimed.numbers_extend _ taken.subperm
        (nodup_singleton _) (by simp) (by simp)
      refine ⟨distinct, earlier, ?_, ?_⟩
      · intro task number isLoaded
        rw [show threads.compaction = _ from isLoaded] at undisturbed
        cases undisturbed
      · intro task new after isExecuted
        rw [show threads.compaction = _ from isExecuted] at undisturbed
        cases undisturbed
  next => exact claimed

theorem Claimed.register : Claimed (threads.flushStep .register) := by
  rw [flushStep]
  split
  next table isWritten =>
    split
    next => exact claimed.flush_keep rfl nil_subperm rfl rfl
    next =>
      refine claimed.keep ?_ rfl fun _ => rfl
      have live := subperm_map (·.fileNumber)
        (Issued.subperm_addSstable threads.engine.levels 0 table)
      have all := live.append (List.Subperm.refl threads.compaction.numbers)
      rw [map_append, append_assoc] at all
      rw [numbers, numbers, isWritten]
      exact all
  next => exact claimed

theorem Claimed.flush (step : FlushStep) (undisturbed : threads.Undisturbed (.flush step)) :
    Claimed (threads.flushStep step) := by
  cases step with
  | takeNumber => exact claimed.takeNumber (undisturbed rfl)
  | register => exact claimed.register
  | claim | swap | record | clear | release =>
    rw [flushStep]
    repeat' split
    all_goals first | exact claimed | exact claimed.flush_keep rfl nil_subperm rfl rfl
  | writeTable =>
    rw [flushStep]
    split
    next number memtable isNumbered isImmutable =>
      split
      next => exact claimed
      next table created =>
        refine claimed.flush_keep rfl ?_ rfl rfl
        rw [isNumbered]
        change List.Subperm [table.fileNumber] [number]
        rw [SSTable.fileNumber_of_create created]
    next => exact claimed

/-- A step of the compaction between two phases without numbers. -/
theorem Claimed.compaction_keep (live : next.liveNumbers = threads.liveNumbers)
    (flush : next.flush = threads.flush)
    (same : next.engine.nextFileNumber = threads.engine.nextFileNumber)
    (quiet : next.compaction.numbers = [] ∧ next.compaction.numbering = false) : Claimed next := by
  apply claimed.keep _ same
  · intro numbering
    rw [quiet.2] at numbering
    cases numbering
  · rw [numbers, numbers, live, flush, quiet.1, append_nil, ← append_assoc]
    exact (sublist_append_left _ _).subperm

theorem Claimed.load : Claimed (threads.compactionStep .load) := by
  rw [compactionStep]
  split
  next task isSelected =>
    have same : ({ threads with
        compaction := .loaded task threads.engine.nextFileNumber } : Threads).numbers =
          threads.numbers := by
      rw [numbers, numbers, isSelected]
      rfl
    refine ⟨same ▸ claimed.distinct, same ▸ claimed.earlier, ?_, ?_⟩
    · rintro _ _ ⟨⟩
      rfl
    · rintro _ _ _ ⟨⟩
  next => exact claimed

theorem Claimed.execute : Claimed (threads.compactionStep .execute) := by
  rw [compactionStep]
  split
  next task number isLoaded =>
    split
    next => exact claimed.compaction_keep rfl rfl rfl ⟨rfl, rfl⟩
    next new files after executed =>
      have same : ({ threads with
          engine := { threads.engine with files }
          compaction := .executed task new after } : Threads).numbers = threads.numbers := by
        rw [numbers, numbers, isLoaded]
        rfl
      refine ⟨same ▸ claimed.distinct, same ▸ claimed.earlier, ?_, ?_⟩
      · rintro _ _ ⟨⟩
      · rintro _ _ _ ⟨⟩
        rw [claimed.loaded task number isLoaded] at executed
        exact Issued.execute executed
  next => exact claimed

/-- The numbers of a compaction are in use from its store on. -/
theorem Claimed.store : Claimed (threads.compactionStep .store) := by
  rw [compactionStep]
  split
  next task new after isExecuted =>
    obtain ⟨range, rfl⟩ := claimed.executed task new after isExecuted
    have stored : ({ threads with
        engine := { threads.engine with
          nextFileNumber := threads.engine.nextFileNumber + new.length }
        compaction := .stored task new } : Threads).numbers.Subperm
          (threads.numbers ++ new.map (·.fileNumber)) := by
      rw [numbers, numbers, isExecuted, append_assoc, append_assoc]
      exact List.Subperm.refl _
    obtain ⟨distinct, earlier⟩ := claimed.numbers_extend _ stored
      (range ▸ nodup_range') (by simp [range]) (Nat.le_add_right _ _)
    refine ⟨distinct, earlier, ?_, ?_⟩
    · rintro _ _ ⟨⟩
    · rintro _ _ _ ⟨⟩
  next => exact claimed

theorem Claimed.install : Claimed (threads.compactionStep .install) := by
  rw [compactionStep]
  split
  next task new isStored =>
    split
    next => exact claimed.compaction_keep rfl rfl rfl ⟨rfl, rfl⟩
    next =>
      split
      next => exact claimed.compaction_keep rfl rfl rfl ⟨rfl, rfl⟩
      next levels installed =>
        refine claimed.keep ?_ rfl nofun
        have live := subperm_map (·.fileNumber) (Issued.subperm_installSstables installed)
        have all := live.append (List.Subperm.refl threads.flush.numbers)
        rw [map_append, append_assoc] at all
        rw [numbers, numbers, isStored, show ({ threads with
            engine := { threads.engine with levels }
            compaction := .installed task } : Threads).compaction.numbers = [] from rfl,
          append_nil]
        exact all.trans (perm_append_comm.append_left _).subperm
  next => exact claimed

theorem Claimed.compaction (step : CompactionStep) : Claimed (threads.compactionStep step) := by
  cases step with
  | load => exact claimed.load
  | execute => exact claimed.execute
  | store => exact claimed.store
  | install => exact claimed.install
  | claim | check | select | finish =>
    -- Every branch keeps the state or ends in a phase without numbers.
    rw [compactionStep]
    repeat' split
    all_goals first | exact claimed | exact claimed.compaction_keep rfl rfl rfl ⟨rfl, rfl⟩

/-- A writer takes no file number. -/
theorem Claimed.writer (step : WriterStep) : Claimed (threads.writerStep step).2 := by
  obtain ⟨wal, clock, memtable, writers, next⟩ := writerStep_frame threads step
  rw [next]
  exact claimed.flush_keep rfl (List.Subperm.refl _) rfl rfl

theorem Claimed.step (step : ThreadStep) (undisturbed : threads.Undisturbed step) :
    Claimed (Threads.step threads step).2 := by
  cases step with
  | writer step => exact claimed.writer step
  | flush step => exact claimed.flush step undisturbed
  | compaction step => exact claimed.compaction step

end

theorem claimed_idle {engine : LSMTreeEngine} (numbered : engine.Numbered) :
    Claimed (.idle engine) := by
  have live : (Threads.idle engine).numbers = (Threads.idle engine).liveNumbers :=
    append_nil _
  refine ⟨?_, ?_, nofun, nofun⟩
  · rw [live]
    exact numbered.issued.distinct
  · rw [live]
    intro number mem
    obtain ⟨table, isLive, rfl⟩ := mem_map.mp mem
    exact numbered.issued.earlier table isLive

end

/-- Whatever the threads do with an engine, its tables have different file numbers as long
as no flush takes one between the load and the store of a compaction. -/
theorem liveNumbers_nodup_of_undisturbed {engine : LSMTreeEngine} (reachable : engine.Reachable)
    (steps : List ThreadStep) (undisturbed : step.Along Undisturbed (.idle engine) steps) :
    (step.final (.idle engine) steps).liveNumbers.Nodup := by
  have claimed := Machine.invariant_along Claimed
    (fun threads step claimed met => claimed.step step met)
    (claimed_idle reachable.numbered) undisturbed
  exact (nodup_append.mp claimed.distinct).1

/-- The steps of a writer that puts a value, and of a flush behind it. -/
def putAndFlush (key value : Bytes) : List ThreadStep :=
  [.append 0 (.put key value), .stamp 0, .insert 0].map .writer ++
    [.claim, .swap, .takeNumber, .writeTable, .register, .record, .clear, .release].map .flush

/-- The steps of a compaction up to its new tables. -/
def writeCompaction : List ThreadStep :=
  [.claim, .check, .select, .load, .execute].map .compaction

/-- The steps that put the new tables of a compaction into the levels. -/
def installCompaction : List ThreadStep := [.store, .install, .finish].map .compaction

/-- A flush behind a compaction. -/
theorem liveNumbers_nodup_in_turn :
    let options : LSMTreeOptions := { memtableSize := 100, blockSize := 4, fileSize := List.length }
    (step.final (.idle (.fresh options)) ((List.range 4).flatMap
        (fun _ => putAndFlush [1] [7]) ++ writeCompaction ++ installCompaction ++
          putAndFlush [1] [8])).liveNumbers.Nodup := by
  intro options
  exact liveNumbers_nodup_of_undisturbed (.fresh options) _ (by decide +kernel)

/-- A flush between the load and the store of a compaction. -/
theorem liveNumbers_clash :
    let options : LSMTreeOptions := { memtableSize := 100, blockSize := 4, fileSize := List.length }
    (step.final (.idle (.fresh options)) ((List.range 4).flatMap
        (fun _ => putAndFlush [1] [7]) ++ writeCompaction ++ putAndFlush [1] [8] ++
          installCompaction)).liveNumbers = [5, 5] := by
  decide +kernel

end Threads

end Nanograph.Lsm
