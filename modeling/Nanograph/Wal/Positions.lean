import Nanograph.Wal.Manager

/-!
# The ends of the log

The oldest and the newest position of the log, as `nanograph-wal/src/manager.rs` gives them
out. The oldest one is where the file of the first segment starts, so a reader from there
meets the header of the segment. The newest one moves with every record of a batch, and
stays where it is when a later record of the batch cannot be written.
-/

namespace Nanograph.Wal

open List Foundation Util Vfs WriteAheadLogManager WriteAheadLogReader

def WriteAheadLogFile.startLsn (segment : WriteAheadLogFile) : LogSequenceNumber :=
  ⟨segment.segmentId, segment.startOffset.toNat⟩

/-- Get the current tail position of a segment. -/
def WriteAheadLogFile.tailLsn (segment : WriteAheadLogFile) : LogSequenceNumber :=
  ⟨segment.segmentId, segment.writeOffset⟩

/-- A log with the archived segments that its manager lists and their files. -/
structure Archive where
  active : Log
  archived : List (WriteAheadLogFile × Bytes)

/-- What is done with a log, and the removal of its older segments. -/
inductive ArchiveOp where
  | log (op : LogOp)
  | truncateBefore (lsn : LogSequenceNumber)

/-- The record that a call appends. -/
def ArchiveOp.record : ArchiveOp → Option WriteAheadLogRecord
  | .log op => op.record
  | .truncateBefore _ => none

/-- A record whose length does not fit, and whose payload up to the length that is written is
not followed by its checksum. -/
def WriteAheadLogRecord.Misread (digests : Digests) (integrity : IntegrityAlgorithm)
    (record : WriteAheadLogRecord) : Prop :=
  2 ^ 32 ≤ record.payload.length ∧ integrity ≠ .none ∧
    UInt32.ofNat (ofBeBytes ((record.payload.drop record.writtenLen.toNat).take 4)) ≠
      integrity.checksum digests (record.header ++ record.payload.take record.writtenLen.toNat)

/-- A reader at the bytes of a record finds one there, unless the length is misread. -/
theorem exists_recordAt_iff (digests : Digests) (integrity : IntegrityAlgorithm)
    (record : WriteAheadLogRecord) (rest : Bytes) :
    (∃ found, recordAt digests integrity (record.buffer digests integrity ++ rest) =
      .ok (some found)) ↔ ¬record.Misread digests integrity := by
  by_cases small : record.payload.length < 2 ^ 32
  · exact iff_of_true ⟨record, recordAt_buffer small rest⟩ fun misread => misread.1.not_gt small
  · have long := not_lt.mp small
    have cut : record.writtenLen.toNat = record.payload.length % 2 ^ 32 := UInt32.toNat_ofNat'
    have room : record.writtenLen.toNat + 4 ≤ record.payload.length := by omega
    have shape : record.buffer digests integrity ++ rest = record.header ++ (record.payload ++
        (beBytes 4 (integrity.checksum digests record.body).toNat ++ rest)) := by
      simp only [WriteAheadLogRecord.buffer, WriteAheadLogRecord.body, append_assoc]
    generalize beBytes 4 (integrity.checksum digests record.body).toNat ++ rest = behind at shape
    have payload : (record.payload ++ behind).take record.writtenLen.toNat =
        record.payload.take record.writtenLen.toNat := take_append_of_le_length (by omega)
    have checksum : ((record.payload ++ behind).drop record.writtenLen.toNat).take 4 =
        (record.payload.drop record.writtenLen.toNat).take 4 := by
      rw [drop_append_of_le_length (by omega),
        take_append_of_le_length (by rw [length_drop]; omega)]
    have whole : ¬record.payload.length < record.writtenLen.toNat ∧
        ¬record.payload.length - record.writtenLen.toNat < 4 := by omega
    rw [WriteAheadLogRecord.Misread, and_iff_right long]
    simp only [recordAt, shape, take_left' record.length_header, drop_left' record.length_header,
      WriteAheadLogRecord.header_writtenLen, WriteAheadLogRecord.slice_header_magic, ← drop_drop,
      payload, checksum, WriteAheadLogRecord.length_header, length_take, length_drop]
    split_ifs <;> simp_all

namespace Archive

/-- Get the oldest available position. -/
def headLsn (archive : Archive) : LogSequenceNumber :=
  match archive.archived with
  | first :: _ => first.1.startLsn
  | [] => archive.active.manager.activeSegment.startLsn

/-- Create a reader starting from a position, in the active or an archived segment. -/
def readerFrom (archive : Archive) (lsn : LogSequenceNumber) :
    Except WriteAheadLogError (WriteAheadLogReader × Bytes) :=
  match archive.active.manager.readerFrom lsn with
  | .ok reader => .ok (reader, archive.active.file)
  | .error error =>
    match archive.archived.find? (·.1.segmentId = lsn.segmentId) with
    | some (segment, file) => .ok (⟨segment.segmentId, lsn.offset, segment.integrity⟩, file)
    | none => .error error

/-- Run one call. A manager that is opened has no archived segments, and nothing adds one. -/
def step (digests : Digests) :
    Machine Archive ArchiveOp (Except WriteAheadLogError (Option LogSequenceNumber))
  | archive, .log (.append record durability) =>
    let stepped := archive.active.step digests (.append record durability)
    (stepped.1, { archive with active := stepped.2 })
  | archive, .log (.reopen config now) =>
    match archive.active.step digests (.reopen config now) with
    | (.ok answer, opened) => (.ok answer, ⟨opened, []⟩)
    | (.error error, _) => (.error error, archive)
  | archive, .truncateBefore lsn =>
    (.ok none, { archive with
      archived := archive.archived.filter (·.1.segmentId ≥ lsn.segmentId) })

/-- A log that is opened where there is no segment file. -/
def create (digests : Digests) (config : WriteAheadLogConfig) (now : UInt64) : Archive :=
  ⟨Log.create digests config now, []⟩

/-- Iterating from a position returns exactly these entries. -/
def Returns (digests : Digests) (archive : Archive) (lsn : LogSequenceNumber)
    (entries : List WriteAheadLogEntry) (stop : Except WriteAheadLogError Unit) : Prop :=
  ∃ reader file, archive.readerFrom lsn = .ok (reader, file) ∧
    (next digests file).Yields reader entries stop

/-- What iterating returns is determined by the position. -/
theorem Returns.unique {digests : Digests} {archive : Archive} {lsn : LogSequenceNumber}
    {entries others : List WriteAheadLogEntry} {stop otherStop : Except WriteAheadLogError Unit}
    (returns : archive.Returns digests lsn entries stop)
    (returned : archive.Returns digests lsn others otherStop) :
    others = entries ∧ otherStop = stop := by
  obtain ⟨reader, file, opened, yields⟩ := returns
  obtain ⟨other, otherFile, otherOpened, otherYields⟩ := returned
  cases opened.symm.trans otherOpened
  exact yields.unique otherYields

variable {digests : Digests} {config : WriteAheadLogConfig} {now : UInt64} {archive : Archive}

/-- In every run the records appended follow the header, and no segment is archived. -/
theorem carries_run {header : WriteAheadLogSegmentHeader} {bytes : Bytes}
    (none : archive.archived = []) (carries : archive.active.Carries digests header bytes)
    (ops : List ArchiveOp) :
    ((step digests).final archive ops).archived = [] ∧
      ((step digests).final archive ops).active.Carries digests header
        (bytes ++ buffers digests header.integrity (ops.filterMap ArchiveOp.record)) := by
  induction ops generalizing archive bytes with
  | nil => exact ⟨none, by rwa [filterMap_nil, buffers_nil, append_nil]⟩
  | cons op ops ih =>
    cases op with
    | log op =>
      cases op with
      | append record durability =>
        have appended : (archive.step digests (.log (.append record durability))).2.active.Carries
            digests header (bytes ++ record.buffer digests header.integrity) :=
          (carries.append record durability).2
        have later := ih (by exact none) appended
        rwa [append_assoc] at later
      | reopen config now =>
        obtain ⟨answered, opened⟩ := Log.carries_reopen carries.file config now
        have stepped : archive.active.step digests (.reopen config now) =
            (.ok Option.none, (archive.active.step digests (.reopen config now)).2) :=
          Prod.ext answered rfl
        rw [Machine.final, step, stepped]
        exact ih rfl opened
    | truncateBefore lsn => exact ih (by rw [step, none]; rfl) carries

/-- A reader from the first byte of a segment file finds the header there. -/
theorem returns_head {bytes : Bytes} (none : archive.archived = [])
    (carries : archive.active.Carries digests (firstHeader config now) bytes) :
    archive.Returns digests archive.headLsn [] (.error (.corruption archive.headLsn)) := by
  let header := firstHeader config now
  have head : archive.headLsn = ⟨header.segmentId, 0⟩ := by
    rw [headLsn, none, carries.segment]
    rfl
  have opened : archive.active.manager.readerFrom ⟨header.segmentId, 0⟩ =
      .ok ⟨header.segmentId, 0, header.integrity⟩ := by
    rw [WriteAheadLogManager.readerFrom, carries.segment]
    exact if_pos rfl
  have magic : slice (archive.active.file.take 10) 0 4 = beBytes 4 segmentMagic.toNat := by
    rw [slice, take_take, carries.file, WriteAheadLogSegmentHeader.encode,
      WriteAheadLogSegmentHeader.rangeHeader]
    simp
  have long : (archive.active.file.take 10).length = 10 := by
    rw [carries.file, length_take, length_append,
      WriteAheadLogSegmentHeader.length_encode, headerSize]
    omega
  rw [head]
  refine ⟨_, archive.active.file, by rw [readerFrom, opened], .failed ?_⟩
  rw [next_eq, drop_zero, recordAt]
  simp only [long, magic]
  rfl

/-- A reader from the first record position returns nothing if and only if no record was
appended, or the first one is misread. -/
theorem returns_zero_nil_iff {records : List WriteAheadLogRecord}
    (carries : archive.active.Carries digests (firstHeader config now)
      (buffers digests config.checksum records)) :
    (∃ stop, archive.Returns digests .zero [] stop) ↔
      ∀ record ∈ records.head?, record.Misread digests config.checksum := by
  have opened : archive.readerFrom .zero =
      .ok (Log.readerAt (firstHeader config now) 0, archive.active.file) := by
    have active : archive.active.manager.readerFrom .zero =
        .ok (Log.readerAt (firstHeader config now) 0) := carries.readerFrom 0
    rw [readerFrom, active]
  have rest : archive.active.file.drop (Log.readerAt (firstHeader config now) 0).offset =
      buffers digests config.checksum records := carries.drop 0
  cases records with
  | nil => exact iff_of_true ⟨_, _, _, opened, yields_end rest⟩ (by simp)
  | cons record records =>
    have readable : (∃ found, recordAt digests (Log.readerAt (firstHeader config now) 0).integrity
          (archive.active.file.drop (Log.readerAt (firstHeader config now) 0).offset) =
        .ok (some found)) ↔ ¬record.Misread digests config.checksum :=
      rest ▸ exists_recordAt_iff digests config.checksum record
        (buffers digests config.checksum records)
    simp only [head?_cons, Option.mem_some_iff, forall_eq']
    constructor
    · rintro ⟨stop, reader, file, isReader, yields⟩
      by_contra unmisread
      obtain ⟨found, isFound⟩ := readable.mpr unmisread
      obtain ⟨rfl, rfl⟩ := Prod.mk.inj (Except.ok.inj (opened.symm.trans isReader))
      cases yields with
      | ended called =>
        rw [next_eq, isFound] at called
        cases called
      | failed called =>
        rw [next_eq, isFound] at called
        cases called
    · intro misread
      obtain ⟨stop, yields⟩ := yields_nil fun found isFound =>
        readable.mp ⟨found, isFound⟩ misread
      exact ⟨stop, _, _, opened, yields⟩

/-- A reader from the oldest position fails at once. It returns the records that a reader from
the first record position does if and only if no record was appended, or the first one is
misread. -/
theorem head_returns_records_iff (digests : Digests) (config : WriteAheadLogConfig) (now : UInt64)
    (ops : List ArchiveOp) :
    let archive := (step digests).final (create digests config now) ops
    archive.Returns digests archive.headLsn [] (.error (.corruption archive.headLsn)) ∧
      ((∀ entries, (∃ stop, archive.Returns digests archive.headLsn entries stop) ↔
          ∃ stop, archive.Returns digests .zero entries stop) ↔
        ∀ record ∈ (ops.filterMap ArchiveOp.record).head?,
          record.Misread digests config.checksum) := by
  intro archive
  obtain ⟨none, carries⟩ := @carries_run digests (create digests config now) _ _ rfl
    (Log.carries_create digests config now) ops
  have failed := returns_head none carries
  rw [← returns_zero_nil_iff carries]
  refine ⟨failed, fun same => (same []).mp ⟨_, failed⟩, ?_⟩
  rintro ⟨stop, ended⟩ entries
  constructor
  · rintro ⟨_, returned⟩
    exact ⟨stop, (failed.unique returned).1 ▸ ended⟩
  · rintro ⟨_, returned⟩
    exact ⟨_, (ended.unique returned).1 ▸ failed⟩

/-- A record is not returned from the oldest position. -/
theorem head_misses_record :
    let digests : Digests := ⟨fun _ => 7, fun _ => 9⟩
    let archive := (step digests).final (create digests ⟨3, .crc32c, .none, .none⟩ 11)
      [.log (.append ⟨1, [5]⟩ .sync)]
    ¬∀ entries, (∃ stop, archive.Returns digests archive.headLsn entries stop) ↔
      ∃ stop, archive.Returns digests .zero entries stop := by
  intro digests archive same
  obtain ⟨none, carries⟩ := @carries_run digests (create digests ⟨3, .crc32c, .none, .none⟩ 11) _ _
    rfl (Log.carries_create _ _ _) [.log (.append ⟨1, [5]⟩ .sync)]
  have misread := (returns_zero_nil_iff carries).mp
    ((same []).mp ⟨_, returns_head none carries⟩) ⟨1, [5]⟩ rfl
  exact absurd misread.1 (by decide)

end Archive

/-- The error of a file that a writer passes on. -/
inductive AppendError where
  | fileSystem
deriving DecidableEq

/-- Which calls on a segment file fail: the writes of a batch by their position, and the flush
or the sync behind them. -/
structure FileFailures where
  write : Nat → Bool
  flush : Bool

/-- Append records one after the other. A write that fails leaves the file as it is. -/
def WriteAheadLogWriter.appendEach (digests : Digests) (fails : Nat → Bool) :
    Nat → List WriteAheadLogRecord → LogSequenceNumber → Log →
      Except AppendError LogSequenceNumber × Log
  | _, [], lastLsn, log => (.ok lastLsn, log)
  | position, record :: rest, _, log =>
    if fails position then (.error .fileSystem, log)
    else
      let appended := log.manager.activeSegment.append digests log.file record
      appendEach digests fails (position + 1) rest appended.1 ⟨⟨appended.2.1⟩, appended.2.2⟩

def WriteAheadLogWriter.appendBatch (digests : Digests) (fails : FileFailures)
    (records : List WriteAheadLogRecord) (durability : Durability) (log : Log) :
    Except AppendError LogSequenceNumber × Log :=
  match appendEach digests fails.write 0 records .zero log with
  | (.error error, after) => (.error error, after)
  | (.ok lastLsn, after) =>
    if durability ≠ .none ∧ fails.flush then (.error .fileSystem, after)
    else (.ok lastLsn, after)

namespace Log

/-- Get the newest position. -/
def tailLsn (log : Log) : LogSequenceNumber := log.manager.activeSegment.tailLsn

/-- The tail and all that readers return are as they were. -/
def Unchanged (digests : Digests) (before after : Log) : Prop :=
  after.tailLsn = before.tailLsn ∧ ∀ lsn entries stop,
    (⟨after, []⟩ : Archive).Returns digests lsn entries stop ↔
      (⟨before, []⟩ : Archive).Returns digests lsn entries stop

section

variable (digests : Digests) (fails : Nat → Bool) (position : Nat)
  (records : List WriteAheadLogRecord) (lsn : LogSequenceNumber) (log : Log)

open WriteAheadLogWriter (appendEach appendBatch)

/-- The tail only moves forward. -/
theorem tail_le_appendEach :
    log.tailLsn.offset ≤ (appendEach digests fails position records lsn log).2.tailLsn.offset := by
  induction records generalizing position lsn log with
  | nil => exact le_rfl
  | cons record rest ih =>
    rw [appendEach]
    split
    · exact le_rfl
    · refine le_trans ?_ (ih _ _ _)
      exact Nat.le_add_right log.manager.activeSegment.writeOffset _

variable (failures : FileFailures) (durability : Durability)

/-- The log behind a batch is the one behind its writes, whatever it returns. -/
theorem appendBatch_snd :
    (appendBatch digests failures records durability log).2 =
      (appendEach digests failures.write 0 records .zero log).2 := by
  rw [appendBatch]
  split
  next appended => rw [appended]
  next appended =>
    rw [appended]
    split <;> rfl

/-- The writes of a batch fail if one of them does. -/
theorem appendEach_fails_iff :
    (appendEach digests fails position records lsn log).1 = .error .fileSystem ↔
      ∃ index < records.length, fails (position + index) = true := by
  induction records generalizing position lsn log with
  | nil => simp [appendEach]
  | cons record rest ih =>
    rw [appendEach]
    split
    next refused => exact iff_of_true rfl ⟨0, by simp, refused⟩
    next written =>
      rw [ih]
      constructor
      · rintro ⟨index, inside, refused⟩
        exact ⟨index + 1, by simpa using inside, by rwa [← Nat.add_assoc, Nat.add_right_comm]⟩
      · rintro ⟨index, inside, refused⟩
        cases index with
        | zero => exact absurd refused written
        | succ index =>
          exact ⟨index, by simpa using inside, by rwa [Nat.add_right_comm, Nat.add_assoc]⟩

/-- A batch returns an error if one of its writes or the flush behind them fails. -/
theorem appendBatch_fails_iff :
    (appendBatch digests failures records durability log).1 = .error .fileSystem ↔
      (∃ index < records.length, failures.write index = true) ∨
        durability ≠ .none ∧ failures.flush = true := by
  have each := appendEach_fails_iff digests failures.write 0 records .zero log
  simp only [Nat.zero_add] at each
  rw [appendBatch, ← each]
  cases appended : appendEach digests failures.write 0 records .zero log with
  | mk answer after =>
    cases answer with
    | error error => exact iff_of_true rfl (.inl rfl)
    | ok last =>
      by_cases flushes : durability ≠ .none ∧ failures.flush = true <;> simp [flushes]

/-- A batch leaves the log as it was if and only if it does not write its first record. -/
theorem unchanged_appendBatch_iff :
    Unchanged digests log (appendBatch digests failures records durability log).2 ↔
      records = [] ∨ failures.write 0 = true := by
  rw [appendBatch_snd]
  have same : Unchanged digests log log := ⟨rfl, fun _ _ _ => Iff.rfl⟩
  cases records with
  | nil => exact iff_of_true same (.inl rfl)
  | cons record rest =>
    rw [appendEach]
    split
    next refused => exact iff_of_true same (.inr refused)
    next written =>
      refine iff_of_false (fun unchanged => ?_) (by simp [written])
      let appended := log.manager.activeSegment.append digests log.file record
      have later := tail_le_appendEach digests failures.write 1 rest appended.1
        ⟨⟨appended.2.1⟩, appended.2.2⟩
      have moved : log.tailLsn.offset < (⟨⟨appended.2.1⟩, appended.2.2⟩ : Log).tailLsn.offset := by
        simp [tailLsn, WriteAheadLogFile.tailLsn, appended, WriteAheadLogFile.append]
      exact (moved.trans_le later).ne' (congrArg LogSequenceNumber.offset unchanged.1)

/-- A batch that returns an error leaves the log as it was if and only if there is nothing to
append, or its first record cannot be written, or it returns no error: all records are written
and flushed as asked. -/
theorem appendBatch_unchanged_iff :
    ((appendBatch digests failures records durability log).1 = .error .fileSystem →
        Unchanged digests log (appendBatch digests failures records durability log).2) ↔
      records = [] ∨ failures.write 0 = true ∨
        (∀ index < records.length, failures.write index = false) ∧
          (durability = .none ∨ failures.flush = false) := by
  have unchanged := unchanged_appendBatch_iff digests records log failures durability
  have fails := appendBatch_fails_iff digests records log failures durability
  constructor
  · intro holds
    by_cases failed : (appendBatch digests failures records durability log).1 = .error .fileSystem
    · exact (unchanged.mp (holds failed)).imp_right .inl
    · rw [fails] at failed
      exact .inr (.inr (by grind))
  · rintro (empty | first | written) failed
    · exact unchanged.mpr (.inl empty)
    · exact unchanged.mpr (.inr first)
    · rw [fails] at failed
      grind

end

/-- The second record cannot be written, and the first one stays in the log. -/
theorem failed_batch_leaves_record :
    let digests : Digests := ⟨fun _ => 7, fun _ => 9⟩
    let log := create digests ⟨3, .crc32c, .none, .none⟩ 11
    let failed := WriteAheadLogWriter.appendBatch digests ⟨(· = 1), false⟩ [⟨1, [5]⟩, ⟨2, [6]⟩]
      .none log
    failed.1 = .error .fileSystem ∧ log.tailLsn = ⟨0, 69⟩ ∧ failed.2.tailLsn = ⟨0, 84⟩ ∧
      (next digests log.file).drain 1 ⟨0, 69, .crc32c⟩ = ([], some (.ok ())) ∧
      (next digests failed.2.file).drain 2 ⟨0, 69, .crc32c⟩ =
        ([⟨⟨0, 69⟩, 1, [5]⟩], some (.ok ())) := by
  decide +kernel

end Log

end Nanograph.Wal
