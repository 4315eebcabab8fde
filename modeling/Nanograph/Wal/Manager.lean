import Nanograph.Foundation.Machine
import Nanograph.Wal.Reader

/-!
# The write-ahead log

The manager and the writer of `nanograph-wal/src/manager.rs` and
`nanograph-wal/src/writer.rs`. There is one segment, `segment_0.wal`: nothing starts
another one, and so no segment is ever archived. What the log holds over a run is the
header of the segment followed by the bytes of the records.
-/

namespace Nanograph.Wal

open List Foundation Util Vfs WriteAheadLogReader

/-- Configuration of the log. -/
structure WriteAheadLogConfig where
  shardId : BitVec 128
  checksum : IntegrityAlgorithm
  compression : CompressionAlgorithm
  encryption : EncryptionAlgorithm

/-- Durability level of a write. -/
inductive Durability where
  | none
  | buffered
  | sync
deriving DecidableEq

structure WriteAheadLogManager where
  activeSegment : WriteAheadLogFile

namespace WriteAheadLogManager

/-- The header of the segment that a configuration creates. -/
def firstHeader (config : WriteAheadLogConfig) (now : UInt64) : WriteAheadLogSegmentHeader :=
  WriteAheadLogFile.newHeader config.shardId 0 0 now config.checksum config.compression
    config.encryption 0

/-- Open the segment file if there is one, or create it. -/
def new (digests : Digests) (config : WriteAheadLogConfig) (now : UInt64)
    (segmentFile : Option Bytes) : Except WriteAheadLogError (WriteAheadLogManager × Bytes) :=
  match segmentFile with
  | some file => do
    let segment ← WriteAheadLogFile.openExisting digests file
    return (⟨segment⟩, file)
  | none =>
    let created := WriteAheadLogFile.create digests (firstHeader config now)
    .ok (⟨created.1⟩, created.2)

/-- Create a reader starting from a position. -/
def readerFrom (manager : WriteAheadLogManager) (lsn : LogSequenceNumber) :
    Except WriteAheadLogError WriteAheadLogReader :=
  if manager.activeSegment.segmentId = lsn.segmentId then
    .ok ⟨manager.activeSegment.segmentId, lsn.offset, manager.activeSegment.integrity⟩
  else .error .invalidLsn

end WriteAheadLogManager

open WriteAheadLogManager

/-- Append a record. Flushing and syncing do not change the bytes of the file. -/
def WriteAheadLogWriter.append (digests : Digests) (manager : WriteAheadLogManager)
    (file : Bytes) (record : WriteAheadLogRecord) (_durability : Durability) :
    LogSequenceNumber × WriteAheadLogManager × Bytes :=
  let appended := manager.activeSegment.append digests file record
  (appended.1, ⟨appended.2.1⟩, appended.2.2)

/-- An open log: the manager and the segment file. -/
structure Log where
  manager : WriteAheadLogManager
  file : Bytes

/-- What is done with a log: append a record, or close it and open it again. -/
inductive LogOp where
  | append (record : WriteAheadLogRecord) (durability : Durability)
  | reopen (config : WriteAheadLogConfig) (now : UInt64)

namespace LogOp

def record : LogOp → Option WriteAheadLogRecord
  | .append record _ => some record
  | .reopen _ _ => none

/-- The entry of an append that returned a position. -/
def entry : LogOp → Except WriteAheadLogError (Option LogSequenceNumber) → Option WriteAheadLogEntry
  | .append record _, .ok (some lsn) => some ⟨lsn, record.kind, record.payload⟩
  | _, _ => none

end LogOp

def recordsOf (ops : List LogOp) : List WriteAheadLogRecord := ops.filterMap LogOp.record

/-- The entries of the appends, under the positions they returned. -/
def entriesOf (ops : List LogOp)
    (answers : List (Except WriteAheadLogError (Option LogSequenceNumber))) :
    List WriteAheadLogEntry :=
  (ops.zip answers).filterMap fun called => called.1.entry called.2

namespace Log

/-- A log that is opened where there is no segment file. -/
def create (digests : Digests) (config : WriteAheadLogConfig) (now : UInt64) : Log :=
  let created := WriteAheadLogFile.create digests (firstHeader config now)
  ⟨⟨created.1⟩, created.2⟩

/-- Append to a log, or open its segment file again. -/
def step (digests : Digests) :
    Machine Log LogOp (Except WriteAheadLogError (Option LogSequenceNumber))
  | log, .append record durability =>
    let appended := WriteAheadLogWriter.append digests log.manager log.file record durability
    (.ok (some appended.1), ⟨appended.2.1, appended.2.2⟩)
  | log, .reopen config now =>
    match new digests config now (some log.file) with
    | .ok opened => (.ok none, ⟨opened.1, opened.2⟩)
    | .error error => (.error error, log)

/-- A reader from a position returns exactly these entries and then ends. -/
def Reads (digests : Digests) (log : Log) (lsn : LogSequenceNumber)
    (entries : List WriteAheadLogEntry) : Prop :=
  ∃ reader, log.manager.readerFrom lsn = .ok reader ∧
    (next digests log.file).Yields reader entries (.ok ())

/-- A segment with a header as it is opened when a number of bytes follows the header. -/
def openSegment (header : WriteAheadLogSegmentHeader) (bytes : Nat) : WriteAheadLogFile where
  shardId := header.shardId
  segmentId := header.segmentId
  startOffset := header.startOffset
  writeOffset := headerSize + bytes
  integrity := header.integrity

/-- The reader of a segment behind a number of bytes after the header. -/
def readerAt (header : WriteAheadLogSegmentHeader) (bytes : Nat) : WriteAheadLogReader :=
  ⟨header.segmentId, headerSize + bytes, header.integrity⟩

/-- A log carries bytes: they follow the header, and the next record goes behind them. -/
structure Carries (digests : Digests) (header : WriteAheadLogSegmentHeader) (log : Log)
    (bytes : Bytes) : Prop where
  file : log.file = header.encode digests ++ bytes
  segment : log.manager.activeSegment = openSegment header bytes.length

section

variable {digests : Digests} {header : WriteAheadLogSegmentHeader} {log : Log} {bytes : Bytes}
  {records : List WriteAheadLogRecord}

theorem readerAt_behindAll (digests : Digests) (count : Nat) :
    (readerAt header count).behindAll records =
      readerAt header (count + (buffers digests header.integrity records).length) := by
  refine WriteAheadLogReader.ext ?_ ?_ ?_
  · rw [WriteAheadLogReader.segmentId_behindAll]
    rfl
  · rw [WriteAheadLogReader.offset_behindAll digests]
    exact Nat.add_assoc headerSize count _
  · rw [integrity_behindAll]
    rfl

/-- A new log carries nothing. -/
theorem carries_create (digests : Digests) (config : WriteAheadLogConfig) (now : UInt64) :
    Carries digests (firstHeader config now) (create digests config now) [] where
  file := (writeToOffset_length [] _).trans (append_nil _).symm
  segment := rfl

/-- An append adds its record and returns the position behind what was there. -/
theorem Carries.append (carries : Carries digests header log bytes) (record : WriteAheadLogRecord)
    (durability : Durability) :
    (step digests log (.append record durability)).1 =
        .ok (some (readerAt header bytes.length).lsn) ∧
      Carries digests header (step digests log (.append record durability)).2
        (bytes ++ record.buffer digests header.integrity) := by
  have size : headerSize + bytes.length = log.file.length := by
    rw [carries.file, length_append, WriteAheadLogSegmentHeader.length_encode]
  simp only [step, WriteAheadLogWriter.append, WriteAheadLogFile.append, carries.segment,
    openSegment]
  refine ⟨rfl, ?_, ?_⟩
  · rw [size, writeToOffset_length, carries.file, append_assoc]
  · simp [openSegment, Nat.add_assoc]

/-- A segment file that is opened again goes on at its end. -/
theorem carries_reopen (starts : log.file = header.encode digests ++ bytes)
    (config : WriteAheadLogConfig) (now : UInt64) :
    (step digests log (.reopen config now)).1 = .ok none ∧
      Carries digests header (step digests log (.reopen config now)).2 bytes := by
  simp only [step, new, starts, WriteAheadLogFile.openExisting_of_header]
  exact ⟨rfl, rfl, rfl⟩

section

variable (carries : Carries digests header log bytes)

include carries

/-- What a run of a log does: every call succeeds, and every append adds its record at the
position it returns. -/
theorem Carries.run (ops : List LogOp) :
    Carries digests header ((step digests).final log ops)
        (bytes ++ buffers digests header.integrity (recordsOf ops)) ∧
      entriesOf ops ((step digests).answers log ops) =
        (readerAt header bytes.length).entries (recordsOf ops) ∧
      ∀ answer ∈ (step digests).answers log ops, ∃ lsn, answer = .ok lsn := by
  induction ops generalizing log bytes with
  | nil =>
    refine ⟨?_, rfl, by simp [Machine.answers]⟩
    rwa [recordsOf, filterMap_nil, buffers, flatMap_nil, append_nil]
  | cons op ops ih =>
    cases op with
    | append record durability =>
      obtain ⟨answered, carried⟩ := carries.append record durability
      obtain ⟨later, entries, succeeded⟩ := ih carried
      have behind : (readerAt header bytes.length).behind record =
          readerAt header (bytes ++ record.buffer digests header.integrity).length := by
        simp [readerAt, behind, Nat.add_assoc]
      refine ⟨?_, ?_, ?_⟩
      · rwa [append_assoc] at later
      · simp only [Machine.answers, entriesOf, zip_cons_cons, answered]
        rw [← behind] at entries
        exact congrArg (_ :: ·) entries
      · rw [Machine.answers, answered, forall_mem_cons]
        exact ⟨⟨_, rfl⟩, succeeded⟩
    | reopen config now =>
      obtain ⟨answered, carried⟩ := carries_reopen carries.file config now
      obtain ⟨later, entries, succeeded⟩ := ih carried
      refine ⟨later, ?_, ?_⟩
      · exact entries
      · rw [Machine.answers, answered, forall_mem_cons]
        exact ⟨⟨_, rfl⟩, succeeded⟩

/-- The bytes of a segment file from a reader on. -/
theorem Carries.drop (count : Nat) :
    log.file.drop (readerAt header count).offset = bytes.drop count := by
  rw [readerAt, carries.file, ← drop_drop, drop_left' (header.length_encode digests)]

theorem Carries.readerFrom (count : Nat) :
    log.manager.readerFrom (readerAt header count).lsn = .ok (readerAt header count) := by
  rw [WriteAheadLogManager.readerFrom, carries.segment]
  exact if_pos rfl

end

/-- A reader from the position of a record returns the records from that one on. -/
theorem Carries.reads {first second : List WriteAheadLogRecord}
    (carries : Carries digests header log (buffers digests header.integrity (first ++ second)))
    (small : ∀ record ∈ second, record.payload.length < 2 ^ 32) :
    log.Reads digests ((readerAt header 0).behindAll first).lsn
      (((readerAt header 0).behindAll first).entries second) := by
  rw [readerAt_behindAll digests, Nat.zero_add]
  refine ⟨_, carries.readerFrom _, ?_⟩
  rw [← append_nil (entries _ _)]
  apply yields_buffers small
  · rw [carries.drop, buffers_append, drop_left]
    exact (append_nil _).symm
  · apply yields_end
    rw [readerAt_behindAll digests, ← length_append, ← buffers_append, carries.drop, drop_length]

end

/-- For every run of appends and reopenings of a log, with payloads shorter than `2 ^ 32` bytes, a
reader from the first position returns exactly the records appended, each at the position that
its append returned, and a reader from such a position returns the records from there on. -/
theorem reads_appended (digests : Digests) (config : WriteAheadLogConfig) (now : UInt64)
    (ops : List LogOp) (small : ∀ record ∈ recordsOf ops, record.payload.length < 2 ^ 32) :
    let log := (step digests).final (create digests config now) ops
    let answers := (step digests).answers (create digests config now) ops
    (∀ answer ∈ answers, ∃ lsn, answer = .ok lsn) ∧
      log.Reads digests .zero (entriesOf ops answers) ∧
      ∀ earlier entry later, entriesOf ops answers = earlier ++ entry :: later →
        log.Reads digests entry.lsn (entry :: later) := by
  intro log answers
  obtain ⟨carries, entries, succeeded⟩ := (carries_create digests config now).run ops
  refine ⟨succeeded, ?_, ?_⟩
  · have all : Carries digests (firstHeader config now) log
        (buffers digests config.checksum ([] ++ recordsOf ops)) := carries
    rw [entries]
    exact all.reads small
  · intro earlier entry later parts
    rw [entries] at parts
    obtain ⟨first, second, records, -, rest⟩ := entries_eq_append parts
    cases second with
    | nil => cases rest
    | cons record second =>
      rw [records] at carries small
      obtain ⟨rfl, rfl⟩ := List.cons.inj rest
      exact carries.reads fun record mem => small record (mem_append_right first mem)

/-- Two records, one of them appended after the log was opened again. -/
theorem reads_appended_reopened :
    let digests : Digests := ⟨fun _ => 7, fun _ => 9⟩
    let config : WriteAheadLogConfig := ⟨3, .crc32c, .none, .none⟩
    let ops : List LogOp :=
      [.append ⟨1, [5, 6]⟩ .sync, .reopen config 12, .append ⟨2, []⟩ .buffered]
    (∀ record ∈ recordsOf ops, record.payload.length < 2 ^ 32) ∧
      ((step digests).final (create digests config 11) ops).Reads digests .zero
        [⟨⟨0, 69⟩, 1, [5, 6]⟩, ⟨⟨0, 85⟩, 2, []⟩] := by
  intro digests config ops
  have entries : entriesOf ops ((step digests).answers (create digests config 11) ops) =
      [⟨⟨0, 69⟩, 1, [5, 6]⟩, ⟨⟨0, 85⟩, 2, []⟩] := by
    decide +kernel
  rw [← entries]
  exact ⟨by decide, (reads_appended digests config 11 ops (by decide)).2.1⟩

/-- In every run the records follow each other in the segment without gap or overlap. -/
theorem appends_adjacent (digests : Digests) (config : WriteAheadLogConfig) (now : UInt64)
    (ops : List LogOp) :
    (entriesOf ops ((step digests).answers (create digests config now) ops)).IsChain
      fun entry later => later.lsn =
        ⟨entry.lsn.segmentId, entry.lsn.offset + (10 + entry.payload.length + 4)⟩ := by
  rw [((carries_create digests config now).run ops).2.1]
  generalize readerAt _ _ = reader
  induction recordsOf ops generalizing reader with
  | nil => exact .nil
  | cons record rest ih =>
    cases rest with
    | nil => exact .singleton _
    | cons => exact .cons_cons rfl (ih _)

end Log

end Nanograph.Wal
