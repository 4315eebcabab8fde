import Nanograph.Wal.Manager

/-!
# Torn writes

What a reader makes of a segment file that was cut, and of one that was opened again
after the cut and written to. Reading stops in the cut record. The writer goes on behind
its bytes, so records appended after the cut are not reached.
-/

namespace Nanograph.Wal

open List Foundation Util Vfs WriteAheadLogReader

/-- The entries that lie wholly within the first bytes of a segment file. -/
def wholeWithin (size : Nat) (entries : List WriteAheadLogEntry) : List WriteAheadLogEntry :=
  entries.filter fun entry => entry.lsn.offset + (10 + entry.payload.length + 4) ≤ size

namespace WriteAheadLogReader

variable {digests : Digests} {file : Bytes}

theorem offset_le_behindAll (reader : WriteAheadLogReader) (records : List WriteAheadLogRecord) :
    reader.offset ≤ (reader.behindAll records).offset := by
  induction records generalizing reader with
  | nil => exact le_rfl
  | cons record records ih =>
    exact (Nat.le_add_right _ _).trans (ih (reader.behind record))

variable {reader : WriteAheadLogReader} {records : List WriteAheadLogRecord}

/-- Every entry of a list of records ends behind the first of them and before their end. -/
theorem end_of_mem_entries {record : WriteAheadLogRecord} {entry : WriteAheadLogEntry}
    (mem : entry ∈ reader.entries (record :: records)) :
    (reader.behind record).offset ≤ entry.lsn.offset + (10 + entry.payload.length + 4) ∧
      entry.lsn.offset + (10 + entry.payload.length + 4) ≤
        (reader.behindAll (record :: records)).offset := by
  induction records generalizing reader record with
  | nil =>
    obtain rfl := mem_singleton.mp mem
    exact ⟨le_rfl, le_rfl⟩
  | cons next records ih =>
    obtain rfl | mem := mem_cons.mp mem
    · exact ⟨le_rfl, offset_le_behindAll (reader.behind record) (next :: records)⟩
    · obtain ⟨behindNext, beforeEnd⟩ := ih mem
      exact ⟨(Nat.le_add_right _ _).trans behindNext, beforeEnd⟩

/-- Records that are cut somewhere are read up to the cut. -/
theorem yields_cut {size : Nat} (small : ∀ record ∈ records, record.payload.length < 2 ^ 32)
    (inside : reader.offset ≤ size) (stands : file.drop reader.offset =
      (buffers digests reader.integrity records).take (size - reader.offset)) :
    ∃ stop, (next digests file).Yields reader (wholeWithin size (reader.entries records)) stop := by
  induction records generalizing reader with
  | nil => exact ⟨_, yields_end (by simpa [buffers] using stands)⟩
  | cons record records ih =>
    rw [forall_mem_cons] at small
    have offset : (reader.behind record).offset =
        reader.offset + (record.buffer digests reader.integrity).length := by
      rw [WriteAheadLogRecord.length_buffer]
      rfl
    rw [buffers, flatMap_cons, ← buffers] at stands
    by_cases whole : (reader.behind record).offset ≤ size
    · -- The record is whole, and the rest is cut.
      have bytes : file.drop reader.offset = record.buffer digests reader.integrity ++
          (buffers digests reader.integrity records).take
            (size - (reader.behind record).offset) := by
        rw [stands, take_append, take_of_length_le, Nat.sub_sub, offset]
        exact Nat.le_sub_of_add_le' (offset ▸ whole)
      have found : next digests file reader =
          .ok (some (reader.entry record, reader.behind record)) := by
        rw [next_eq, bytes, recordAt_buffer small.1]
      have rest : file.drop (reader.behind record).offset =
          (buffers digests reader.integrity records).take
            (size - (reader.behind record).offset) := by
        rw [offset] at bytes ⊢
        rw [← drop_drop, bytes, drop_left]
      obtain ⟨stop, yields⟩ := ih small.2 whole rest
      have kept : wholeWithin size (reader.entries (record :: records)) =
          reader.entry record :: wholeWithin size ((reader.behind record).entries records) :=
        filter_cons_of_pos (decide_eq_true whole)
      rw [kept]
      exact ⟨stop, .item found yields⟩
    · -- The record is cut, and nothing follows.
      have cut : size - reader.offset < (record.buffer digests reader.integrity).length := by
        omega
      rw [take_append_of_le_length cut.le] at stands
      have none : wholeWithin size (reader.entries (record :: records)) = [] := by
        refine filter_eq_nil_iff.mpr fun entry mem within => whole ?_
        exact (end_of_mem_entries mem).1.trans (of_decide_eq_true within)
      rw [none]
      apply yields_nil
      rw [stands]
      exact recordAt_torn small.1 cut

theorem forall_entries_lt {bound : Nat} :
    (∀ entry ∈ reader.entries records, entry.payload.length < bound) ↔
      ∀ record ∈ records, record.payload.length < bound := by
  induction records generalizing reader with
  | nil => simp [entries]
  | cons record records ih =>
    simp only [entries, forall_mem_cons, ih, entry]

/-- A reader that returns nothing finds no record. -/
theorem unreadable_of_yields {stop : Except WriteAheadLogError Unit}
    (yields : (next digests file).Yields reader [] stop) (record : WriteAheadLogRecord) :
    recordAt digests reader.integrity (file.drop reader.offset) ≠ .ok (some record) := by
  intro found
  cases yields with
  | ended called => simp [next_eq, found] at called
  | failed called => simp [next_eq, found] at called

end WriteAheadLogReader

namespace Log

/-- Iterating from a position returns exactly these entries and stops with the end of the log or
with a corruption error. -/
def Stops (digests : Digests) (log : Log) (lsn : LogSequenceNumber)
    (entries : List WriteAheadLogEntry) : Prop :=
  ∃ reader stop, log.manager.readerFrom lsn = .ok reader ∧
    (next digests log.file).Yields reader entries stop ∧
    (stop = .ok () ∨ ∃ lsn, stop = .error (.corruption lsn))

/-- A log whose segment file was cut. -/
def truncate (log : Log) (size : Nat) : Log := { log with file := setSize log.file size }

section

variable {digests : Digests} {header : WriteAheadLogSegmentHeader} {log : Log} {bytes : Bytes}

/-- The reader of a segment is determined by where it starts. -/
theorem stops_iff (segment : log.manager.activeSegment.segmentId = header.segmentId)
    (integrity : log.manager.activeSegment.integrity = header.integrity) (count : Nat)
    (entries : List WriteAheadLogEntry) :
    log.Stops digests (readerAt header count).lsn entries ↔
      ∃ stop, (next digests log.file).Yields (readerAt header count) entries
        stop := by
  have opened : log.manager.readerFrom (readerAt header count).lsn =
      .ok (readerAt header count) := by
    rw [WriteAheadLogManager.readerFrom, segment, integrity]
    exact if_pos rfl
  constructor
  · rintro ⟨reader, stop, same, yields, -⟩
    obtain rfl := Except.ok.inj (opened.symm.trans same)
    exact ⟨stop, yields⟩
  · rintro ⟨stop, yields⟩
    exact ⟨_, stop, opened, yields, stop_of_yields yields⟩

theorem Reads.stops {lsn : LogSequenceNumber} {entries : List WriteAheadLogEntry}
    (reads : log.Reads digests lsn entries) :
    log.Stops digests lsn entries := by
  obtain ⟨reader, opened, yields⟩ := reads
  exact ⟨reader, _, opened, yields, .inl rfl⟩

section

variable {records : List WriteAheadLogRecord}
  (carries : Carries digests header log (buffers digests header.integrity records))

include carries

/-- A log that carries records is read up to the place where its file is cut. -/
theorem Carries.stops_truncate (small : ∀ record ∈ records, record.payload.length < 2 ^ 32)
    {size : Nat} (behindHeader : headerSize ≤ size) (shorter : size ≤ log.file.length) :
    (log.truncate size).Stops digests (readerAt header 0).lsn
      (wholeWithin size ((readerAt header 0).entries records)) := by
  refine (stops_iff ?_ ?_ 0 _).mpr (yields_cut small behindHeader ?_)
  · exact congrArg _ carries.segment
  · exact congrArg _ carries.segment
  · rw [truncate, setSize_of_le shorter, drop_take, carries.drop 0]
    rfl

/-- A log that is read whole has no payload that is too long. -/
theorem Carries.small_of_stops
    (stops : (log.truncate log.file.length).Stops digests (readerAt header 0).lsn
      (wholeWithin log.file.length ((readerAt header 0).entries records))) :
    ∀ record ∈ records, record.payload.length < 2 ^ 32 := by
  have size : log.file.length = ((readerAt header 0).behindAll records).offset := by
    rw [readerAt_behindAll digests, carries.file, length_append,
      WriteAheadLogSegmentHeader.length_encode, Nat.zero_add]
    rfl
  have whole : wholeWithin log.file.length ((readerAt header 0).entries records) =
      (readerAt header 0).entries records := by
    refine filter_eq_self.mpr fun entry mem => decide_eq_true ?_
    rw [size]
    cases records with
    | nil => cases mem
    | cons record records => exact (end_of_mem_entries mem).2
  obtain ⟨reader, stop, -, yields, -⟩ := stops
  rw [whole] at yields
  exact forall_entries_lt.mp (length_of_yields yields)

end

/-- A log that was cut in a record, opened again and written to. -/
theorem Carries.stops_torn_iff {records : List WriteAheadLogRecord} {torn : WriteAheadLogRecord}
    {cut : Nat} {later : List WriteAheadLogRecord}
    (carries : Carries digests header log (buffers digests header.integrity records ++
      (torn.buffer digests header.integrity).take cut ++ buffers digests header.integrity later)) :
    log.Stops digests (readerAt header 0).lsn ((readerAt header 0).entries records ++
        (readerAt header ((buffers digests header.integrity records).length + cut)).entries later) ↔
      (∀ record ∈ records ++ later, record.payload.length < 2 ^ 32) ∧
        (cut = 0 ∨ later = [] ∧ ∀ record, recordAt digests header.integrity
          ((torn.buffer digests header.integrity).take cut) ≠ .ok (some record)) := by
  have behind : (readerAt header 0).behindAll records =
      readerAt header (buffers digests header.integrity records).length := by
    rw [readerAt_behindAll digests, Nat.zero_add]
  have tail : log.file.drop (readerAt header (buffers digests header.integrity records).length).offset =
      (torn.buffer digests header.integrity).take cut ++ buffers digests header.integrity later := by
    rw [carries.drop, append_assoc, drop_left]
  have stands : log.file.drop (readerAt header 0).offset = buffers digests header.integrity records ++
      ((torn.buffer digests header.integrity).take cut ++ buffers digests header.integrity later) := by
    rw [carries.drop, drop_zero, append_assoc]
  constructor
  · intro stops
    obtain ⟨stop, yields⟩ :=
      (stops_iff (congrArg _ carries.segment) (congrArg _ carries.segment) 0 _).mp stops
    have lengths := length_of_yields yields
    rw [forall_mem_append, forall_entries_lt, forall_entries_lt] at lengths
    have rest := yields_behindAll yields
    rw [behind] at rest
    refine ⟨forall_mem_append.mpr lengths, or_iff_not_imp_left.mpr fun cutInside => ?_⟩
    cases later with
    | nil =>
      refine ⟨rfl, fun record found => ?_⟩
      apply unreadable_of_yields rest record
      rw [tail, buffers_nil, append_nil]
      exact found
    | cons record later =>
      -- What is read behind the intact records is at the cut, the new record is not.
      cases rest with
      | item called _ =>
        obtain ⟨found, -, same, -⟩ := next_some called
        have offsets : headerSize + ((buffers digests header.integrity records).length + cut) =
            headerSize + (buffers digests header.integrity records).length :=
          congrArg (fun entry => entry.lsn.offset) same
        omega
  · rintro ⟨small, rfl | ⟨rfl, unreadable⟩⟩
    · have whole : Carries digests header log
          (buffers digests header.integrity ([] ++ (records ++ later))) := by
        simpa [buffers_append] using carries
      have reads := whole.reads small
      rw [entries_append] at reads
      change log.Reads digests _ ((readerAt header 0).entries records ++
        ((readerAt header 0).behindAll records).entries later) at reads
      rw [behind] at reads
      exact reads.stops
    · obtain ⟨stop, yields⟩ : ∃ stop, (next digests log.file).Yields
          (readerAt header (buffers digests header.integrity records).length) [] stop := by
        apply yields_nil
        rw [tail, buffers_nil, append_nil]
        exact unreadable
      rw [← behind] at yields
      refine (stops_iff (congrArg _ carries.segment) (congrArg _ carries.segment) 0 _).mpr ⟨stop, ?_⟩
      refine yields_buffers ?_ stands yields
      exact fun record mem => small record (mem_append_left _ mem)

end

/-- Every cut of the segment file behind its header leaves exactly the records that lie wholly
before the cut, if and only if no payload has `2 ^ 32` bytes or more. -/
theorem truncate_stops_iff (digests : Digests) (config : WriteAheadLogConfig) (now : UInt64)
    (ops : List LogOp) :
    let log := (step digests).final (create digests config now) ops
    let answers := (step digests).answers (create digests config now) ops
    (∀ size, headerSize ≤ size → size ≤ log.file.length →
        (log.truncate size).Stops digests .zero (wholeWithin size (entriesOf ops answers))) ↔
      ∀ record ∈ recordsOf ops, record.payload.length < 2 ^ 32 := by
  intro log answers
  obtain ⟨carries, entries, -⟩ := (carries_create digests config now).run ops
  rw [nil_append] at carries
  rw [show entriesOf ops answers = _ from entries]
  constructor
  · intro stops
    refine carries.small_of_stops (stops _ ?_ le_rfl)
    rw [carries.file, length_append, WriteAheadLogSegmentHeader.length_encode]
    exact Nat.le_add_right _ _
  · intro small size behindHeader shorter
    exact carries.stops_truncate small behindHeader shorter

/-- A payload of `2 ^ 32` bytes is written with the length zero. -/
theorem truncate_misreads :
    let digests : Digests := ⟨fun _ => 0, fun _ => 0⟩
    let config : WriteAheadLogConfig := ⟨0, .none, .none, .none⟩
    let ops : List LogOp := [.append ⟨0, List.replicate (2 ^ 32) 0⟩ .none]
    let log := (step digests).final (create digests config 0) ops
    let answers := (step digests).answers (create digests config 0) ops
    ¬∀ size, headerSize ≤ size → size ≤ log.file.length →
      (log.truncate size).Stops digests .zero (wholeWithin size (entriesOf ops answers)) := by
  intro digests config ops log answers stops
  obtain ⟨carries, entries, -⟩ := (carries_create digests config 0).run ops
  have whole := stops log.file.length (by
    rw [carries.file, length_append, WriteAheadLogSegmentHeader.length_encode]
    exact Nat.le_add_right _ _) le_rfl
  have small := carries.small_of_stops whole _ mem_cons_self
  rw [length_replicate] at small
  exact lt_irrefl _ small

/-- A log whose last record was cut, that was opened again and written to. The intact records
followed by the new ones are read if and only if no payload has `2 ^ 32` bytes or more and
either nothing is left of the cut record, or nothing was appended and what is left of it does
not read as a record. -/
theorem torn_stops_iff (digests : Digests) (config reopenConfig : WriteAheadLogConfig)
    (now reopenNow : UInt64) (ops later : List LogOp) (torn : WriteAheadLogRecord)
    (durability : Durability) (cut : Nat)
    (inside : cut < (torn.buffer digests config.checksum).length) :
    let intact := (step digests).final (create digests config now) ops
    let cutLog := (step digests intact (.append torn durability)).2.truncate (intact.file.length + cut)
    let opened := (step digests cutLog (.reopen reopenConfig reopenNow)).2
    ((step digests).final opened later).Stops digests .zero
        (entriesOf ops ((step digests).answers (create digests config now) ops) ++
          entriesOf later ((step digests).answers opened later)) ↔
      (∀ record ∈ recordsOf ops ++ recordsOf later, record.payload.length < 2 ^ 32) ∧
        (cut = 0 ∨ recordsOf later = [] ∧ ∀ record, recordAt digests config.checksum
          ((torn.buffer digests config.checksum).take cut) ≠ .ok (some record)) := by
  intro intact cutLog opened
  obtain ⟨carries, entries, -⟩ := (carries_create digests config now).run ops
  rw [nil_append] at carries
  have cutFile : cutLog.file = (WriteAheadLogManager.firstHeader config now).encode digests ++
      (buffers digests config.checksum (recordsOf ops) ++
        (torn.buffer digests config.checksum).take cut) := by
    have appended := (carries.append torn durability).2.file
    have shorter : intact.file.length + cut ≤
        (step digests intact (.append torn durability)).2.file.length := by
      rw [appended, carries.file]
      simp only [length_append]
      have : cut < (torn.buffer digests
        (WriteAheadLogManager.firstHeader config now).integrity).length := inside
      omega
    rw [show cutLog.file = _ from setSize_of_le shorter, appended, carries.file,
      ← append_assoc, take_length_add_append, append_assoc]
    rfl
  obtain ⟨ended, added, -⟩ := (carries_reopen cutFile reopenConfig reopenNow).2.run later
  rw [length_append, length_take, min_eq_left inside.le] at added
  rw [entries, show entriesOf later ((step digests).answers opened later) = _ from added]
  exact ended.stops_torn_iff

/-- Four bytes are left of the cut record, and nothing is appended behind them. -/
theorem torn_stops_unappended :
    let digests : Digests := ⟨fun _ => 0, fun _ => 0⟩
    let config : WriteAheadLogConfig := ⟨0, .none, .none, .none⟩
    let ops : List LogOp := [.append ⟨1, [5]⟩ .sync]
    let torn : WriteAheadLogRecord := ⟨2, [6]⟩
    let intact := (step digests).final (create digests config 0) ops
    let cutLog := (step digests intact (.append torn .sync)).2.truncate (intact.file.length + 4)
    let opened := (step digests cutLog (.reopen config 0)).2
    4 < (torn.buffer digests config.checksum).length ∧
      ((step digests).final opened []).Stops digests .zero
        (entriesOf ops ((step digests).answers (create digests config 0) ops) ++
          entriesOf [] ((step digests).answers opened [])) := by
  intro digests config ops torn intact cutLog opened
  have short : recordAt digests config.checksum ((torn.buffer digests config.checksum).take 4) =
      .ok none := rfl
  exact ⟨by decide, (torn_stops_iff _ _ _ _ _ _ _ _ .sync 4 (by decide)).mpr
    ⟨by decide, .inr ⟨rfl, fun record => by simp [short]⟩⟩⟩

/-- Four bytes are left of the cut record: the record appended behind them is not read. -/
theorem torn_hides_appended :
    let digests : Digests := ⟨fun _ => 0, fun _ => 0⟩
    let config : WriteAheadLogConfig := ⟨0, .none, .none, .none⟩
    let ops : List LogOp := [.append ⟨1, [5]⟩ .sync]
    let later : List LogOp := [.append ⟨3, [7]⟩ .sync]
    let torn : WriteAheadLogRecord := ⟨2, [6]⟩
    let intact := (step digests).final (create digests config 0) ops
    let cutLog := (step digests intact (.append torn .sync)).2.truncate (intact.file.length + 4)
    let opened := (step digests cutLog (.reopen config 0)).2
    ¬((step digests).final opened later).Stops digests .zero
      (entriesOf ops ((step digests).answers (create digests config 0) ops) ++
        entriesOf later ((step digests).answers opened later)) := by
  intro digests config ops later torn intact cutLog opened
  rintro ⟨reader, stop, found, yields, -⟩
  have start : ((step digests).final opened later).manager.readerFrom .zero =
      .ok ⟨0, headerSize, .none⟩ := by
    decide +kernel
  obtain rfl := Except.ok.inj (found.symm.trans start)
  have read : (next digests ((step digests).final opened later).file).drain 3
      ⟨0, headerSize, .none⟩ = ([⟨⟨0, 69⟩, 1, [5]⟩], some (.error (.corruption ⟨0, 84⟩))) := by
    decide +kernel
  have entries : entriesOf ops ((step digests).answers (create digests config 0) ops) ++
      entriesOf later ((step digests).answers opened later) =
      [⟨⟨0, 69⟩, 1, [5]⟩, ⟨⟨0, 88⟩, 3, [7]⟩] := by
    decide +kernel
  rw [entries] at yields
  cases read.symm.trans (yields.drain_eq (Nat.lt_succ_self 2))

end Log

end Nanograph.Wal
