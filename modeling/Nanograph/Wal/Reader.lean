import Nanograph.Foundation.Iteration
import Nanograph.Wal.Segment

/-!
# Reading the write-ahead log

The reader of `nanograph-wal/src/reader.rs`. It looks at a segment file from an offset
on, so what it reads next depends on the bytes behind that offset only.
-/

namespace Nanograph.Wal

open List Foundation Util Vfs WriteAheadLogRecord

/-- A single entry read from the log. -/
structure WriteAheadLogEntry where
  lsn : LogSequenceNumber
  kind : UInt16
  payload : Bytes
deriving DecidableEq

@[ext] structure WriteAheadLogReader where
  segmentId : UInt64
  offset : Nat
  integrity : IntegrityAlgorithm
deriving DecidableEq

namespace WriteAheadLogReader

/-- The position a reader is at. -/
def lsn (reader : WriteAheadLogReader) : LogSequenceNumber := ⟨reader.segmentId, reader.offset⟩

/-- Read the next record from the log, or none at the end of the file. -/
def next (digests : Digests) (file : Bytes) :
    Iterator WriteAheadLogReader WriteAheadLogEntry WriteAheadLogError := fun reader =>
  if reader.offset ≥ file.length then .ok none
  else
    -- Magic, kind and length.
    let header := readAtOffset file reader.offset 10
    if header.length < 10 then .ok none
    else if ofBeBytes (slice header 0 4) ≠ recordMagic.toNat then .error (.corruption reader.lsn)
    else
      let kind := UInt16.ofNat (ofBeBytes (slice header 4 6))
      let len := ofBeBytes (slice header 6 10)
      let payload := readAtOffset file (reader.offset + 10) len
      if payload.length < len then .error (.corruption reader.lsn)
      else
        let checksumBuf := readAtOffset file (reader.offset + 10 + len) 4
        if checksumBuf.length < 4 then .error (.corruption reader.lsn)
        else if reader.integrity ≠ .none ∧ UInt32.ofNat (ofBeBytes checksumBuf) ≠
              reader.integrity.checksum digests (header ++ payload) then
          .error (.corruption reader.lsn)
        else
          .ok (some (⟨reader.lsn, kind, payload⟩,
            { reader with offset := reader.offset + (10 + len + 4) }))

end WriteAheadLogReader

/-- The record in front of the rest of a file: none if the file ends before a record, an
error if there is something else. -/
def recordAt (digests : Digests) (integrity : IntegrityAlgorithm) (rest : Bytes) :
    Except Unit (Option WriteAheadLogRecord) :=
  let header := rest.take 10
  let len := ofBeBytes (slice header 6 10)
  let payload := (rest.drop 10).take len
  let checksumBuf := (rest.drop (10 + len)).take 4
  if header.length < 10 then .ok none
  else if ofBeBytes (slice header 0 4) ≠ recordMagic.toNat then .error ()
  else if payload.length < len then .error ()
  else if checksumBuf.length < 4 then .error ()
  else if integrity ≠ .none ∧
      UInt32.ofNat (ofBeBytes checksumBuf) ≠ integrity.checksum digests (header ++ payload) then
    .error ()
  else .ok (some ⟨UInt16.ofNat (ofBeBytes (slice header 4 6)), payload⟩)

section

variable {digests : Digests} {integrity : IntegrityAlgorithm} {record : WriteAheadLogRecord}

/-- The record whose bytes stand in front of a file is found. -/
theorem recordAt_buffer (small : record.payload.length < 2 ^ 32) (rest : Bytes) :
    recordAt digests integrity (record.buffer digests integrity ++ rest) = .ok (some record) := by
  have shape : record.buffer digests integrity ++ rest = record.header ++ (record.payload ++
      (beBytes 4 (integrity.checksum digests record.body).toNat ++ rest)) := by
    simp only [buffer, body, append_assoc]
  simp [recordAt, shape, header_len small, ← drop_drop, body]

/-- A record that was cut is not found. -/
theorem recordAt_torn (small : record.payload.length < 2 ^ 32) {cut : Nat}
    (torn : cut < (record.buffer digests integrity).length) (other : WriteAheadLogRecord) :
    recordAt digests integrity ((record.buffer digests integrity).take cut) ≠ .ok (some other) := by
  rw [length_buffer] at torn
  by_cases early : cut < 10
  · simp [recordAt, early]
  -- The header is whole: the cut is in the payload or in the checksum.
  have front : ((record.buffer digests integrity).take cut).take 10 = record.header := by
    rw [take_take, min_eq_left (not_lt.mp early), buffer,
      body, append_assoc, take_left' record.length_header]
  have length : ((record.buffer digests integrity).take cut).length = cut := by
    rw [length_take, length_buffer]
    omega
  simp only [recordAt, front, length_header, lt_irrefl, if_false, slice_header_magic,
    ofBeBytes_toNat32, ne_eq, not_true, header_len small, length_take, length_drop, length]
  by_cases inPayload : min record.payload.length (cut - 10) < record.payload.length
  · simp [inPayload]
  · have inChecksum : min 4 (cut - (10 + record.payload.length)) < 4 := by omega
    simp [inPayload, inChecksum]

/-- Only records with a length that fits are found. -/
theorem length_of_recordAt {rest : Bytes}
    (found : recordAt digests integrity rest = .ok (some record)) :
    record.payload.length < 2 ^ 32 := by
  simp only [recordAt] at found
  split_ifs at found with early
  · cases found
  · obtain rfl := Option.some.inj (Except.ok.inj found)
    exact (length_take_le _ _).trans_lt (ofBeBytes_lt (length_slice_le _ _ _))

end

namespace WriteAheadLogReader

/-- The entry of a record that is found where a reader is. -/
def entry (reader : WriteAheadLogReader) (record : WriteAheadLogRecord) : WriteAheadLogEntry :=
  ⟨reader.lsn, record.kind, record.payload⟩

def behind (reader : WriteAheadLogReader) (record : WriteAheadLogRecord) : WriteAheadLogReader :=
  { reader with offset := reader.offset + (10 + record.payload.length + 4) }

/-- A reader finds the record in front of the bytes from its offset on. -/
theorem next_eq (digests : Digests) (file : Bytes) (reader : WriteAheadLogReader) :
    next digests file reader =
      match recordAt digests reader.integrity (file.drop reader.offset) with
      | .ok none => .ok none
      | .ok (some record) => .ok (some (reader.entry record, reader.behind record))
      | .error () => .error (.corruption reader.lsn) := by
  by_cases atEnd : reader.offset ≥ file.length
  · simp [next, recordAt, atEnd, drop_eq_nil_of_le atEnd]
  simp only [next, recordAt, readAtOffset, drop_drop, if_neg atEnd, ← Nat.add_assoc]
  split_ifs with early magic short cut wrong
  case neg =>
    have whole := (length_take_le _ _).antisymm (not_lt.mp short)
    simp only [entry, behind, whole, Nat.add_assoc]
  all_goals rfl

/-- The entries of records that follow each other from where a reader is. -/
def entries (reader : WriteAheadLogReader) : List WriteAheadLogRecord → List WriteAheadLogEntry
  | [] => []
  | record :: rest => reader.entry record :: (reader.behind record).entries rest

/-- A reader behind records that follow each other. -/
def behindAll (reader : WriteAheadLogReader) (records : List WriteAheadLogRecord) :
    WriteAheadLogReader :=
  records.foldl behind reader

variable (reader : WriteAheadLogReader)

@[simp] theorem integrity_behind (record : WriteAheadLogRecord) :
    (reader.behind record).integrity = reader.integrity := rfl

theorem entries_append (first second : List WriteAheadLogRecord) :
    reader.entries (first ++ second) =
      reader.entries first ++ (reader.behindAll first).entries second := by
  induction first generalizing reader with
  | nil => rfl
  | cons record rest ih => exact congrArg _ (ih _)

theorem entries_eq_append {reader : WriteAheadLogReader} {records : List WriteAheadLogRecord}
    {earlier later : List WriteAheadLogEntry} (parts : reader.entries records = earlier ++ later) :
    ∃ first second, records = first ++ second ∧ earlier = reader.entries first ∧
      later = (reader.behindAll first).entries second := by
  induction earlier generalizing reader records with
  | nil => exact ⟨[], records, rfl, rfl, parts.symm⟩
  | cons entry earlier ih =>
    cases records with
    | nil => cases parts
    | cons record records =>
      obtain ⟨rfl, rest⟩ := List.cons.inj parts
      obtain ⟨first, second, rfl, rfl, rfl⟩ := ih rest
      exact ⟨record :: first, second, rfl, rfl, rfl⟩

end WriteAheadLogReader

/-- The bytes of records that follow each other. -/
def buffers (digests : Digests) (integrity : IntegrityAlgorithm)
    (records : List WriteAheadLogRecord) : Bytes :=
  records.flatMap (·.buffer digests integrity)

@[simp] theorem buffers_nil (digests : Digests) (integrity : IntegrityAlgorithm) :
    buffers digests integrity [] = [] := rfl

theorem buffers_append (digests : Digests) (integrity : IntegrityAlgorithm)
    (first second : List WriteAheadLogRecord) :
    buffers digests integrity (first ++ second) =
      buffers digests integrity first ++ buffers digests integrity second :=
  flatMap_append

namespace WriteAheadLogReader

variable {digests : Digests} {file : Bytes}

@[simp] theorem integrity_behindAll (reader : WriteAheadLogReader)
    (records : List WriteAheadLogRecord) :
    (reader.behindAll records).integrity = reader.integrity := by
  induction records generalizing reader with
  | nil => rfl
  | cons record rest ih => exact ih (reader.behind record)

@[simp] theorem segmentId_behindAll (reader : WriteAheadLogReader)
    (records : List WriteAheadLogRecord) :
    (reader.behindAll records).segmentId = reader.segmentId := by
  induction records generalizing reader with
  | nil => rfl
  | cons record rest ih => exact ih (reader.behind record)

theorem offset_behindAll (digests : Digests) (reader : WriteAheadLogReader)
    (records : List WriteAheadLogRecord) :
    (reader.behindAll records).offset =
      reader.offset + (buffers digests reader.integrity records).length := by
  induction records generalizing reader with
  | nil => rfl
  | cons record rest ih =>
    rw [behindAll, foldl_cons, ← behindAll, ih, integrity_behind, buffers, buffers, flatMap_cons,
      length_append, length_buffer, ← Nat.add_assoc]
    rfl

variable {reader : WriteAheadLogReader} {later : List WriteAheadLogEntry}
  {stop : Except WriteAheadLogError Unit}

theorem yields_end (atEnd : file.drop reader.offset = []) :
    (next digests file).Yields reader [] (.ok ()) :=
  .ended (by rw [next_eq, atEnd]; rfl)

/-- Records that stand where a reader is are read one after the other. -/
theorem yields_buffers {records : List WriteAheadLogRecord} {rest : Bytes}
    (small : ∀ record ∈ records, record.payload.length < 2 ^ 32)
    (stands : file.drop reader.offset = buffers digests reader.integrity records ++ rest)
    (yields : (next digests file).Yields (reader.behindAll records) later stop) :
    (next digests file).Yields reader (reader.entries records ++ later) stop := by
  induction records generalizing reader with
  | nil => exact yields
  | cons record records ih =>
    rw [forall_mem_cons] at small
    rw [buffers, flatMap_cons, append_assoc] at stands
    have found : next digests file reader =
        .ok (some (reader.entry record, reader.behind record)) := by
      rw [next_eq, stands, recordAt_buffer small.1]
    refine .item found (ih small.2 ?_ yields)
    rw [behind, ← drop_drop, stands, ← length_buffer, drop_left]
    rfl

/-- What a call that returns an entry found. -/
theorem next_some {after : WriteAheadLogReader} {entry : WriteAheadLogEntry}
    (called : next digests file reader = .ok (some (entry, after))) :
    ∃ record, recordAt digests reader.integrity (file.drop reader.offset) = .ok (some record) ∧
      entry = reader.entry record ∧ after = reader.behind record := by
  rw [next_eq] at called
  cases found : recordAt digests reader.integrity (file.drop reader.offset) with
  | error => simp [found] at called
  | ok read =>
    cases read with
    | none => simp [found] at called
    | some record =>
      rw [found] at called
      cases called
      exact ⟨record, rfl, rfl, rfl⟩

theorem entry_injective (reader : WriteAheadLogReader) : Function.Injective reader.entry := by
  rintro ⟨kind, payload⟩ ⟨kind', payload'⟩ same
  cases same
  rfl

section

variable {reader : WriteAheadLogReader} {entries : List WriteAheadLogEntry}
  {stop : Except WriteAheadLogError Unit} (yields : (next digests file).Yields reader entries stop)

include yields

/-- Every entry that a reader returns has a length that fits. -/
theorem length_of_yields : ∀ entry ∈ entries, entry.payload.length < 2 ^ 32 := by
  induction yields with
  | ended => simp
  | failed => simp
  | item called _ ih =>
    obtain ⟨record, found, rfl, -⟩ := next_some called
    exact forall_mem_cons.mpr ⟨length_of_recordAt found, ih⟩

/-- A reader stops at the end of the log or with a corruption error. -/
theorem stop_of_yields : stop = .ok () ∨ ∃ lsn, stop = .error (.corruption lsn) := by
  induction yields with
  | ended => exact .inl rfl
  | @failed reader error called =>
    rw [next_eq] at called
    cases found : recordAt digests reader.integrity (file.drop reader.offset) with
    | error =>
      rw [found] at called
      cases called
      exact .inr ⟨_, rfl⟩
    | ok read => cases read <;> simp [found] at called
  | item _ _ ih => exact ih

end

/-- A reader that finds no record returns nothing. -/
theorem yields_nil (unreadable : ∀ record,
      recordAt digests reader.integrity (file.drop reader.offset) ≠ .ok (some record)) :
    ∃ stop, (next digests file).Yields reader [] stop := by
  cases found : recordAt digests reader.integrity (file.drop reader.offset) with
  | error => exact ⟨_, .failed (by rw [next_eq, found])⟩
  | ok read =>
    cases read with
    | none => exact ⟨_, .ended (by rw [next_eq, found])⟩
    | some record => exact absurd found (unreadable record)

/-- Behind records that were read, a reader goes on. -/
theorem yields_behindAll {records : List WriteAheadLogRecord}
    (yields : (next digests file).Yields reader (reader.entries records ++ later) stop) :
    (next digests file).Yields (reader.behindAll records) later stop := by
  induction records generalizing reader with
  | nil => exact yields
  | cons record records ih =>
    cases yields with
    | item called rest =>
      obtain ⟨found, -, same, rfl⟩ := next_some called
      obtain rfl := reader.entry_injective same
      exact ih rest

end WriteAheadLogReader

end Nanograph.Wal
