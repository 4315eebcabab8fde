import Nanograph.Foundation.Lexicographic
import Nanograph.Foundation.Slice
import Nanograph.Util.Algorithms
import Nanograph.Vfs.File

/-!
# Segments of the write-ahead log

The header and the records of a segment file, as `nanograph-wal/src/walfile.rs` writes
them. Offsets in a file are natural numbers.
-/

namespace Nanograph.Wal

open List Foundation Util Vfs

def segmentMagic : UInt32 := 0x474e414e

def recordMagic : UInt32 := 0x474e414f

def headerSize : Nat := 4 + 2 + 16 + 8 + 8 + 8 + 1 + 1 + 1 + 16 + 4

/-- A position in the log. -/
structure LogSequenceNumber where
  segmentId : UInt64
  offset : Nat
deriving DecidableEq

/-- The first record position, after the segment header. -/
def LogSequenceNumber.zero : LogSequenceNumber := ⟨0, headerSize⟩

inductive WriteAheadLogError where
  | corruption (lsn : LogSequenceNumber)
  | invalidLsn
  | versionMismatch
  | checksumMismatch
deriving DecidableEq

/-- The header at the beginning of every segment file. -/
structure WriteAheadLogSegmentHeader where
  version : UInt16
  shardId : BitVec 128
  segmentId : UInt64
  startOffset : UInt64
  createdAtUnixMs : UInt64
  integrity : IntegrityAlgorithm
  compression : CompressionAlgorithm
  encryption : EncryptionAlgorithm
  encryptionKeyId : BitVec 128
  checksum : UInt32
deriving DecidableEq

namespace WriteAheadLogSegmentHeader

/-- The bytes that the checksum of a header is computed over. The encryption key is not
among them. -/
def rangeHeader (header : WriteAheadLogSegmentHeader) : Bytes :=
  beBytes 4 segmentMagic.toNat ++ beBytes 2 header.version.toNat ++
    beBytes 16 header.shardId.toNat ++ beBytes 8 header.segmentId.toNat ++
    beBytes 8 header.startOffset.toNat ++ beBytes 8 header.createdAtUnixMs.toNat ++
    [header.integrity.asU8, header.compression.asU8, header.encryption.asU8]

/-- Encode a header. The checksum is computed, the field is not read. -/
def encode (digests : Digests) (header : WriteAheadLogSegmentHeader) : Bytes :=
  header.rangeHeader ++ beBytes 16 header.encryptionKeyId.toNat ++
    beBytes 4 (header.integrity.checksum digests header.rangeHeader).toNat

def decode (digests : Digests) (buffer : Bytes) :
    Except WriteAheadLogError WriteAheadLogSegmentHeader := do
  if buffer.length < headerSize then throw .invalidLsn
  if ofBeBytes (slice buffer 0x00 0x04) ≠ segmentMagic.toNat then throw .versionMismatch
  let some integrity := buffer[0x2E]?.bind IntegrityAlgorithm.fromU8 | throw .versionMismatch
  let some compression := buffer[0x2F]?.bind CompressionAlgorithm.fromU8 | throw .versionMismatch
  let some encryption := buffer[0x30]?.bind EncryptionAlgorithm.fromU8 | throw .versionMismatch
  let readChecksum := UInt32.ofNat (ofBeBytes (slice buffer 0x41 0x45))
  if integrity ≠ .none then
    if readChecksum ≠ integrity.checksum digests (slice buffer 0x00 0x31) then
      throw .checksumMismatch
  return {
    version := UInt16.ofNat (ofBeBytes (slice buffer 0x04 0x06))
    shardId := BitVec.ofNat 128 (ofBeBytes (slice buffer 0x06 0x16))
    segmentId := UInt64.ofNat (ofBeBytes (slice buffer 0x16 0x1E))
    startOffset := UInt64.ofNat (ofBeBytes (slice buffer 0x1E 0x26))
    createdAtUnixMs := UInt64.ofNat (ofBeBytes (slice buffer 0x26 0x2E))
    integrity := integrity
    compression := compression
    encryption := encryption
    encryptionKeyId := BitVec.ofNat 128 (ofBeBytes (slice buffer 0x31 0x41))
    checksum := readChecksum }

@[simp] theorem length_rangeHeader (header : WriteAheadLogSegmentHeader) :
    header.rangeHeader.length = 0x31 := by
  simp [rangeHeader]

@[simp] theorem length_encode (digests : Digests) (header : WriteAheadLogSegmentHeader) :
    (header.encode digests).length = headerSize := by
  simp [encode, headerSize]

/-- A header is read back from its encoding with the checksum filled in. -/
theorem decode_encode (digests : Digests) (header : WriteAheadLogSegmentHeader) :
    decode digests (header.encode digests) =
      .ok { header with checksum := header.integrity.checksum digests header.rangeHeader } := by
  have integrity : (header.encode digests)[0x2E]? = some header.integrity.asU8 := by
    simp [encode, rangeHeader]
  have compression : (header.encode digests)[0x2F]? = some header.compression.asU8 := by
    simp [encode, rangeHeader]
  have encryption : (header.encode digests)[0x30]? = some header.encryption.asU8 := by
    simp [encode, rangeHeader]
  have covered : slice (header.encode digests) 0x00 0x31 = header.rangeHeader := by
    simp [encode, slice_front]
  have keyId : slice (header.encode digests) 0x31 0x41 = beBytes 16 header.encryptionKeyId.toNat := by
    simp [encode, slice_skip, slice_front]
  have checksum : slice (header.encode digests) 0x41 0x45 =
      beBytes 4 (header.integrity.checksum digests header.rangeHeader).toNat := by
    simp [encode, slice_skip, slice_all]
  have magic : slice (header.encode digests) 0x00 0x04 = beBytes 4 segmentMagic.toNat := by
    simp [encode, rangeHeader, slice_front]
  have version : slice (header.encode digests) 0x04 0x06 = beBytes 2 header.version.toNat := by
    simp [encode, rangeHeader, slice_skip, slice_front]
  have shardId : slice (header.encode digests) 0x06 0x16 = beBytes 16 header.shardId.toNat := by
    simp [encode, rangeHeader, slice_skip, slice_front]
  have segmentId : slice (header.encode digests) 0x16 0x1E = beBytes 8 header.segmentId.toNat := by
    simp [encode, rangeHeader, slice_skip, slice_front]
  have startOffset :
      slice (header.encode digests) 0x1E 0x26 = beBytes 8 header.startOffset.toNat := by
    simp [encode, rangeHeader, slice_skip, slice_front]
  have createdAt :
      slice (header.encode digests) 0x26 0x2E = beBytes 8 header.createdAtUnixMs.toNat := by
    simp [encode, rangeHeader, slice_skip, slice_front]
  have long : ¬(header.encode digests).length < headerSize := by simp
  simp only [decode, covered, checksum, integrity, compression, encryption, magic, version,
    shardId, segmentId, startOffset, createdAt, keyId, long, Option.bind_some,
    ofBeBytes_toNat128]
  simp [pure, Except.pure]

/-- What a buffer holds that decodes to a header. -/
theorem of_decode {digests : Digests} {buffer : Bytes} {header : WriteAheadLogSegmentHeader}
    (decoded : decode digests buffer = .ok header) :
    headerSize ≤ buffer.length ∧
      buffer[0x2E]?.bind IntegrityAlgorithm.fromU8 = some header.integrity ∧
      buffer[0x2F]?.bind CompressionAlgorithm.fromU8 = some header.compression ∧
      buffer[0x30]?.bind EncryptionAlgorithm.fromU8 = some header.encryption ∧
      header = { header with
        version := UInt16.ofNat (ofBeBytes (slice buffer 0x04 0x06))
        shardId := BitVec.ofNat 128 (ofBeBytes (slice buffer 0x06 0x16))
        segmentId := UInt64.ofNat (ofBeBytes (slice buffer 0x16 0x1E))
        startOffset := UInt64.ofNat (ofBeBytes (slice buffer 0x1E 0x26))
        createdAtUnixMs := UInt64.ofNat (ofBeBytes (slice buffer 0x26 0x2E))
        encryptionKeyId := BitVec.ofNat 128 (ofBeBytes (slice buffer 0x31 0x41))
        checksum := UInt32.ofNat (ofBeBytes (slice buffer 0x41 0x45)) } := by
  simp only [decode, bind, Except.bind, pure, Except.pure, throw, throwThe, MonadExceptOf.throw]
    at decoded
  split at decoded
  · cases decoded
  next long =>
    refine ⟨not_lt.mp long, ?_⟩
    split_ifs at decoded
    split at decoded
    next integrity isIntegrity =>
      split at decoded
      next compression isCompression =>
        split at decoded
        next encryption isEncryption =>
          rw [isIntegrity, isCompression, isEncryption]
          split_ifs at decoded <;> cases decoded <;> exact ⟨rfl, rfl, rfl, rfl⟩
        next => cases decoded
      next => cases decoded
    next => cases decoded

/-- A header is read back from its encoding, and two buffers with the same bytes under the
checksum and the same checksum decode to the same header if and only if they have the same
encryption key. -/
theorem decode_protects_iff (digests : Digests) :
    (∀ header : WriteAheadLogSegmentHeader, decode digests (header.encode digests) =
      .ok { header with checksum := header.integrity.checksum digests header.rangeHeader }) ∧
    ∀ first second firstHeader secondHeader, decode digests first = .ok firstHeader →
      decode digests second = .ok secondHeader →
      slice first 0x41 0x45 = slice second 0x41 0x45 →
      slice first 0x00 0x31 = slice second 0x00 0x31 →
      (firstHeader = secondHeader ↔ slice first 0x31 0x41 = slice second 0x31 0x41) := by
  refine ⟨decode_encode digests, ?_⟩
  intro first second firstHeader secondHeader decoded secondDecoded checksum covered
  obtain ⟨long, integrity, compression, encryption, isFirst⟩ := of_decode decoded
  obtain ⟨secondLong, secondIntegrity, secondCompression, secondEncryption, isSecond⟩ :=
    of_decode secondDecoded
  have byte (idx : Nat) (inside : idx < 0x31) : first[idx]? = second[idx]? := by
    rw [slice, slice, drop_zero, drop_zero] at covered
    rw [← getElem?_take_of_lt inside, covered, getElem?_take_of_lt inside]
  rw [byte _ (by decide)] at integrity compression encryption
  have sameIntegrity := Option.some.inj (integrity.symm.trans secondIntegrity)
  have sameCompression := Option.some.inj (compression.symm.trans secondCompression)
  have sameEncryption := Option.some.inj (encryption.symm.trans secondEncryption)
  have lengths : (slice first 0x31 0x41).length = (slice second 0x31 0x41).length := by
    rw [headerSize] at long secondLong
    simp only [slice, length_drop, length_take]
    omega
  constructor
  · rintro rfl
    have keys := congrArg (·.encryptionKeyId.toNat) (isFirst.symm.trans isSecond)
    simp only [BitVec.toNat_ofNat] at keys
    have small (buffer : Bytes) : ofBeBytes (slice buffer 0x31 0x41) < 2 ^ 128 :=
      ofBeBytes_lt (length_slice_le _ _ _)
    rw [Nat.mod_eq_of_lt (small first), Nat.mod_eq_of_lt (small second)] at keys
    exact (ofBeBytes_inj lengths).mp keys
  · intro keys
    have part (start stop : Nat) (inside : stop ≤ 0x31) := @slice_of_front _ _ _ start _ _ covered inside
    rw [isFirst, isSecond, sameIntegrity, sameCompression, sameEncryption, keys, checksum,
      part 0x04 _ (by decide), part 0x06 _ (by decide), part 0x16 _ (by decide),
      part 0x1E _ (by decide), part 0x26 _ (by decide)]

/-- Two buffers that differ behind the header. -/
theorem decode_protects_longer_buffer :
    let digests : Digests := ⟨fun _ => 7, fun _ => 9⟩
    let header : WriteAheadLogSegmentHeader := ⟨1, 3, 0, 0, 11, .crc32c, .none, .none, 5, 7⟩
    let first := header.encode digests
    let second := first ++ [1]
    decode digests first = .ok header ∧ decode digests second = .ok header ∧
      (header = header ↔ slice first 0x31 0x41 = slice second 0x31 0x41) := by
  intro digests header first second
  have decoded : decode digests first = .ok header := by decide +kernel
  have longer : decode digests second = .ok header := by decide +kernel
  exact ⟨decoded, longer, (decode_protects_iff digests).2 _ _ _ _ decoded longer
    (by decide +kernel) (by decide +kernel)⟩

/-- The key of a header is changed behind its checksum. -/
theorem decode_misses_key :
    let digests : Digests := ⟨fun _ => 7, fun _ => 9⟩
    let header : WriteAheadLogSegmentHeader := ⟨1, 3, 0, 0, 11, .crc32c, .none, .aes256Gcm, 5, 7⟩
    let first := header.encode digests
    let second := first.set 0x40 6
    decode digests first = .ok header ∧
      decode digests second = .ok { header with encryptionKeyId := 6 } ∧
      slice first 0x41 0x45 = slice second 0x41 0x45 ∧
      slice first 0x00 0x31 = slice second 0x00 0x31 := by
  decide +kernel

end WriteAheadLogSegmentHeader

/-- A record to be written to the log. -/
structure WriteAheadLogRecord where
  kind : UInt16
  payload : Bytes

namespace WriteAheadLogRecord

/-- The length of a payload as it is written: what fits into four bytes. -/
def writtenLen (record : WriteAheadLogRecord) : UInt32 := UInt32.ofNat record.payload.length

/-- What stands in front of a payload: magic, kind and length. -/
def header (record : WriteAheadLogRecord) : Bytes :=
  beBytes 4 recordMagic.toNat ++ beBytes 2 record.kind.toNat ++ beBytes 4 record.writtenLen.toNat

/-- A record up to its checksum. -/
def body (record : WriteAheadLogRecord) : Bytes := record.header ++ record.payload

/-- The bytes of a record in a segment file. -/
def buffer (digests : Digests) (integrity : IntegrityAlgorithm) (record : WriteAheadLogRecord) :
    Bytes :=
  record.body ++ beBytes 4 (integrity.checksum digests record.body).toNat

variable (record : WriteAheadLogRecord)

@[simp] theorem length_header : record.header.length = 10 := by
  simp [header]

@[simp] theorem slice_header_magic : slice record.header 0 4 = beBytes 4 recordMagic.toNat := by
  simp [header, slice_front]

@[simp] theorem slice_header_kind : slice record.header 4 6 = beBytes 2 record.kind.toNat := by
  simp [header, slice_skip, slice_front]

theorem header_writtenLen : ofBeBytes (slice record.header 6 10) = record.writtenLen.toNat := by
  have written : slice record.header 6 10 = beBytes 4 record.writtenLen.toNat := by
    simp [header, slice_skip, slice_all]
  rw [written, ofBeBytes_toNat32]

/-- The length of a payload that is not too long is read back. -/
theorem header_len {record : WriteAheadLogRecord} (small : record.payload.length < 2 ^ 32) :
    ofBeBytes (slice record.header 6 10) = record.payload.length := by
  rw [header_writtenLen]
  exact UInt32.toNat_ofNat_of_lt' small

@[simp] theorem length_body : record.body.length = 10 + record.payload.length := by
  simp [body]

@[simp] theorem length_buffer (digests : Digests) (integrity : IntegrityAlgorithm)
    (record : WriteAheadLogRecord) :
    (record.buffer digests integrity).length = 10 + record.payload.length + 4 := by
  simp [buffer]

end WriteAheadLogRecord

/-- An open segment file. The file itself is passed along. -/
structure WriteAheadLogFile where
  shardId : BitVec 128
  segmentId : UInt64
  startOffset : UInt64
  writeOffset : Nat
  integrity : IntegrityAlgorithm

namespace WriteAheadLogFile

def newHeader (shardId : BitVec 128) (segmentId startOffset createdAtUnixMs : UInt64)
    (integrity : IntegrityAlgorithm) (compression : CompressionAlgorithm)
    (encryption : EncryptionAlgorithm) (encryptionKeyId : BitVec 128) :
    WriteAheadLogSegmentHeader where
  version := 1
  shardId := shardId
  segmentId := segmentId
  startOffset := startOffset
  createdAtUnixMs := createdAtUnixMs
  integrity := integrity
  compression := compression
  encryption := encryption
  encryptionKeyId := encryptionKeyId
  checksum := 0

def create (digests : Digests) (header : WriteAheadLogSegmentHeader) : WriteAheadLogFile × Bytes :=
  ({ shardId := header.shardId
     segmentId := header.segmentId
     startOffset := header.startOffset
     writeOffset := headerSize
     integrity := header.integrity },
    writeToOffset [] 0 (header.encode digests))

/-- Open an existing segment file: read its header and go on at its end. -/
def openExisting (digests : Digests) (file : Bytes) :
    Except WriteAheadLogError WriteAheadLogFile := do
  let read := readAtOffset file 0 headerSize
  let buffer := read ++ List.replicate (headerSize - read.length) 0
  let header ← WriteAheadLogSegmentHeader.decode digests buffer
  return {
    shardId := header.shardId
    segmentId := header.segmentId
    startOffset := header.startOffset
    writeOffset := file.length
    integrity := header.integrity }

def append (digests : Digests) (segment : WriteAheadLogFile) (file : Bytes)
    (record : WriteAheadLogRecord) : LogSequenceNumber × WriteAheadLogFile × Bytes :=
  let buffer := record.buffer digests segment.integrity
  (⟨segment.segmentId, segment.writeOffset⟩,
    { segment with writeOffset := segment.writeOffset + buffer.length },
    writeToOffset file segment.writeOffset buffer)

/-- A file that starts with a header opens as a segment that goes on at its end. -/
theorem openExisting_of_header (digests : Digests) (header : WriteAheadLogSegmentHeader)
    (records : Bytes) :
    openExisting digests (header.encode digests ++ records) =
      .ok { shardId := header.shardId
            segmentId := header.segmentId
            startOffset := header.startOffset
            writeOffset := headerSize + records.length
            integrity := header.integrity } := by
  have read : readAtOffset (header.encode digests ++ records) 0 headerSize =
      header.encode digests := by
    rw [readAtOffset, drop_zero, take_left' (header.length_encode digests)]
  simp only [openExisting, read, WriteAheadLogSegmentHeader.length_encode, Nat.sub_self,
    replicate_zero, append_nil, WriteAheadLogSegmentHeader.decode_encode, length_append]
  rfl

end WriteAheadLogFile

end Nanograph.Wal
