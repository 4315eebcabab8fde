import Nanograph.Foundation.BigEndian
import Nanograph.Foundation.Slice
import Nanograph.Raft.Types
import Nanograph.Util.Algorithms

/-!
# Snapshot files

`nanograph-raft/src/storage/snapshot.rs`. A file has a header with a checksum, the metadata of
the snapshot and blocks of records, each block with a header of its own. The writer collects
records until they fill a block; the reader returns one block after the other and reports the
end of the file as an error of its own kind, at the end of a block as well as in the middle of
one.
-/

namespace Nanograph.Raft

open Foundation Util

/-- How snapshots are written. -/
structure SnapshotConfig where
  integrity : IntegrityAlgorithm
  compression : CompressionAlgorithm
  encryption : EncryptionAlgorithm
  blockSize : Nat

def fileHeaderSize : Nat := 0x65

def fileHeaderMagic : Nat := 0x534E415053484F54

def fileHeaderVersion : Nat := 1

def chunkHeaderSize : Nat := 0x14

def chunkHeaderMagic : Nat := 0x43484E4B

/-- A key and its value. -/
abbrev Record := Bytes × Bytes

/-- What a snapshot file says about itself. -/
structure SnapshotFileMetadata (M : Type) where
  shardId : Nat
  createdAt : Nat
  integrity : IntegrityAlgorithm
  compression : CompressionAlgorithm
  encryption : EncryptionAlgorithm
  encryptionKey : Nat
  metadata : SnapshotMeta M

/-- A failed read: an error, or a slice outside of its data. -/
inductive Fault where
  | io (error : IoError)
  | panic

section

/-- The file header without its checksum. The length of the metadata also stands in the place
of the shard. -/
def fileHeaderFields (config : SnapshotConfig) (metadataLen : Nat) : Bytes :=
  beBytes 8 fileHeaderMagic ++ beBytes 2 fileHeaderVersion ++ beBytes 16 metadataLen ++
    beBytes 8 0 ++ beBytes 4 metadataLen ++ beBytes 8 (fileHeaderSize + metadataLen) ++
    [config.integrity.asU8, config.compression.asU8, config.encryption.asU8] ++
    beBytes 16 0 ++ List.replicate 32 0

/-- The file header. Its checksum is computed with zeros in the place of the checksum. -/
def fileHeader (digests : Digests) (config : SnapshotConfig) (metadataLen : Nat) : Bytes :=
  let fields := fileHeaderFields config metadataLen
  fields ++ beBytes 4 (IntegrityAlgorithm.crc32c.checksum digests (fields ++ beBytes 4 0)).toNat

def encodeRecord (record : Record) : Bytes :=
  leBytes 4 record.1.length ++ leBytes 4 record.2.length ++ record.1 ++ record.2

def chunkHeader (digests : Digests) (config : SnapshotConfig) (recordCount uncompressedSize : Nat)
    (compressed : Bytes) : Bytes :=
  beBytes 4 chunkHeaderMagic ++ beBytes 4 recordCount ++ beBytes 4 compressed.length ++
    beBytes 4 uncompressedSize ++ beBytes 4 (config.integrity.checksum digests compressed).toNat

/-- A writer and the file it has written so far. -/
structure SnapshotWriter where
  config : SnapshotConfig
  recordBuffer : Bytes
  recordCount : Nat
  file : Bytes

variable {M : Type} (codec : Codec (SnapshotMeta M)) (digests : Digests) (compressors : Compressors)

namespace SnapshotWriter

/-- A writer with the header and the metadata written. -/
def new (config : SnapshotConfig) (metadata : SnapshotMeta M) : SnapshotWriter where
  config
  recordBuffer := []
  recordCount := 0
  file :=
    let metaBytes := codec.serialize metadata
    fileHeader digests config metaBytes.length ++ metaBytes

/-- Write the collected records as a block, if there are any. -/
def flushBlock (writer : SnapshotWriter) : Except IoError SnapshotWriter :=
  if writer.recordCount = 0 then .ok writer
  else match writer.config.compression.compress compressors writer.recordBuffer with
    | some compressed => .ok { writer with
        recordBuffer := []
        recordCount := 0
        file := writer.file ++ chunkHeader digests writer.config writer.recordCount
          writer.recordBuffer.length compressed ++ compressed }
    | none => .error .other

/-- Collect a record; a full block is written. -/
def writeKv (writer : SnapshotWriter) (record : Record) : Except IoError SnapshotWriter :=
  let writer := { writer with
    recordBuffer := writer.recordBuffer ++ encodeRecord record
    recordCount := (writer.recordCount + 1) % 2 ^ 32 }
  if writer.config.blockSize ≤ writer.recordBuffer.length then
    writer.flushBlock digests compressors
  else .ok writer

/-- Collect records one after the other. -/
def writeAll (writer : SnapshotWriter) : List Record → Except IoError SnapshotWriter
  | [] => .ok writer
  | record :: rest =>
    match writer.writeKv digests compressors record with
    | .ok writer => writeAll writer rest
    | .error error => .error error

/-- The file, with the last block written. -/
def finish (writer : SnapshotWriter) : Except IoError Bytes :=
  (·.file) <$> writer.flushBlock digests compressors

end SnapshotWriter

end

section

/-- A reader: how the file was written and what has not been read yet. -/
structure SnapshotReader where
  config : SnapshotConfig
  rest : Bytes

/-- Read a number of bytes; there may be too few of them. -/
def readExact (count : Nat) (bytes : Bytes) : Except IoError (Bytes × Bytes) :=
  if count ≤ bytes.length then .ok (bytes.take count, bytes.drop count) else .error .unexpectedEof

/-- Check magic and version of a file header and return the length of the metadata. -/
def checkFileHeader (header : Bytes) : Except IoError Nat :=
  if ofBeBytes (slice header 0x00 0x08) ≠ fileHeaderMagic then
    .error (.invalidData "Invalid file header magic")
  else if ofBeBytes (slice header 0x08 0x0A) ≠ fileHeaderVersion then
    .error (.invalidData "Invalid file header version")
  else .ok (ofBeBytes (slice header 0x22 0x26))

variable {M : Type} (codec : Codec (SnapshotMeta M)) (digests : Digests) (compressors : Compressors)

/-- Check the checksum of a file header and read its fields and the metadata. -/
def readFileMetadata (header metaBytes : Bytes) : Except IoError (SnapshotFileMetadata M) :=
  if UInt32.ofNat (ofBeBytes (slice header 0x61 0x65)) ≠
      IntegrityAlgorithm.crc32c.checksum digests (slice header 0x00 0x61 ++ beBytes 4 0) then
    .error (.invalidData "Invalid file header checksum")
  else match codec.deserialize metaBytes with
    | some metadata => .ok {
        shardId := ofBeBytes (slice header 0x0A 0x1A)
        createdAt := ofBeBytes (slice header 0x1A 0x22)
        integrity := (header[0x2E]?.bind IntegrityAlgorithm.fromU8).getD .none
        compression := (header[0x2F]?.bind CompressionAlgorithm.fromU8).getD .none
        encryption := (header[0x30]?.bind EncryptionAlgorithm.fromU8).getD .none
        encryptionKey := ofBeBytes (slice header 0x31 0x41)
        metadata }
    | none => .error .other

/-- The configuration a file was written with. The block size is not needed for reading. -/
def SnapshotFileMetadata.config (metadata : SnapshotFileMetadata M) : SnapshotConfig :=
  ⟨metadata.integrity, metadata.compression, metadata.encryption, 0⟩

/-- The records of a block; reading outside of the data panics. -/
def readRecords : Nat → Bytes → Except Fault (List Record)
  | 0, _ => .ok []
  | count + 1, data =>
    if data.length < 8 then .error .panic
    else
      let keyLen := ofLeBytes (slice data 0 4)
      let valLen := ofLeBytes (slice data 4 8)
      let data := data.drop 8
      if data.length < keyLen then .error .panic
      else
        let key := data.take keyLen
        let data := data.drop keyLen
        if data.length < valLen then .error .panic
        else match readRecords count (data.drop valLen) with
          | .ok records => .ok ((key, data.take valLen) :: records)
          | .error fault => .error fault

/-- Check the data of a chunk against its header and read the records. -/
def readChunk (config : SnapshotConfig) (header compressed : Bytes) : Except Fault (List Record) :=
  if UInt32.ofNat (ofBeBytes (slice header 0x10 0x14)) ≠
      config.integrity.checksum digests compressed then
    .error (.io (.invalidData "Invalid chunk checksum"))
  else match config.compression.decompress compressors compressed
      (some (ofBeBytes (slice header 0x0C 0x10))) with
    | .ok data => readRecords (ofBeBytes (slice header 0x04 0x08)) data
    | .error message => .error (.io (.invalidData message))

namespace SnapshotReader

/-- Open a file: read its header and the metadata. -/
def openFile (file : Bytes) : Except IoError (SnapshotReader × SnapshotFileMetadata M) := do
  let (header, rest) ← readExact fileHeaderSize file
  let metadataLen ← checkFileHeader header
  let (metaBytes, rest) ← readExact metadataLen rest
  let metadata ← readFileMetadata codec digests header metaBytes
  return (⟨metadata.config, rest⟩, metadata)

def nextBlock (reader : SnapshotReader) : Except Fault (List Record × SnapshotReader) :=
  match readExact chunkHeaderSize reader.rest with
  | .error error => .error (.io error)
  | .ok (header, rest) =>
    if ofBeBytes (slice header 0x00 0x04) ≠ chunkHeaderMagic then
      .error (.io (.invalidData "Invalid chunk header magic"))
    else match readExact (ofBeBytes (slice header 0x08 0x0C)) rest with
      | .error error => .error (.io error)
      | .ok (compressed, rest) =>
        match readChunk digests compressors reader.config header compressed with
        | .ok records => .ok (records, { reader with rest })
        | .error fault => .error fault

/-- The blocks from a reader on, up to the end of the file. -/
inductive Blocks : SnapshotReader → List (List Record) → Prop
  | done (config : SnapshotConfig) : Blocks ⟨config, []⟩ []
  | block {reader next : SnapshotReader} {records : List Record} {later : List (List Record)} :
    reader.nextBlock digests compressors = .ok (records, next) → Blocks next later →
      Blocks reader (records :: later)

end SnapshotReader

end

end Nanograph.Raft
