import Nanograph.Raft.Snapshot

/-!
# What is written to a snapshot file and what is read from it

The file of a writer is the header, the metadata and one chunk for each block of records, and
a reader returns these blocks. A reader of a file that was cut returns the blocks that lie
wholly within the cut file and then reports the end of the file, wherever the cut is.
-/

namespace Nanograph.Raft

open List Foundation Util SnapshotReader

variable {M : Type} {codec : Codec (SnapshotMeta M)} {digests : Digests} {compressors : Compressors}

variable {count : Nat} {rest : Bytes}

theorem readExact_append {front : Bytes} (length : front.length = count) :
    readExact count (front ++ rest) = .ok (front, rest) := by
  subst length
  simp [readExact]

theorem readExact_short {bytes : Bytes} (short : bytes.length < count) :
    readExact count bytes = .error .unexpectedEof :=
  if_neg short.not_ge

theorem readExact_eq_ok {bytes front : Bytes} (read : readExact count bytes = .ok (front, rest)) :
    bytes = front ++ rest ∧ front.length = count := by
  rw [readExact] at read
  split at read
  next enough =>
    obtain ⟨rfl, rfl⟩ := Prod.mk.inj (Except.ok.inj read)
    exact ⟨(take_append_drop _ _).symm, length_take_of_le enough⟩
  next => cases read

namespace SnapshotReader

variable {header compressed : Bytes} {metadata : SnapshotFileMetadata M}
  {reader : SnapshotReader} {config : SnapshotConfig}

/-- A file is opened when its header and its metadata are there and accepted. -/
theorem openFile_parts {metaBytes : Bytes} (length : header.length = fileHeaderSize)
    (checked : checkFileHeader header = .ok metaBytes.length)
    (accepted : readFileMetadata codec digests header metaBytes = .ok metadata) (rest : Bytes) :
    openFile codec digests (header ++ (metaBytes ++ rest)) = .ok (⟨metadata.config, rest⟩, metadata) := by
  simp only [openFile, readExact_append length, checked, readExact_append rfl, accepted, bind,
    Except.bind, pure, Except.pure]

/-- The parts of a file that was opened. -/
theorem openFile_eq_ok {file : Bytes}
    (opened : openFile codec digests file = .ok (reader, metadata)) :
    ∃ header metaBytes, file = header ++ (metaBytes ++ reader.rest) ∧
      header.length = fileHeaderSize ∧ checkFileHeader header = .ok metaBytes.length ∧
      readFileMetadata codec digests header metaBytes = .ok metadata ∧
      reader.config = metadata.config := by
  rw [openFile] at opened
  cases readHeader : readExact fileHeaderSize file with
  | error error => simp [readHeader, bind, Except.bind] at opened
  | ok parts =>
    obtain ⟨header, rest⟩ := parts
    obtain ⟨rfl, length⟩ := readExact_eq_ok readHeader
    cases checked : checkFileHeader header with
    | error error => simp [readHeader, checked, bind, Except.bind] at opened
    | ok metadataLen =>
      cases readMetadata : readExact metadataLen rest with
      | error error => simp [readHeader, checked, readMetadata, bind, Except.bind] at opened
      | ok parts =>
        obtain ⟨metaBytes, rest⟩ := parts
        obtain ⟨rfl, metaLength⟩ := readExact_eq_ok readMetadata
        cases accepted : readFileMetadata codec digests header metaBytes with
        | error error =>
          simp [readHeader, checked, readMetadata, accepted, bind, Except.bind] at opened
        | ok found =>
          simp only [readHeader, checked, readMetadata, accepted, bind, Except.bind, pure,
            Except.pure, Except.ok.injEq, Prod.mk.injEq] at opened
          obtain ⟨rfl, rfl⟩ := opened
          exact ⟨header, metaBytes, rfl, length, metaLength ▸ checked, accepted, rfl⟩

/-- A file that ends before its metadata does is not opened. -/
theorem openFile_short (codec : Codec (SnapshotMeta M)) (digests : Digests)
    {metaBytes file rest : Bytes} (length : header.length = fileHeaderSize)
    (checked : checkFileHeader header = .ok metaBytes.length)
    (isCut : file <+: header ++ (metaBytes ++ rest))
    (short : file.length < fileHeaderSize + metaBytes.length) :
    openFile codec digests file = .error .unexpectedEof := by
  by_cases inHeader : file.length < fileHeaderSize
  · simp only [openFile, readExact_short inHeader, bind, Except.bind]
  · obtain ⟨part, rfl⟩ : header <+: file :=
      prefix_of_prefix_length_le (prefix_append _ _) isCut (by omega)
    rw [length_append, length] at short
    simp only [openFile, readExact_append length, checked,
      readExact_short (Nat.lt_of_add_lt_add_left short), bind, Except.bind]

/-- A block is read when its header and its data are there and accepted. -/
theorem nextBlock_parts {records : List Record} (length : header.length = chunkHeaderSize)
    (magic : ofBeBytes (slice header 0x00 0x04) = chunkHeaderMagic)
    (size : ofBeBytes (slice header 0x08 0x0C) = compressed.length)
    (accepted : readChunk digests compressors config header compressed = .ok records)
    (rest : Bytes) :
    nextBlock digests compressors ⟨config, header ++ (compressed ++ rest)⟩ =
      .ok (records, ⟨config, rest⟩) := by
  simp only [nextBlock, readExact_append length, magic, size, readExact_append rfl, accepted,
    ne_eq, not_true_eq_false, if_false]

/-- The parts of a block that was read. -/
theorem nextBlock_eq_ok {next : SnapshotReader} {records : List Record}
    (read : reader.nextBlock digests compressors = .ok (records, next)) :
    ∃ header compressed, reader.rest = header ++ (compressed ++ next.rest) ∧
      header.length = chunkHeaderSize ∧
      ofBeBytes (slice header 0x00 0x04) = chunkHeaderMagic ∧
      ofBeBytes (slice header 0x08 0x0C) = compressed.length ∧
      readChunk digests compressors reader.config header compressed = .ok records ∧
      next.config = reader.config := by
  rw [nextBlock] at read
  split at read
  next => cases read
  next header rest readHeader =>
    obtain ⟨whole, length⟩ := readExact_eq_ok readHeader
    split at read
    next => cases read
    next magic =>
      split at read
      next => cases read
      next compressed rest' readData =>
        obtain ⟨rfl, size⟩ := readExact_eq_ok readData
        split at read
        next records' accepted =>
          obtain ⟨rfl, rfl⟩ := Prod.mk.inj (Except.ok.inj read)
          exact ⟨header, compressed, whole, length, not_not.mp magic, size.symm, accepted, rfl⟩
        next => cases read

/-- In the middle of a block the end of the file is reported. -/
theorem nextBlock_short {bytes rest : Bytes} (length : header.length = chunkHeaderSize)
    (magic : ofBeBytes (slice header 0x00 0x04) = chunkHeaderMagic)
    (size : ofBeBytes (slice header 0x08 0x0C) = compressed.length)
    (isCut : bytes <+: header ++ (compressed ++ rest))
    (short : bytes.length < chunkHeaderSize + compressed.length) :
    nextBlock digests compressors ⟨config, bytes⟩ = .error (.io .unexpectedEof) := by
  by_cases inHeader : bytes.length < chunkHeaderSize
  · simp only [nextBlock, readExact_short inHeader]
  · obtain ⟨part, rfl⟩ : header <+: bytes :=
      prefix_of_prefix_length_le (prefix_append _ _) isCut (by omega)
    rw [length_append, length] at short
    simp only [nextBlock, readExact_append length, magic, size,
      readExact_short (Nat.lt_of_add_lt_add_left short), ne_eq, not_true_eq_false, if_false]

end SnapshotReader

/-- The bytes in front of the blocks of a file, as its header gives them. -/
def metadataEnd (file : Bytes) : Nat := fileHeaderSize + ofBeBytes (slice file 0x22 0x26)

theorem metadataEnd_parts {header metaBytes : Bytes} (length : header.length = fileHeaderSize)
    (checked : checkFileHeader header = .ok metaBytes.length) :
    metadataEnd (header ++ (metaBytes ++ rest)) = fileHeaderSize + metaBytes.length := by
  have field : slice (header ++ (metaBytes ++ rest)) 0x22 0x26 = slice header 0x22 0x26 := by
    rw [slice, slice, take_append_of_le_length (by rw [length]; decide)]
  rw [metadataEnd, field]
  rw [checkFileHeader] at checked
  split at checked
  next => cases checked
  next =>
    split at checked
    next => cases checked
    next => rw [Except.ok.inj checked]

def encodeRecords (records : List Record) : Bytes := records.flatMap encodeRecord

@[simp] theorem length_encodeRecord (record : Record) :
    (encodeRecord record).length = 8 + record.1.length + record.2.length := by
  simp [encodeRecord]
  omega

theorem length_le_encodeRecords (records : List Record) :
    8 * records.length ≤ (encodeRecords records).length := by
  induction records with
  | nil => exact le_rfl
  | cons record rest ih =>
    rw [encodeRecords, flatMap_cons, length_append, length_encodeRecord, length_cons]
    rw [encodeRecords] at ih
    omega

/-- The lengths of a record fit in front of it. -/
def RecordFits (record : Record) : Prop :=
  record.1.length < 2 ^ 32 ∧ record.2.length < 2 ^ 32

theorem recordFits_of_short {records : List Record}
    (short : (encodeRecords records).length < 2 ^ 32) : ∀ record ∈ records, RecordFits record := by
  intro record mem
  have part : (encodeRecord record).length ≤ (encodeRecords records).length := by
    exact (sublist_flatten_of_mem (mem_map_of_mem mem)).length_le
  rw [length_encodeRecord] at part
  exact ⟨by omega, by omega⟩

/-- One record is read, whatever stands behind it. -/
theorem readRecords_encodeRecord {record : Record} (fits : RecordFits record) :
    readRecords (count + 1) (encodeRecord record ++ rest) =
      (record :: ·) <$> readRecords count rest := by
  obtain ⟨key, value⟩ := record
  have bytes : encodeRecord (key, value) ++ rest =
      leBytes 4 key.length ++ (leBytes 4 value.length ++ (key ++ (value ++ rest))) := by
    simp [encodeRecord]
  have keyLen : slice (encodeRecord (key, value) ++ rest) 0 4 = leBytes 4 key.length := by
    exact slice_front (length_leBytes _ _)
  have valLen : slice (encodeRecord (key, value) ++ rest) 4 8 = leBytes 4 value.length := by
    rw [bytes, slice_skip (by simp)]
    exact slice_front (by simp)
  have behind : (encodeRecord (key, value) ++ rest).drop 8 = key ++ (value ++ rest) := by
    rw [bytes, ← append_assoc, drop_left' (by simp)]
  rw [readRecords, if_neg (by simp; omega), keyLen, valLen, behind,
    ofLeBytes_leBytes_of_lt fits.1, ofLeBytes_leBytes_of_lt fits.2]
  simp only [length_append, (Nat.le_add_right _ _).not_gt, if_false, drop_left, take_left]
  cases readRecords count rest <;> rfl

/-- Records are read back from their bytes. -/
theorem readRecords_encodeRecords {records : List Record}
    (fits : ∀ record ∈ records, RecordFits record) :
    readRecords records.length (encodeRecords records ++ rest) = .ok records := by
  induction records with
  | nil => rfl
  | cons record later ih =>
    obtain ⟨first, others⟩ := forall_mem_cons.mp fits
    rw [encodeRecords, flatMap_cons, append_assoc, length_cons, readRecords_encodeRecord first]
    exact congrArg (Functor.map _) (ih others)

section

variable {config : SnapshotConfig} {recordCount uncompressedSize : Nat} {compressed header : Bytes}

@[simp] theorem length_chunkHeader :
    (chunkHeader digests config recordCount uncompressedSize compressed).length =
      chunkHeaderSize := by
  simp [chunkHeader, chunkHeaderSize]

variable (isHeader : header = chunkHeader digests config recordCount uncompressedSize compressed)

include isHeader

theorem chunkHeader_magic : ofBeBytes (slice header 0x00 0x04) = chunkHeaderMagic := by
  have field : slice header 0x00 0x04 = beBytes 4 chunkHeaderMagic := by
    simp [isHeader, chunkHeader, slice_front]
  rw [field]
  decide

theorem chunkHeader_recordCount (fits : recordCount < 2 ^ 32) :
    ofBeBytes (slice header 0x04 0x08) = recordCount := by
  have field : slice header 0x04 0x08 = beBytes 4 recordCount := by
    simp [isHeader, chunkHeader, slice_skip, slice_front]
  rw [field, ofBeBytes_beBytes]
  exact Nat.mod_eq_of_lt fits

theorem chunkHeader_compressedSize (fits : compressed.length < 2 ^ 32) :
    ofBeBytes (slice header 0x08 0x0C) = compressed.length := by
  have field : slice header 0x08 0x0C = beBytes 4 compressed.length := by
    simp [isHeader, chunkHeader, slice_skip, slice_front]
  rw [field, ofBeBytes_beBytes]
  exact Nat.mod_eq_of_lt fits

theorem chunkHeader_checksum : UInt32.ofNat (ofBeBytes (slice header 0x10 0x14)) =
    config.integrity.checksum digests compressed := by
  have field : slice header 0x10 0x14 =
      beBytes 4 (config.integrity.checksum digests compressed).toNat := by
    simp [isHeader, chunkHeader, slice_skip, slice_all]
  rw [field, ofBeBytes_toNat32, UInt32.ofNat_toNat]

end

/-- The block of records in a file. -/
def chunkOf (digests : Digests) (config : SnapshotConfig) (records : List Record) : Bytes :=
  let bytes := encodeRecords records
  chunkHeader digests config records.length bytes.length bytes ++ bytes

/-- A block that is not compressed and not too long is read back. -/
theorem nextBlock_chunkOf (config : SnapshotConfig) (uncompressed : config.compression = .none)
    {records : List Record} (short : (encodeRecords records).length < 2 ^ 32) (rest : Bytes) :
    nextBlock digests compressors ⟨config, chunkOf digests config records ++ rest⟩ =
      .ok (records, ⟨config, rest⟩) := by
  have enough := length_le_encodeRecords records
  apply nextBlock_parts length_chunkHeader (chunkHeader_magic rfl)
    (chunkHeader_compressedSize rfl short)
  rw [readChunk, chunkHeader_checksum rfl, chunkHeader_recordCount rfl (by omega), uncompressed]
  simp only [CompressionAlgorithm.decompress, ne_eq, not_true_eq_false, if_false]
  rw [← append_nil (encodeRecords records)]
  exact readRecords_encodeRecords (recordFits_of_short short)

/-- The blocks that records are written in, behind records that wait for a full block. -/
def blocksOf (blockSize : Nat) : List Record → List Record → List (List Record)
  | [], [] => []
  | waiting, [] => [waiting]
  | waiting, record :: rest =>
    let waiting := waiting ++ [record]
    if blockSize ≤ (encodeRecords waiting).length then waiting :: blocksOf blockSize [] rest
    else blocksOf blockSize waiting rest

theorem flatten_blocksOf (blockSize : Nat) (waiting records : List Record) :
    (blocksOf blockSize waiting records).flatten = waiting ++ records := by
  induction records generalizing waiting with
  | nil => cases waiting <;> simp [blocksOf]
  | cons record rest ih =>
    rw [blocksOf]
    split <;> simp [ih]

/-- Waiting records come first in the next block. -/
theorem exists_block (blockSize : Nat) {waiting : List Record} (some : waiting ≠ [])
    (records : List Record) : ∃ block ∈ blocksOf blockSize waiting records, waiting <+: block := by
  induction records generalizing waiting with
  | nil =>
    cases waiting with
    | nil => exact absurd rfl some
    | cons first others => exact ⟨_, mem_singleton.mpr rfl, prefix_rfl⟩
  | cons record rest ih =>
    rw [blocksOf]
    split
    · exact ⟨_, mem_cons_self, prefix_append _ _⟩
    · obtain ⟨block, mem, front⟩ :=
        ih (append_ne_nil_of_right_ne_nil waiting (cons_ne_nil record []))
      exact ⟨block, mem, (prefix_append _ _).trans front⟩

theorem length_encodeRecords_le {front block : List Record} (isFront : front <+: block) :
    (encodeRecords front).length ≤ (encodeRecords block).length := by
  obtain ⟨rest, rfl⟩ := isFront
  simp [encodeRecords]

/-- No block has 2 ^ 32 bytes or more. -/
def ShortBlocks (blocks : List (List Record)) : Prop :=
  ∀ block ∈ blocks, (encodeRecords block).length < 2 ^ 32

namespace SnapshotWriter

/-- A writer with records that wait for a full block. -/
def holding (config : SnapshotConfig) (waiting : List Record) (file : Bytes) : SnapshotWriter :=
  ⟨config, encodeRecords waiting, waiting.length, file⟩

variable {config : SnapshotConfig} {waiting : List Record} {file : Bytes}

variable (uncompressed : config.compression = .none)

include uncompressed

/-- Waiting records are written as one block. -/
theorem flushBlock_holding (some : waiting ≠ []) :
    (holding config waiting file).flushBlock digests compressors =
      .ok (holding config [] (file ++ chunkOf digests config waiting)) := by
  have counted : (holding config waiting file).recordCount ≠ 0 :=
    fun none => some (eq_nil_of_length_eq_zero none)
  rw [flushBlock, if_neg counted]
  simp only [holding, uncompressed, CompressionAlgorithm.compress, chunkOf, append_assoc]
  rfl

theorem finish_holding :
    (holding config waiting file).finish digests compressors =
      .ok (file ++ (blocksOf config.blockSize waiting []).flatMap (chunkOf digests config)) := by
  cases waiting with
  | nil => simp [finish, flushBlock, holding, blocksOf]
  | cons first others =>
    rw [finish, flushBlock_holding uncompressed (cons_ne_nil _ _), blocksOf]
    · simp [holding]
    · exact fun none => absurd none (cons_ne_nil _ _)

/-- A record joins the waiting ones and may complete a block. -/
theorem writeKv_holding {record : Record} (counted : waiting.length + 1 < 2 ^ 32) :
    (holding config waiting file).writeKv digests compressors record =
      .ok (if config.blockSize ≤ (encodeRecords (waiting ++ [record])).length then
          holding config [] (file ++ chunkOf digests config (waiting ++ [record]))
        else holding config (waiting ++ [record]) file) := by
  have joined : { holding config waiting file with
      recordBuffer := (holding config waiting file).recordBuffer ++ encodeRecord record
      recordCount := ((holding config waiting file).recordCount + 1) % 2 ^ 32 } =
        holding config (waiting ++ [record]) file := by
    simp only [holding, Nat.mod_eq_of_lt counted, length_append, length_singleton,
      encodeRecords, flatMap_append, flatMap_singleton]
  rw [writeKv, joined]
  change (if config.blockSize ≤ (encodeRecords (waiting ++ [record])).length then _ else _) = _
  split
  · exact flushBlock_holding uncompressed (by simp)
  · rfl

/-- The records of a writer and the ones written to it are in the file, block by block. -/
theorem writeAll_holding {records : List Record}
    (short : ShortBlocks (blocksOf config.blockSize waiting records)) :
    ∃ writer, (holding config waiting file).writeAll digests compressors records = .ok writer ∧
      writer.finish digests compressors = .ok (file ++
        (blocksOf config.blockSize waiting records).flatMap (chunkOf digests config)) := by
  induction records generalizing waiting file with
  | nil => exact ⟨_, rfl, finish_holding uncompressed⟩
  | cons record rest ih =>
    have counted : waiting.length + 1 < 2 ^ 32 := by
      obtain ⟨block, mem, front⟩ : ∃ block ∈ blocksOf config.blockSize waiting (record :: rest),
          waiting ++ [record] <+: block := by
        rw [blocksOf]
        split
        · exact ⟨_, mem_cons_self, prefix_rfl⟩
        · exact exists_block _ (by simp) rest
      have bytes := length_encodeRecords_le front
      have each := length_le_encodeRecords (waiting ++ [record])
      have small := short block mem
      rw [length_append, length_singleton] at each
      omega
    rw [writeAll, writeKv_holding uncompressed counted]
    rw [blocksOf] at short ⊢
    by_cases full : config.blockSize ≤ (encodeRecords (waiting ++ [record])).length
    · simp only [if_pos full] at short ⊢
      have later : ShortBlocks (blocksOf config.blockSize [] rest) :=
        fun block mem => short block (mem_cons_of_mem _ mem)
      obtain ⟨writer, written, finished⟩ := ih later
      exact ⟨writer, written, by rw [finished, flatMap_cons, append_assoc]⟩
    · simp only [if_neg full] at short ⊢
      exact ih short

end SnapshotWriter

section

variable {config : SnapshotConfig} {metadataLen : Nat}

@[simp] theorem length_fileHeaderFields : (fileHeaderFields config metadataLen).length = 0x61 := by
  simp [fileHeaderFields]

@[simp] theorem length_fileHeader :
    (fileHeader digests config metadataLen).length = fileHeaderSize := by
  simp [fileHeader, fileHeaderSize]

/-- The header of a file is accepted, with the length of the metadata as it fits. -/
theorem checkFileHeader_fileHeader :
    checkFileHeader (fileHeader digests config metadataLen) = .ok (metadataLen % 2 ^ 32) := by
  set header := fileHeader digests config metadataLen with isHeader
  have magic : slice header 0x00 0x08 = beBytes 8 fileHeaderMagic := by
    simp [isHeader, fileHeader, fileHeaderFields, slice_front]
  have version : slice header 0x08 0x0A = beBytes 2 fileHeaderVersion := by
    simp [isHeader, fileHeader, fileHeaderFields, slice_skip, slice_front]
  have length : slice header 0x22 0x26 = beBytes 4 metadataLen := by
    simp [isHeader, fileHeader, fileHeaderFields, slice_skip, slice_front]
  have readMagic : ofBeBytes (beBytes 8 fileHeaderMagic) = fileHeaderMagic := by decide
  have readVersion : ofBeBytes (beBytes 2 fileHeaderVersion) = fileHeaderVersion := by decide
  rw [checkFileHeader, magic, version, length, if_neg (not_not.mpr readMagic),
    if_neg (not_not.mpr readVersion), ofBeBytes_beBytes, ← Nat.pow_mul 2 8 4]

/-- The checksum and the algorithms of a header are read back. -/
theorem readFileMetadata_fileHeader (digests : Digests) (config : SnapshotConfig)
    (metadataLen : Nat) {metaBytes : Bytes} {metadata : SnapshotMeta M}
    (decoded : codec.deserialize metaBytes = some metadata) :
    ∃ found, readFileMetadata codec digests (fileHeader digests config metadataLen) metaBytes =
        .ok found ∧ found.config = { config with blockSize := 0 } := by
  set header := fileHeader digests config metadataLen with isHeader
  have integrity : header[0x2E]? = some config.integrity.asU8 := by
    simp [isHeader, fileHeader, fileHeaderFields]
  have compression : header[0x2F]? = some config.compression.asU8 := by
    simp [isHeader, fileHeader, fileHeaderFields]
  have encryption : header[0x30]? = some config.encryption.asU8 := by
    simp [isHeader, fileHeader, fileHeaderFields]
  have fields : slice header 0x00 0x61 = fileHeaderFields config metadataLen :=
    slice_front length_fileHeaderFields
  have checksum : slice header 0x61 0x65 = beBytes 4 (IntegrityAlgorithm.crc32c.checksum digests
      (fileHeaderFields config metadataLen ++ beBytes 4 0)).toNat := by
    simp [isHeader, fileHeader, slice_skip, slice_all]
  rw [readFileMetadata, checksum, fields, ofBeBytes_toNat32, UInt32.ofNat_toNat,
    if_neg (not_not.mpr rfl), decoded, integrity, compression, encryption]
  exact ⟨_, rfl, by simp [SnapshotFileMetadata.config]⟩

end

def fileOf (codec : Codec (SnapshotMeta M)) (digests : Digests) (config : SnapshotConfig)
    (metadata : SnapshotMeta M) (records : List Record) : Bytes :=
  let metaBytes := codec.serialize metadata
  fileHeader digests config metaBytes.length ++ (metaBytes ++
    (blocksOf config.blockSize [] records).flatMap (chunkOf digests config))

section

variable (codec) (digests) {config : SnapshotConfig} (metadata : SnapshotMeta M)
  {records : List Record}

/-- What a writer leaves behind. -/
theorem writeAll_new (compressors : Compressors) (uncompressed : config.compression = .none)
    (short : ShortBlocks (blocksOf config.blockSize [] records)) :
    ∃ writer, (SnapshotWriter.new codec digests config metadata).writeAll digests compressors
        records = .ok writer ∧
      writer.finish digests compressors = .ok (fileOf codec digests config metadata records) := by
  obtain ⟨writer, written, finished⟩ := SnapshotWriter.writeAll_holding uncompressed short
  exact ⟨writer, written, by rw [finished, fileOf, append_assoc]⟩

variable {codec} {metadata} (config) (records)

theorem openFile_fileOf (fits : (codec.serialize metadata).length < 2 ^ 32) :
    ∃ found, openFile codec digests (fileOf codec digests config metadata records) =
      .ok (⟨{ config with blockSize := 0 },
        (blocksOf config.blockSize [] records).flatMap (chunkOf digests config)⟩, found) := by
  obtain ⟨found, accepted, same⟩ := readFileMetadata_fileHeader digests config
    (codec.serialize metadata).length (codec.deserialize_serialize metadata)
  refine ⟨found, ?_⟩
  rw [← same]
  apply openFile_parts length_fileHeader _ accepted
  rw [checkFileHeader_fileHeader, Nat.mod_eq_of_lt fits]

/-- Metadata that is too long for the header cannot be read back. -/
theorem openFile_fileOf_long (delimited : codec.Delimited)
    (long : ¬ (codec.serialize metadata).length < 2 ^ 32) :
    ∃ error, openFile codec digests (fileOf codec digests config metadata records) =
      .error error := by
  cases opened : openFile codec digests
      (fileOf codec digests config metadata records) with
  | error error => exact ⟨error, rfl⟩
  | ok result =>
    obtain ⟨header, metaBytes, parts, length, checked, accepted, -⟩ :=
      openFile_eq_ok opened
    obtain ⟨sameHeader, sameRest⟩ := append_inj parts (length_fileHeader.trans length.symm)
    rw [← sameHeader, checkFileHeader_fileHeader] at checked
    -- what is taken for the metadata is a proper beginning of it
    have shorter : metaBytes.length < (codec.serialize metadata).length := by
      rw [← Except.ok.inj checked]
      omega
    have front : metaBytes <+: codec.serialize metadata :=
      prefix_of_prefix_length_le ⟨_, sameRest.symm⟩ (prefix_append _ _) shorter.le
    have unread := delimited metadata metaBytes front fun same => shorter.ne (same ▸ rfl)
    rw [readFileMetadata, unread] at accepted
    split at accepted <;> cases accepted

/-- All blocks of the file are read. -/
theorem blocks_chunks (compressors : Compressors) (uncompressed : config.compression = .none)
    {blocks : List (List Record)} (short : ShortBlocks blocks) :
    SnapshotReader.Blocks digests compressors
      ⟨{ config with blockSize := 0 }, blocks.flatMap (chunkOf digests config)⟩ blocks := by
  induction blocks with
  | nil => exact .done _
  | cons block rest ih =>
    obtain ⟨first, later⟩ := forall_mem_cons.mp short
    exact .block (nextBlock_chunkOf { config with blockSize := 0 } uncompressed first _)
      (ih later)

end

end Nanograph.Raft
