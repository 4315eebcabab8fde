import Nanograph.Raft.SnapshotFile

/-!
# Reading any bytes as a snapshot

The number of records in the header of a block is not under the checksum of the block, and the
reader takes that many records from the data without a look at how many bytes are left. A call
of `next_block` slices out of range exactly if the data of a block that passes all checks does
not begin with that many records.
-/

namespace Nanograph.Raft

open List Foundation Util

section

/-- The data begins with a number of records. -/
def BeginsWithRecords (count : Nat) (data : Bytes) : Prop :=
  ∃ records : List Record, records.length = count ∧ (∀ record ∈ records, RecordFits record) ∧
    encodeRecords records <+: data

variable {count : Nat} {data : Bytes}

theorem exists_split (inside : count ≤ data.length) :
    ∃ front rest, data = front ++ rest ∧ front.length = count :=
  ⟨_, _, (take_append_drop _ _).symm, length_take_of_le inside⟩

/-- Where a record is read, one stands. -/
theorem exists_record (read : readRecords (count + 1) data ≠ .error .panic) :
    ∃ record rest, RecordFits record ∧ data = encodeRecord record ++ rest ∧
      readRecords count rest ≠ .error .panic := by
  have enough : 8 ≤ data.length := not_lt.mp fun short => read (if_pos short)
  obtain ⟨lengths, body, rfl, eight⟩ := exists_split enough
  obtain ⟨keyLen, valLen, rfl, four⟩ : ∃ keyLen valLen, lengths = keyLen ++ valLen ∧
    keyLen.length = 4 := exists_split (by omega)
  have last : valLen.length = 4 := by
    rw [length_append] at eight
    omega
  have keySlice : slice (keyLen ++ valLen ++ body) 0 4 = keyLen := by
    rw [append_assoc, slice_front four]
  have valSlice : slice (keyLen ++ valLen ++ body) 4 8 = valLen := by
    rw [append_assoc, slice_skip four.le, four, slice_front last]
  rw [readRecords, if_neg enough.not_gt, keySlice, valSlice, drop_left' eight] at read
  have keyInside : ofLeBytes keyLen ≤ body.length := not_lt.mp fun short => read (if_pos short)
  obtain ⟨key, tail, rfl, keyLength⟩ := exists_split keyInside
  rw [if_neg keyInside.not_gt, drop_left' keyLength] at read
  have valInside : ofLeBytes valLen ≤ tail.length := not_lt.mp fun short => read (if_pos short)
  obtain ⟨value, rest, rfl, valLength⟩ := exists_split valInside
  rw [if_neg valInside.not_gt, drop_left' valLength] at read
  have keyFits := ofLeBytes_lt keyLen
  have valFits := ofLeBytes_lt valLen
  rw [four] at keyFits
  rw [last] at valFits
  refine ⟨(key, value), rest, ⟨keyLength.trans_lt keyFits, valLength.trans_lt valFits⟩, ?_,
    fun panics => read (by rw [panics])⟩
  simp [encodeRecord, keyLength, valLength, leBytes_ofLeBytes four, leBytes_ofLeBytes last]

theorem readRecords_iff : readRecords count data ≠ .error .panic ↔ BeginsWithRecords count data := by
  constructor
  · intro read
    induction count generalizing data with
    | zero => exact ⟨[], rfl, by simp, nil_prefix⟩
    | succ count ih =>
      obtain ⟨record, rest, fits, rfl, later⟩ := exists_record read
      obtain ⟨records, rfl, allFit, front⟩ := ih later
      exact ⟨record :: records, rfl, forall_mem_cons.mpr ⟨fits, allFit⟩,
        (prefix_append_right_inj _).mpr front⟩
  · rintro ⟨records, rfl, fits, rest, rfl⟩ panics
    cases (readRecords_encodeRecords fits).symm.trans panics

end

variable {M : Type} (codec : Codec (SnapshotMeta M)) (digests : Digests) (compressors : Compressors)

namespace SnapshotReader

/-- A block that passes all checks begins with as many records as its header says. -/
def Complete (reader : SnapshotReader) : Prop :=
  ∀ header compressed rest data, reader.rest = header ++ (compressed ++ rest) →
    header.length = chunkHeaderSize →
    ofBeBytes (slice header 0x00 0x04) = chunkHeaderMagic →
    ofBeBytes (slice header 0x08 0x0C) = compressed.length →
    UInt32.ofNat (ofBeBytes (slice header 0x10 0x14)) =
      reader.config.integrity.checksum digests compressed →
    reader.config.compression.decompress compressors compressed
      (some (ofBeBytes (slice header 0x0C 0x10))) = .ok data →
    BeginsWithRecords (ofBeBytes (slice header 0x04 0x08)) data

/-- The readers of a file, from its opening on. A failed call leaves the reader somewhere behind
where it was. -/
inductive Reads (file : Bytes) : SnapshotReader → Prop
  | opened {reader : SnapshotReader} {metadata : SnapshotFileMetadata M} :
    openFile codec digests file = .ok (reader, metadata) → Reads file reader
  | read {reader next : SnapshotReader} {records : List Record} : Reads file reader →
    reader.nextBlock digests compressors = .ok (records, next) → Reads file next
  | failed {reader : SnapshotReader} {error : IoError} {rest : Bytes} : Reads file reader →
    reader.nextBlock digests compressors = .error (.io error) → rest <:+ reader.rest →
    Reads file { reader with rest }

variable {digests compressors} {reader : SnapshotReader}

theorem nextBlock_ne_panic_iff :
    reader.nextBlock digests compressors ≠ .error .panic ↔ reader.Complete digests compressors := by
  constructor
  · intro returns header compressed rest data whole length magic size checksum decompressed
    apply readRecords_iff.mp
    intro panics
    apply returns
    obtain ⟨config, bytes⟩ := reader
    subst whole
    simp only [nextBlock, readExact_append length, magic, size, readExact_append rfl, readChunk,
      checksum, decompressed, panics, ne_eq, not_true_eq_false, if_false]
  · intro complete panics
    rw [nextBlock] at panics
    split at panics
    next => cases panics
    next header rest readHeader =>
      obtain ⟨whole, length⟩ := readExact_eq_ok readHeader
      split at panics
      next => cases panics
      next magic =>
        split at panics
        next => cases panics
        next compressed rest' readData =>
          obtain ⟨rfl, size⟩ := readExact_eq_ok readData
          split at panics
          next => cases panics
          next fault failed =>
            cases panics
            rw [readChunk] at failed
            split at failed
            next => cases failed
            next checksum =>
              split at failed
              next data decompressed =>
                exact readRecords_iff.mpr (complete header compressed rest' data whole length
                  (not_not.mp magic) size.symm (not_not.mp checksum) decompressed) failed
              next => cases failed

/-- Whatever bytes a file has, no call slices out of range exactly if each block that a call
accepts has the records that its header promises. -/
theorem returns_iff_complete (file : Bytes) :
    (∀ reader, Reads codec digests compressors file reader →
        reader.nextBlock digests compressors ≠ .error .panic) ↔
      ∀ reader, Reads codec digests compressors file reader → reader.Complete digests compressors :=
  forall₂_congr fun _ _ => nextBlock_ne_panic_iff

/-- The header of a block without data promises a record. -/
theorem promised_record_sliced :
    let codec := Codec.ofEncodable (SnapshotMeta Unit)
    let digests : Digests := ⟨fun _ => 0, fun _ => 0⟩
    let compressors : Compressors := ⟨fun _ _ => none, fun _ _ _ => .error ""⟩
    ∃ file reader, Reads codec digests compressors file reader ∧
      reader.nextBlock digests compressors = .error .panic := by
  intro codec digests compressors
  let metadata : SnapshotMeta Unit := ⟨none, ⟨none, ()⟩, []⟩
  obtain ⟨found, accepted, config⟩ := readFileMetadata_fileHeader digests
    ⟨.crc32c, .none, .none, 0⟩ (codec.serialize metadata).length
    (codec.deserialize_serialize metadata)
  refine ⟨_, _, .opened (openFile_parts length_fileHeader (by decide +kernel) accepted
    (chunkHeader digests found.config 1 0 [])), ?_⟩
  by_contra returns
  have held := nextBlock_ne_panic_iff.mp returns _ [] [] [] (append_nil _).symm
    length_chunkHeader (chunkHeader_magic rfl) (chunkHeader_compressedSize rfl (by decide))
    (chunkHeader_checksum rfl) (by rw [config]; rfl)
  exact readRecords_iff.mpr held rfl

end SnapshotReader

end Nanograph.Raft
