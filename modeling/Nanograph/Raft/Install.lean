import Nanograph.Raft.SnapshotFile
import Nanograph.Raft.StateStore

/-!
# Snapshots, built and installed

A snapshot that was built and is installed elsewhere brings the whole content of the shard. A
snapshot file that was cut is refused only when the cut is in front of its blocks: the reader
reports the end of the file in the middle of a block as it does behind the last one, and the
installation takes both for the end of the snapshot, after it has cleared the shard.
-/

namespace Nanograph.Raft

open List Foundation Util Kvt SnapshotReader Shard

variable {M : Type} {codecs : StateCodecs M} {digests : Digests} {compressors : Compressors}

namespace ConsensusStateStore

/-- From the beginning of a file the blocks that lie wholly within it are installed. -/
theorem installBlocks_cut {reader : SnapshotReader} {blocks : List (List Record)}
    (readable : SnapshotReader.Blocks digests compressors reader blocks) {cut : Bytes}
    (isCut : cut <+: reader.rest) {fuel : Nat} (enough : cut.length < fuel) (shard : Shard) :
    ∃ whole, (cut = reader.rest → whole = blocks) ∧
      installBlocks digests compressors fuel ⟨reader.config, cut⟩ shard =
        (.ok (), shard.putAll whole.flatten) := by
  obtain ⟨fuel, rfl⟩ : ∃ calls, fuel = calls + 1 := ⟨fuel - 1, by omega⟩
  induction readable generalizing cut fuel shard with
  | done config =>
    obtain rfl := prefix_nil.mp isCut
    exact ⟨[], fun _ => rfl, rfl⟩
  | @block reader next records later read _ ih =>
    obtain ⟨header, compressed, rest, length, magic, size, accepted, config⟩ :=
      nextBlock_eq_ok read
    rw [rest] at isCut ⊢
    by_cases short : cut.length < chunkHeaderSize + compressed.length
    · refine ⟨[], fun same => absurd short ?_, ?_⟩
      · rw [same, length_append, length_append, length]
        omega
      · rw [installBlocks, nextBlock_short length magic size isCut short]
        rfl
    · obtain ⟨part, rfl⟩ : header ++ compressed <+: cut := by
        refine prefix_of_prefix_length_le ?_ isCut ?_
        · rw [← append_assoc]
          exact prefix_append _ _
        · rw [length_append, length]
          omega
      have less : part.length < fuel := by
        rw [length_append, length_append, length] at enough
        have header : 0 < chunkHeaderSize := by decide
        omega
      rw [append_assoc] at isCut ⊢
      have isPart : part <+: next.rest := by
        simpa only [prefix_append_right_inj] using isCut
      obtain ⟨calls, rfl⟩ : ∃ calls, fuel = calls + 1 := ⟨fuel - 1, by omega⟩
      obtain ⟨whole, complete, installed⟩ := ih isPart (shard.putAll records) calls less
      refine ⟨records :: whole, ?_, ?_⟩
      · intro same
        rw [complete (append_cancel_left (append_cancel_left same))]
      · rw [installBlocks, nextBlock_parts length magic size accepted, ← config,
          flatten_cons, putAll, foldl_append]
        exact installed

/-- A file that is opened and of which some blocks are installed. -/
theorem installSnapshot_opened {file : Bytes} {reader : SnapshotReader}
    {found : SnapshotFileMetadata M} {shard : Shard}
    (opened : openFile codecs.snapshotMeta digests file = .ok (reader, found))
    (installed : installBlocks digests compressors (reader.rest.length + 1) reader empty =
      (.ok (), shard)) (store : ConsensusStateStore M) (metadata : SnapshotMeta M) :
    store.installSnapshot codecs digests compressors metadata file = (.ok (), completeInstall codecs
        { store with
          snapshotFiles := Function.update store.snapshotFiles metadata.snapshotId (some file) }
        metadata shard) := by
  rw [installSnapshot, opened]
  simp only [installed]

/-- Besides the entries of the store itself the shard is the one of the snapshot. -/
theorem get_completeInstall (store : ConsensusStateStore M) (metadata : SnapshotMeta M)
    (shard : Shard) {key : Bytes} (notState : key ≠ store.raftStateKey)
    (notMeta : key ≠ store.snapshotMetaKey) :
    (store.completeInstall codecs metadata shard).shardStorage.get key = shard.get key := by
  simp only [completeInstall, saveSnapshotMeta, saveState, get_put]
  exact (if_neg (Ne.symm notMeta)).trans (if_neg (Ne.symm notState))

section

variable {nameOf : Option LogId → List Char} {source : ConsensusStateStore M}

variable (codecs) (digests) (compressors) (nameOf)

/-- A snapshot is built exactly when its file can be opened. -/
theorem buildSnapshot_fst (uncompressed : source.snapshotConfig.compression = .none)
    (short : ShortBlocks
      (blocksOf source.snapshotConfig.blockSize [] source.shardStorage.entries)) :
    (source.buildSnapshot codecs digests compressors nameOf).1 =
      match openFile codecs.snapshotMeta digests
        (fileOf codecs.snapshotMeta digests source.snapshotConfig
          (source.snapshotMetadata nameOf) source.shardStorage.entries) with
      | .ok _ => .ok (source.snapshotMetadata nameOf,
          fileOf codecs.snapshotMeta digests source.snapshotConfig
            (source.snapshotMetadata nameOf) source.shardStorage.entries)
      | .error _ => .error .other := by
  obtain ⟨writer, written, finished⟩ := writeAll_new codecs.snapshotMeta digests
    (source.snapshotMetadata nameOf) compressors uncompressed short
  simp only [buildSnapshot, writeSnapshot, written, bind, Except.bind, finished]
  split <;> simp_all

variable {codecs} {digests} {compressors} {nameOf}

/-- Building a snapshot leaves every key of the shard but the one of its metadata. -/
theorem get_buildSnapshot {key : Bytes} (notMeta : key ≠ source.snapshotMetaKey) :
    (source.buildSnapshot codecs digests compressors nameOf).2.shardStorage.get key =
      source.shardStorage.get key := by
  rw [buildSnapshot]
  split
  next => rfl
  next =>
    split
    next => rfl
    next =>
      simp only [saveSnapshotMeta, get_put]
      split <;> exact if_neg (Ne.symm notMeta)

/-- A snapshot of a shard, written without compression in blocks of less than 2 ^ 32 bytes, is
built whenever the length of its metadata fits into its header, and brings the content of the
shard to every store it is installed on. -/
theorem installed_as_built (codecs : StateCodecs M) (delimited : codecs.snapshotMeta.Delimited)
    (digests : Digests) (compressors : Compressors) (nameOf : Option LogId → List Char)
    (source target : ConsensusStateStore M) (sameShard : target.shardId = source.shardId)
    (uncompressed : source.snapshotConfig.compression = .none)
    (short : ShortBlocks
      (blocksOf source.snapshotConfig.blockSize [] source.shardStorage.entries)) :
    ((codecs.snapshotMeta.serialize (source.snapshotMetadata nameOf)).length < 2 ^ 32 →
      ∃ file, (source.buildSnapshot codecs digests compressors nameOf).1 =
        .ok (source.snapshotMetadata nameOf, file)) ∧
    ∀ metadata file,
      (source.buildSnapshot codecs digests compressors nameOf).1 = .ok (metadata, file) →
        (target.installSnapshot codecs digests compressors metadata file).1 = .ok () ∧
        (∀ key, key ≠ source.raftStateKey → key ≠ source.snapshotMetaKey →
          (target.installSnapshot codecs digests compressors metadata file).2.shardStorage.get key =
            (source.buildSnapshot codecs digests compressors nameOf).2.shardStorage.get key) ∧
        (target.installSnapshot codecs digests compressors metadata file).2.appliedState =
          (metadata.lastLogId, metadata.lastMembership) := by
  have built := buildSnapshot_fst codecs digests compressors nameOf uncompressed short
  by_cases fits : (codecs.snapshotMeta.serialize (source.snapshotMetadata nameOf)).length < 2 ^ 32
  · obtain ⟨found, opened⟩ := openFile_fileOf digests source.snapshotConfig
      source.shardStorage.entries fits
    rw [opened] at built
    refine ⟨fun _ => ⟨_, built⟩, ?_⟩
    intro metadata file same
    obtain ⟨rfl, rfl⟩ := Prod.mk.inj (Except.ok.inj (built.symm.trans same))
    have readable := blocks_chunks digests source.snapshotConfig compressors uncompressed short
    obtain ⟨whole, complete, installed⟩ :=
      installBlocks_cut readable prefix_rfl (Nat.lt_succ_self _) empty
    rw [complete rfl, flatten_blocksOf, nil_append, putAll_entries] at installed
    rw [installSnapshot_opened opened installed]
    refine ⟨rfl, ?_, rfl⟩
    intro key notState notMeta
    rw [get_buildSnapshot notMeta]
    apply get_completeInstall
    · rwa [raftStateKey, sameShard]
    · rwa [snapshotMetaKey, sameShard]
  · obtain ⟨error, failed⟩ := openFile_fileOf_long digests source.snapshotConfig
      source.shardStorage.entries delimited fits
    rw [failed] at built
    refine ⟨fun small => absurd small fits, ?_⟩
    intro metadata file same
    cases built.symm.trans same

/-- Codecs, digests and compressors for stores without members. -/
def unitCodecs : StateCodecs Unit := ⟨Codec.ofEncodable _, fun _ => [], fun _ => []⟩

def zeroDigests : Digests := ⟨fun _ => 0, fun _ => 0⟩

def noCompressors : Compressors := ⟨fun _ _ => none, fun _ _ _ => .error ""⟩

/-- A shard with one entry, taken over by a store that had another one. -/
theorem one_entry_installed :
    ∃ metadata file, ((new ⟨7⟩ (empty.put [1] [2]) ⟨.crc32c, .none, .none, 0⟩ :
          ConsensusStateStore Unit).buildSnapshot
        unitCodecs zeroDigests noCompressors fun _ => []).1 = .ok (metadata, file) ∧
      ((new ⟨7⟩ (empty.put [3] [4]) ⟨.none, .none, .none, 9⟩ :
          ConsensusStateStore Unit).installSnapshot
        unitCodecs zeroDigests noCompressors metadata file).1 = .ok () := by
  have both := installed_as_built unitCodecs (Codec.delimited_ofEncodable _) zeroDigests
    noCompressors (fun _ => [])
    (new ⟨7⟩ (empty.put [1] [2]) ⟨.crc32c, .none, .none, 0⟩ : ConsensusStateStore Unit)
    (new ⟨7⟩ (empty.put [3] [4]) ⟨.none, .none, .none, 9⟩) rfl rfl
    (by unfold ShortBlocks; decide)
  obtain ⟨file, built⟩ := both.1 (by decide +kernel)
  exact ⟨_, file, built, (both.2 _ file built).1⟩

end

/-- An installation that failed and left the data and the applied state as they were. -/
structure Refused (before : ConsensusStateStore M)
    (result : Except Fault Unit × ConsensusStateStore M) : Prop where
  error : ∃ fault, result.1 = .error fault
  shard : ∀ key, result.2.shardStorage.get key = before.shardStorage.get key
  applied : result.2.appliedState = before.appliedState

/-- The beginning of a snapshot file that is read to its end is refused exactly when it ends in
front of the blocks. -/
theorem cut_refused_iff (codecs : StateCodecs M) (digests : Digests) (compressors : Compressors)
    {file cut : Bytes} {reader : SnapshotReader}
    {found : SnapshotFileMetadata M} {blocks : List (List Record)}
    (opened : openFile codecs.snapshotMeta digests file = .ok (reader, found))
    (readable : SnapshotReader.Blocks digests compressors reader blocks) (isCut : cut <+: file)
    (store : ConsensusStateStore M) (metadata : SnapshotMeta M) :
    Refused store (store.installSnapshot codecs digests compressors metadata cut) ↔
      cut.length < metadataEnd file := by
  obtain ⟨header, metaBytes, rfl, length, checked, accepted, config⟩ :=
    openFile_eq_ok opened
  rw [metadataEnd_parts length checked]
  constructor
  · intro refused
    by_contra long
    obtain ⟨part, rfl⟩ : header ++ metaBytes <+: cut := by
      refine prefix_of_prefix_length_le ?_ isCut ?_
      · rw [← append_assoc]
        exact prefix_append _ _
      · rw [length_append, length]
        omega
    rw [append_assoc] at isCut refused
    have isPart : part <+: reader.rest := by
      simpa only [prefix_append_right_inj] using isCut
    obtain ⟨whole, -, installed⟩ :=
      installBlocks_cut readable isPart (Nat.lt_succ_self _) empty
    rw [config] at installed
    have cutOpened := openFile_parts length checked accepted part
    obtain ⟨fault, failed⟩ := refused.error
    rw [installSnapshot_opened cutOpened installed] at failed
    cases failed
  · intro short
    have failed := openFile_short codecs.snapshotMeta digests length checked
      isCut short
    rw [installSnapshot, failed]
    exact ⟨⟨_, rfl⟩, fun _ => rfl, rfl⟩

section

variable (codecs digests compressors)

section

variable {metadata : SnapshotMeta M}
  (fits : (codecs.snapshotMeta.serialize metadata).length < 2 ^ 32)

include fits

/-- A snapshot with one record can be read to its end. -/
theorem one_record_readable :
    ∃ reader found, openFile codecs.snapshotMeta digests
        (fileOf codecs.snapshotMeta digests ⟨.crc32c, .none, .none, 0⟩ metadata [([1], [2])]) =
          .ok (reader, found) ∧
      SnapshotReader.Blocks digests compressors reader [[([1], [2])]] := by
  obtain ⟨found, opened⟩ := openFile_fileOf digests ⟨.crc32c, .none, .none, 0⟩ [([1], [2])] fits
  have short : ShortBlocks [[([1], [2])]] := by
    unfold ShortBlocks
    decide
  exact ⟨_, found, opened, blocks_chunks digests ⟨.crc32c, .none, .none, 0⟩ compressors rfl short⟩

/-- Cut behind its metadata it is installed without the record. -/
theorem one_record_lost (store : ConsensusStateStore M) :
    ∃ cut,
      cut <+: fileOf codecs.snapshotMeta digests ⟨.crc32c, .none, .none, 0⟩ metadata [([1], [2])] ∧
      cut ≠ fileOf codecs.snapshotMeta digests ⟨.crc32c, .none, .none, 0⟩ metadata [([1], [2])] ∧
      (store.installSnapshot codecs digests compressors metadata cut).1 = .ok () := by
  obtain ⟨found, opened⟩ := openFile_fileOf digests ⟨.crc32c, .none, .none, 0⟩ [] fits
  refine ⟨fileOf codecs.snapshotMeta digests ⟨.crc32c, .none, .none, 0⟩ metadata [],
    by simp [fileOf, blocksOf], ?_, ?_⟩
  · intro same
    have lengths := congrArg List.length same
    simp [fileOf, blocksOf, encodeRecords, chunkOf, chunkHeaderSize] at lengths
  · rw [installSnapshot_opened opened rfl]

end

end

/-- A file with one record, cut inside its metadata, is refused by a store with an entry. -/
theorem cut_metadata_refused :
    let store : ConsensusStateStore Unit := new ⟨7⟩ (empty.put [3] [4]) ⟨.crc32c, .none, .none, 0⟩
    let metadata : SnapshotMeta Unit := ⟨none, ⟨none, ()⟩, []⟩
    let file := fileOf unitCodecs.snapshotMeta zeroDigests store.snapshotConfig metadata [([1], [2])]
    fileHeaderSize < (file.take 102).length ∧ Refused store
      (store.installSnapshot unitCodecs zeroDigests noCompressors metadata (file.take 102)) := by
  intro store metadata file
  obtain ⟨reader, found, opened, readable⟩ := one_record_readable unitCodecs zeroDigests
    noCompressors (show (unitCodecs.snapshotMeta.serialize metadata).length < 2 ^ 32 by
      decide +kernel)
  have isCut := take_prefix 102 file
  exact ⟨by decide +kernel,
    (cut_refused_iff _ _ _ opened readable isCut _ _).mpr (by decide +kernel)⟩

/-- A snapshot with one record, cut behind its metadata, is installed. -/
theorem cut_installed_without_record :
    ∃ file cut reader found, openFile unitCodecs.snapshotMeta zeroDigests
        file = .ok (reader, found) ∧
      SnapshotReader.Blocks zeroDigests noCompressors
        reader [[([1], [2])]] ∧
      cut <+: file ∧ cut ≠ file ∧
      ¬ Refused (new ⟨7⟩ empty ⟨.crc32c, .none, .none, 0⟩ : ConsensusStateStore Unit)
        ((new ⟨7⟩ empty ⟨.crc32c, .none, .none, 0⟩ : ConsensusStateStore Unit).installSnapshot
          unitCodecs zeroDigests
          noCompressors ⟨none, ⟨none, ()⟩, []⟩ cut) := by
  have fits : (unitCodecs.snapshotMeta.serialize
      ⟨none, ⟨none, ()⟩, []⟩).length < 2 ^ 32 := by decide +kernel
  obtain ⟨reader, found, opened, readable⟩ := one_record_readable
    unitCodecs zeroDigests
    noCompressors fits
  obtain ⟨cut, isCut, strict, installed⟩ := one_record_lost
    unitCodecs zeroDigests
    noCompressors fits
    (new ⟨7⟩ empty ⟨.crc32c, .none, .none, 0⟩)
  refine ⟨_, cut, reader, found, opened, readable, isCut, strict, ?_⟩
  rintro ⟨⟨fault, failed⟩, -, -⟩
  cases installed.symm.trans failed

end ConsensusStateStore

end Nanograph.Raft
