import Nanograph.Foundation.LittleEndian
import Nanograph.Foundation.Machine
import Nanograph.Util.Algorithms

/-!
# The blob log

The records of `nanograph-lsm/src/bloblog.rs` and the metadata that it keeps of its blob files. The
numbers of live blobs and of their bytes are counted up by a write and down by every reference that
is marked dead, whether it was live or not. The module says when they are what is live.
-/

namespace Nanograph.Lsm

open List Function Foundation Util

/-- Reference to a blob in a blob file. -/
structure BlobRef where
  fileId : Nat
  offset : Nat
  length : UInt32
deriving DecidableEq

structure BlobFileMetadata where
  fileSize : Nat
  blobCount : Nat
  liveBlobCount : Nat
  liveDataSize : Nat
deriving DecidableEq

/-- Blob record as it is stored in a blob file. -/
structure BlobRecord where
  key : Bytes
  value : Bytes

/-- The size of a record when it is encoded, with its header and its checksum. -/
def BlobRecord.encodedSize (record : BlobRecord) : Nat :=
  12 + record.key.length + record.value.length + 4

/-- Why a blob record is not read. -/
inductive BlobError where
  | tooShort
  | crcMismatch (stored calculated : UInt32)
  | invalidMagic (magic : Nat)
  | lengthMismatch

def blobMagic : Nat := 0x424C4F42

namespace BlobRecord

/-- What is written of a record in front of its checksum. -/
def body (record : BlobRecord) : Bytes :=
  leBytes 4 blobMagic ++ (leBytes 4 record.key.length ++ (leBytes 4 record.value.length ++
    (record.key ++ record.value)))

def encode (digests : Digests) (record : BlobRecord) : Bytes :=
  record.body ++ leBytes 4 (digests.crc record.body).toNat

def decode (digests : Digests) (data : Bytes) : Except BlobError BlobRecord :=
  if data.length < 12 + 4 then .error .tooShort
  else
    let body := data.take (data.length - 4)
    let stored := UInt32.ofNat (ofLeBytes (data.drop (data.length - 4)))
    let magic := ofLeBytes (body.take 4)
    let keyLen := ofLeBytes ((body.drop 4).take 4)
    let valueLen := ofLeBytes ((body.drop 8).take 4)
    if digests.crc body ≠ stored then .error (.crcMismatch stored (digests.crc body))
    else if magic ≠ blobMagic then .error (.invalidMagic magic)
    else if body.length ≠ 12 + keyLen + valueLen then .error .lengthMismatch
    else .ok ⟨(body.drop 12).take keyLen, (body.drop 12).drop keyLen⟩

/-- A buffer is read as a record if and only if the record is written so and its lengths fit. -/
theorem decode_eq_ok_iff (digests : Digests) (data : Bytes) (record : BlobRecord) :
    decode digests data = .ok record ↔ record.encode digests = data ∧
      record.key.length < 2 ^ 32 ∧ record.value.length < 2 ^ 32 := by
  constructor
  · intro decoded
    rw [decode] at decoded
    split_ifs at decoded with short
    dsimp only at decoded
    split_ifs at decoded with damaged otherMagic otherLength
    rw [not_not] at damaged otherMagic otherLength
    have parts := take_append_drop (data.length - 4) data
    have footerLength : (data.drop (data.length - 4)).length = 4 := by simp; omega
    have long : 12 ≤ (data.take (data.length - 4)).length := by simp; omega
    generalize data.drop (data.length - 4) = footer at *
    generalize data.take (data.length - 4) = body at *
    have field {bytes : Bytes} (length : bytes.length = 4) :
        ofLeBytes bytes < 2 ^ 32 ∧ leBytes 4 (ofLeBytes bytes) = bytes :=
      ⟨(ofLeBytes_lt bytes).trans_eq (by rw [length]; rfl), leBytes_ofLeBytes length⟩
    obtain ⟨-, magic⟩ := field (show (body.take 4).length = 4 by simp; omega)
    obtain ⟨keyFits, key⟩ := field (show ((body.drop 4).take 4).length = 4 by simp; omega)
    obtain ⟨valueFits, value⟩ := field (show ((body.drop 8).take 4).length = 4 by simp; omega)
    obtain ⟨crcFits, crc⟩ := field footerLength
    rw [otherMagic] at magic
    generalize ofLeBytes ((body.drop 4).take 4) = keyLen at *
    generalize ofLeBytes ((body.drop 8).take 4) = valueLen at *
    cases decoded
    have keyLength : ((body.drop 12).take keyLen).length = keyLen := by simp; omega
    have valueLength : ((body.drop 12).drop keyLen).length = valueLen := by simp; omega
    refine ⟨?_, keyLength.trans_lt keyFits, valueLength.trans_lt valueFits⟩
    have same : BlobRecord.body ⟨(body.drop 12).take keyLen, (body.drop 12).drop keyLen⟩ = body := by
      rw [BlobRecord.body, keyLength, valueLength, magic, key, value, take_append_drop,
        ← drop_drop (i := 4) (j := 8), take_append_drop, ← drop_drop (i := 4) (j := 4)]
      simp only [take_append_drop]
    rw [encode, same, damaged, UInt32.toNat_ofNat', Nat.mod_eq_of_lt crcFits, crc, parts]
  · rintro ⟨rfl, keyFits, valueFits⟩
    have field {number : Nat} (fits : number < 2 ^ 32) : ofLeBytes (leBytes 4 number) = number :=
      ofLeBytes_leBytes_of_lt fits
    have length : record.body.length = 12 + record.key.length + record.value.length := by
      simp [body]
      omega
    have first : record.body.take 4 = leBytes 4 blobMagic := take_left' (length_leBytes _ _)
    have second : record.body.drop 4 = _ := drop_left' (length_leBytes _ _)
    have third : record.body.drop 8 =
        leBytes 4 record.value.length ++ (record.key ++ record.value) := by
      rw [← drop_drop (i := 4) (j := 4), second, drop_left' (length_leBytes _ _)]
    have rest : record.body.drop 12 = record.key ++ record.value := by
      rw [← drop_drop (i := 4) (j := 8), third, drop_left' (length_leBytes _ _)]
    rw [decode, encode, if_neg (by simp [length]; omega)]
    simp only [length_append, length_leBytes, Nat.add_sub_cancel, take_left, drop_left, first, second,
      third, rest, take_left' (length_leBytes _ _), field keyFits, field valueFits,
      field (UInt32.toNat_lt _)]
    simp [length]
    decide

end BlobRecord

/-- Manager of the blob files. -/
structure BlobLog where
  fileMetadata : Nat → Option BlobFileMetadata
  liveRefs : Finset (Nat × Nat)

namespace BlobLog

def new : BlobLog := ⟨fun _ => none, ∅⟩

/-- Write a blob record where the writer stands and return the reference to it. -/
def writeBlob (log : BlobLog) (fileId offset : Nat) (record : BlobRecord) : BlobRef × BlobLog :=
  let fileMeta := (log.fileMetadata fileId).getD ⟨0, 0, 0, 0⟩
  (⟨fileId, offset, UInt32.ofNat record.encodedSize⟩,
    { fileMetadata := update log.fileMetadata fileId (some
        { fileSize := fileMeta.fileSize + record.encodedSize
          blobCount := fileMeta.blobCount + 1
          liveBlobCount := fileMeta.liveBlobCount + 1
          liveDataSize := fileMeta.liveDataSize + record.encodedSize })
      liveRefs := insert (fileId, offset) log.liveRefs })

/-- Mark a reference as no longer live. -/
def markDead (log : BlobLog) (blobRef : BlobRef) : BlobLog where
  fileMetadata := update log.fileMetadata blobRef.fileId
    ((log.fileMetadata blobRef.fileId).map fun fileMeta => { fileMeta with
      liveBlobCount := fileMeta.liveBlobCount - 1
      liveDataSize := fileMeta.liveDataSize - blobRef.length.toNat })
  liveRefs := log.liveRefs.erase (blobRef.fileId, blobRef.offset)

/-- Remove the metadata of a deleted file. -/
def removeFile (log : BlobLog) (fileId : Nat) : BlobLog where
  fileMetadata := update log.fileMetadata fileId none
  liveRefs := log.liveRefs.filter (·.1 ≠ fileId)

end BlobLog

/-- A record that was written to a file. -/
structure Blob where
  fileId : Nat
  offset : Nat
  record : BlobRecord

/-- A blob log with the blobs that were written to its files and not yet marked dead. -/
structure BlobRun where
  log : BlobLog
  live : List Blob

/-- The calls on a blob log. -/
inductive BlobOp where
  | writeBlob (fileId offset : Nat) (record : BlobRecord)
  | markDead (blobRef : BlobRef)
  | removeFile (fileId : Nat)

namespace BlobRun

def start : BlobRun := ⟨.new, []⟩

def step : Machine BlobRun BlobOp (Option BlobRef)
  | run, .writeBlob fileId offset record =>
    let written := run.log.writeBlob fileId offset record
    (some written.1, ⟨written.2, ⟨fileId, offset, record⟩ :: run.live⟩)
  | run, .markDead blobRef =>
    (none, ⟨run.log.markDead blobRef, run.live.filter fun blob =>
      ¬(blob.fileId = blobRef.fileId ∧ blob.offset = blobRef.offset)⟩)
  | run, .removeFile fileId =>
    (none, ⟨run.log.removeFile fileId, run.live.filter (·.fileId ≠ fileId)⟩)

def liveIn (run : BlobRun) (fileId : Nat) : List Blob := run.live.filter (·.fileId = fileId)

def totalSize (blobs : List Blob) : Nat := (blobs.map (·.record.encodedSize)).sum

/-- The metadata of every file counts its live blobs and their bytes. -/
def Accurate (run : BlobRun) : Prop :=
  ∀ fileId fileMeta, run.log.fileMetadata fileId = some fileMeta →
    fileMeta.liveBlobCount = (run.liveIn fileId).length ∧
      fileMeta.liveDataSize = totalSize (run.liveIn fileId)

/-- A reference that is marked dead is that of exactly one live blob and has its length, unless
nothing is live in its file or nothing else is and the length is too great. -/
def Meets (run : BlobRun) : BlobOp → Prop
  | .markDead blobRef =>
    run.log.fileMetadata blobRef.fileId = none ∨ run.liveIn blobRef.fileId = [] ∨
      ∃ blob, (run.liveIn blobRef.fileId).filter (·.offset = blobRef.offset) = [blob] ∧
        (blob.record.encodedSize = blobRef.length.toNat ∨
          run.liveIn blobRef.fileId = [blob] ∧ blob.record.encodedSize ≤ blobRef.length.toNat)
  | .writeBlob .. | .removeFile _ => True

theorem totalSize_eq_zero {blobs : List Blob} (empty : totalSize blobs = 0) : blobs = [] := by
  cases blobs with
  | nil => rfl
  | cons blob rest =>
    simp only [totalSize, map_cons, sum_cons, BlobRecord.encodedSize] at empty
    omega

/-- Counting down by one and by a length is right exactly for one blob of that length, or when
nothing is left to count. -/
theorem counted_iff (blobs : List Blob) (dead : Blob → Bool) (length : Nat) :
    (blobs.length - 1 = (blobs.filter (!dead ·)).length ∧
        totalSize blobs - length = totalSize (blobs.filter (!dead ·))) ↔
      blobs = [] ∨ ∃ blob, blobs.filter dead = [blob] ∧ (blob.record.encodedSize = length ∨
          blobs = [blob] ∧ blob.record.encodedSize ≤ length) := by
  have parts := filter_append_perm dead blobs
  have lengths := parts.length_eq
  have sizes : totalSize (blobs.filter dead) + totalSize (blobs.filter (!dead ·)) =
      totalSize blobs := by
    have sums := (parts.map (·.record.encodedSize)).sum_eq
    rwa [map_append, sum_append] at sums
  have single (blob : Blob) : totalSize [blob] = blob.record.encodedSize := by simp [totalSize]
  rw [length_append] at lengths
  constructor
  · rintro ⟨count, size⟩
    refine or_iff_not_imp_left.mpr fun nonempty => ?_
    have positive := length_pos_iff.mpr nonempty
    obtain ⟨blob, isDead⟩ := length_eq_one_iff.mp
      (show (blobs.filter dead).length = 1 by omega)
    refine ⟨blob, isDead, or_iff_not_imp_left.mpr fun different => ?_⟩
    rw [isDead, single] at sizes
    -- The counter was cut off at zero, so nothing else is live.
    have others : blobs.filter (!dead ·) = [] := totalSize_eq_zero (by omega)
    rw [isDead, others, append_nil] at parts
    exact ⟨(singleton_perm.mp parts).symm, by omega⟩
  · rintro (rfl | ⟨blob, isDead, same | ⟨rfl, most⟩⟩)
    · simp [totalSize]
    · rw [isDead, single] at sizes
      rw [isDead, length_singleton] at lengths
      omega
    · rw [isDead] at lengths
      have others := eq_nil_of_length_eq_zero (Nat.add_left_cancel lengths)
      simpa [others, single, totalSize] using Nat.sub_eq_zero_of_le most

section

variable (run : BlobRun) (other : Nat)

theorem liveIn_writeBlob (fileId offset : Nat) (record : BlobRecord) :
    (step run (.writeBlob fileId offset record)).2.liveIn other =
      if other = fileId then ⟨fileId, offset, record⟩ :: run.liveIn other
      else run.liveIn other := by
  by_cases same : fileId = other
  · simp [step, liveIn, same]
  · simp [step, liveIn, same, Ne.symm same]

theorem liveIn_markDead (blobRef : BlobRef) :
    (step run (.markDead blobRef)).2.liveIn other = if other = blobRef.fileId then
        (run.liveIn other).filter fun blob => !decide (blob.offset = blobRef.offset)
      else run.liveIn other := by
  simp only [step, liveIn, filter_filter]
  split <;> refine filter_congr fun blob _ => ?_ <;> grind

theorem liveIn_removeFile (fileId : Nat) :
    (step run (.removeFile fileId)).2.liveIn other =
      if other = fileId then [] else run.liveIn other := by
  simp only [step, liveIn, filter_filter]
  split
  · exact filter_eq_nil_iff.mpr fun blob _ => by grind
  · exact filter_congr fun blob _ => by grind

variable {run}

/-- Files without metadata have no live blobs. -/
def Recorded (run : BlobRun) : Prop :=
  ∀ fileId, run.log.fileMetadata fileId = none → run.liveIn fileId = []

theorem Recorded.step (recorded : run.Recorded) (op : BlobOp) :
    (BlobRun.step run op).2.Recorded := by
  intro other missing
  cases op with
  | writeBlob fileId offset record =>
    simp only [BlobRun.step, BlobLog.writeBlob, update_apply] at missing
    rw [liveIn_writeBlob]
    grind [Recorded]
  | markDead blobRef =>
    simp only [BlobRun.step, BlobLog.markDead, update_apply] at missing
    have unknown : run.log.fileMetadata other = none := by
      split at missing
      next same => exact same ▸ Option.map_eq_none_iff.mp missing
      next => exact missing
    simp [liveIn_markDead, recorded other unknown]
  | removeFile fileId =>
    simp only [BlobRun.step, BlobLog.removeFile, update_apply] at missing
    rw [liveIn_removeFile]
    grind [Recorded]

/-- A call keeps the counters accurate if and only if it meets the condition. -/
theorem Accurate.step_iff (accurate : run.Accurate) (recorded : run.Recorded) (op : BlobOp) :
    (BlobRun.step run op).2.Accurate ↔ run.Meets op := by
  cases op with
  | writeBlob fileId offset record =>
    refine iff_of_true (fun other fileMeta found => ?_) trivial
    simp only [BlobRun.step, BlobLog.writeBlob, update_apply] at found
    rw [liveIn_writeBlob]
    split at found
    next same =>
      obtain rfl := Option.some.inj found
      cases present : run.log.fileMetadata fileId with
      | none => simp [same, recorded fileId present, totalSize]
      | some old => simp [same, accurate fileId old present, totalSize, Nat.add_comm]
    next different =>
      rw [if_neg different]
      exact accurate other fileMeta found
  | markDead blobRef =>
    have others {other : Nat} {fileMeta : BlobFileMetadata} (different : other ≠ blobRef.fileId)
        (found : (BlobRun.step run (.markDead blobRef)).2.log.fileMetadata other = some fileMeta) :
        fileMeta.liveBlobCount = (run.liveIn other).length ∧
          fileMeta.liveDataSize = totalSize (run.liveIn other) :=
      accurate other fileMeta ((update_of_ne different ..).symm.trans found)
    have own : (BlobRun.step run (.markDead blobRef)).2.log.fileMetadata blobRef.fileId = _ :=
      update_self ..
    cases present : run.log.fileMetadata blobRef.fileId with
    | none =>
      refine iff_of_true (fun other fileMeta found => ?_) (.inl present)
      rw [liveIn_markDead]
      split
      next same =>
        rw [same, own, present] at found
        cases found
      next different => exact others different found
    | some old =>
      obtain ⟨count, size⟩ := accurate _ _ present
      have counted := counted_iff (run.liveIn blobRef.fileId)
        (fun blob => decide (blob.offset = blobRef.offset)) blobRef.length.toNat
      rw [← count, ← size] at counted
      simp only [Meets, present, reduceCtorEq, false_or]
      rw [← counted]
      rw [present] at own
      constructor
      · intro next
        have here := next _ _ own
        rwa [liveIn_markDead, if_pos rfl] at here
      · intro here other fileMeta found
        rw [liveIn_markDead]
        split
        next same =>
          rw [same, own] at found
          obtain rfl := Option.some.inj found
          rw [same]
          exact here
        next different => exact others different found
  | removeFile fileId =>
    refine iff_of_true (fun other fileMeta found => ?_) trivial
    simp only [BlobRun.step, BlobLog.removeFile, update_apply] at found
    rw [liveIn_removeFile]
    split at found
    next => cases found
    next different =>
      rw [if_neg different]
      exact accurate other fileMeta found

end

/-- In every run the counters are accurate in every state if and only if every call meets the
condition. -/
theorem accurate_along_iff (ops : List BlobOp) :
    step.Along Meets start ops ↔ ∀ earlier, earlier <+: ops → (step.final start earlier).Accurate :=
  Machine.along_iff_prefixes (fun run => run.Accurate ∧ run.Recorded) Accurate
    (fun _ both => both.1)
    (fun _ op both meets => ⟨(both.1.step_iff both.2 op).mpr meets, both.2.step op⟩)
    (fun _ op both => (both.1.step_iff both.2 op).mp)
    ⟨nofun, fun _ _ => rfl⟩

/-- A reference that is marked dead twice counts another blob as dead. -/
theorem marked_twice_not_accurate :
    ¬∀ earlier, earlier <+: [.writeBlob 0 0 ⟨[1], [5]⟩, .writeBlob 0 18 ⟨[2], [6]⟩,
        .markDead ⟨0, 0, 18⟩, .markDead ⟨0, 0, 18⟩] →
      (step.final start earlier).Accurate := by
  intro accurate
  have counted := (accurate _ prefix_rfl 0 ⟨36, 2, 0, 0⟩ (by decide)).1
  revert counted
  decide

end BlobRun

end Nanograph.Lsm
