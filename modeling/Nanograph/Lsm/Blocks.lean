import Nanograph.Foundation.Effect
import Nanograph.Foundation.Iteration
import Nanograph.Lsm.BlobLog

/-!
# The blocks of a table file

How `nanograph-lsm/src/sstable.rs` reads data blocks and index blocks. The lengths in a block are
taken from its bytes and used without a look at how many bytes are left, so a block with a valid
checksum can make the decoder slice out of range. The module says for which bytes it does.
-/

namespace Nanograph.Lsm

open List Foundation Util

/-- What is wrong with the bytes of a block. -/
inductive BlockError where
  /-- Says "Block data too short" or "Index block data too short". -/
  | tooShort
  /-- Says "CRC32 mismatch" with the stored checksum and the calculated one. -/
  | crcMismatch (stored calculated : UInt32)
  /-- Says "Invalid compression algorithm". -/
  | invalidCompression (compressionByte : UInt8)
  | decompression (message : String)
  /-- Says "Invalid block data". -/
  | invalidBlock
  /-- Says "Varint too large". -/
  | varintTooLarge
  /-- Says "Incomplete varint". -/
  | incompleteVarint
  /-- Says "Insufficient data for blob reference". -/
  | blobReferenceCut
  /-- Says "Invalid value type". -/
  | invalidValueType (valueType : UInt8)
deriving DecidableEq

/-- How a decoder ends without a block. -/
inductive BlockFault where
  | error (error : BlockError)
  /-- A slice or an index is out of range, or a length is negative. -/
  | outOfRange
  | endless
deriving DecidableEq

/-- The decoder returns, with a block or with an error. -/
def Returns {α : Type} : Except BlockFault α → Prop
  | .ok _ | .error (.error _) => True
  | .error .outOfRange | .error .endless => False

def sliceOf (data : Bytes) (start stop : Nat) : Except BlockFault Bytes :=
  if start ≤ stop ∧ stop ≤ data.length then .ok ((data.take stop).drop start)
  else .error .outOfRange

def byteAt (data : Bytes) (index : Nat) : Except BlockFault UInt8 :=
  match data[index]? with
  | some byte => .ok byte
  | none => .error .outOfRange

/-- The loop over the bytes of a varint, behind some that were read. -/
def readVarintFrom (result : UInt64) (shift bytesRead : Nat) :
    Bytes → Except BlockFault (UInt64 × Nat)
  | [] => .error (.error .incompleteVarint)
  | byte :: rest =>
    let result := result ||| ((byte &&& 0x7F).toUInt64 <<< UInt64.ofNat shift)
    if byte &&& 0x80 = 0 then .ok (result, bytesRead + 1)
    else if shift + 7 ≥ 64 then .error (.error .varintTooLarge)
    else readVarintFrom result (shift + 7) (bytesRead + 1) rest

/-- Read a varint at a position, with the position behind it. -/
def readVarint (data : Bytes) (cursor : Nat) : Except BlockFault (Nat × Nat) := do
  let rest ← sliceOf data cursor data.length
  let (value, bytesRead) ← readVarintFrom 0 0 0 rest
  pure (value.toNat, cursor + bytesRead)

/-- The numbers in front of an entry. -/
structure EntryHeader where
  sharedLen : Nat
  unsharedLen : Nat
  valueLen : Nat
  sequence : Nat

/-- Where the value of an entry is. -/
inductive ValueLocation where
  | inline (value : Bytes)
  | blob (blobRef : BlobRef)
deriving DecidableEq

/-- An entry of a data block. -/
structure BlockEntry where
  key : Bytes
  value : Option ValueLocation
  sequence : Nat
deriving DecidableEq

/-- Location of a data block. -/
structure BlockHandle where
  offset : Nat
  size : Nat
deriving DecidableEq

structure DataBlock where
  entries : List BlockEntry
  restartPoints : List Nat
deriving DecidableEq

/-- Index block: the last key of each data block and its location. -/
structure IndexBlock where
  entries : List (Bytes × BlockHandle)
deriving DecidableEq

/-- Split the checksum off and verify it. -/
def checkedBody (digests : Digests) (least : Nat) (data : Bytes) : Except BlockError Bytes :=
  if data.length < least then .error .tooShort
  else
    let body := data.take (data.length - 4)
    let stored := UInt32.ofNat (ofLeBytes (data.drop (data.length - 4)))
    if digests.crc body ≠ stored then .error (.crcMismatch stored (digests.crc body)) else .ok body

/-- Read entries up to a position. The state is the position and the key of the entry before. -/
def entriesUpTo {α : Type} (stop : Nat) (read : Nat × Bytes → Except BlockFault (α × Nat))
    (keyOf : α → Bytes) : Iterator (Nat × Bytes) α BlockFault := fun state => do
  if state.1 < stop then
    let (entry, cursor) ← read state
    pure (some (entry, cursor, keyOf entry))
  else pure none

namespace DataBlock

/-- The bytes of the entries and the restart points, behind the checks in front of them. -/
def uncompressed (digests : Digests) (compressors : Compressors) (data : Bytes) :
    Except BlockError Bytes := do
  let body ← checkedBody digests 5 data
  let block ← match body.head?.bind CompressionAlgorithm.fromU8 with
    | none => .error (.invalidCompression (body.headD 0))
    | some compression =>
      (compression.decompress compressors body.tail none).mapError .decompression
  if block.length < 4 then .error .invalidBlock else .ok block

/-- The number of restart points. -/
def restartCount (block : Bytes) : Nat := ofLeBytes (block.drop (block.length - 4))

/-- Where the restart points begin. -/
def restartOffset (block : Bytes) : Nat := block.length - 4 - restartCount block * 4

/-- Read the restart points. If there is no room for them, the difference is negative, or the
first slice is out of range where it wraps around. -/
def readRestarts (block : Bytes) : Except BlockFault (List Nat) :=
  if block.length < 4 + restartCount block * 4 then .error .outOfRange
  else (List.range (restartCount block)).mapM fun i => do
    let point ← sliceOf block (restartOffset block + i * 4) (restartOffset block + i * 4 + 4)
    pure (ofLeBytes point)

/-- Read the numbers in front of an entry. -/
def readHeader (block : Bytes) (cursor : Nat) : Except BlockFault (EntryHeader × Nat) := do
  let (sharedLen, cursor) ← readVarint block cursor
  let (unsharedLen, cursor) ← readVarint block cursor
  let (valueLen, cursor) ← readVarint block cursor
  let (sequence, cursor) ← readVarint block cursor
  pure (⟨sharedLen, unsharedLen, valueLen, sequence⟩, cursor)

/-- Read a value, a blob reference or a tombstone. -/
def readValue (block : Bytes) (valueType : UInt8) (valueLen cursor : Nat) :
    Except BlockFault (Option ValueLocation × Nat) :=
  if valueType = 1 then do
    let value ← sliceOf block cursor (cursor + valueLen)
    pure (some (.inline value), cursor + valueLen)
  else if valueType = 2 then
    if cursor + 20 > block.length then .error (.error .blobReferenceCut)
    else do
      let fileId ← sliceOf block cursor (cursor + 8)
      let offset ← sliceOf block (cursor + 8) (cursor + 16)
      let length ← sliceOf block (cursor + 16) (cursor + 20)
      pure (some (.blob ⟨ofLeBytes fileId, ofLeBytes offset, UInt32.ofNat (ofLeBytes length)⟩),
        cursor + 20)
  else if valueType = 0 then .ok (none, cursor)
  else .error (.error (.invalidValueType valueType))

/-- Read the key and the value behind the numbers of an entry. -/
def readBody (block prevKey : Bytes) (header : EntryHeader) (cursor : Nat) :
    Except BlockFault (BlockEntry × Nat) := do
  let shared ← sliceOf prevKey 0 header.sharedLen
  let unshared ← sliceOf block cursor (cursor + header.unsharedLen)
  let valueType ← byteAt block (cursor + header.unsharedLen)
  let (value, cursor) ←
    readValue block valueType header.valueLen (cursor + header.unsharedLen + 1)
  pure (⟨shared ++ unshared, value, header.sequence⟩, cursor)

def readEntry (block : Bytes) (state : Nat × Bytes) :
    Except BlockFault (BlockEntry × Nat) := do
  let (header, cursor) ← readHeader block state.1
  readBody block state.2 header cursor

/-- The entries in front of the restart points. -/
def entriesIn (block : Bytes) : Iterator (Nat × Bytes) BlockEntry BlockFault :=
  entriesUpTo (restartOffset block) (readEntry block) (·.key)

def decode (digests : Digests) (compressors : Compressors) (data : Bytes) :
    Except BlockFault DataBlock := do
  let block ← (uncompressed digests compressors data).mapError .error
  let restartPoints ← readRestarts block
  let entries ← (entriesIn block).collect .endless (block.length + 1) (0, [])
  pure ⟨entries, restartPoints⟩

/-- The key and the value behind the numbers of an entry lie in the block, and the key before is
long enough. -/
def BodyFits (block prevKey : Bytes) (header : EntryHeader) (cursor : Nat) : Prop :=
  header.sharedLen ≤ prevKey.length ∧ cursor + header.unsharedLen < block.length ∧
    (block[cursor + header.unsharedLen]? = some 1 →
      cursor + header.unsharedLen + 1 + header.valueLen ≤ block.length)

/-- An entry lies in the block, if its numbers can be read. -/
def Fits (block : Bytes) (state : Nat × Bytes) : Prop :=
  ∀ header cursor, readHeader block state.1 = .ok (header, cursor) →
    BodyFits block state.2 header cursor

end DataBlock

open DataBlock

namespace IndexBlock

def readEntry (block : Bytes) (state : Nat × Bytes) :
    Except BlockFault ((Bytes × BlockHandle) × Nat) := do
  let (keyLen, cursor) ← readVarint block state.1
  let key ← sliceOf block cursor (cursor + keyLen)
  let (offset, cursor) ← readVarint block (cursor + keyLen)
  let (size, cursor) ← readVarint block cursor
  pure ((key, ⟨offset, size⟩), cursor)

def entriesIn (block : Bytes) : Iterator (Nat × Bytes) (Bytes × BlockHandle) BlockFault :=
  entriesUpTo block.length (readEntry block) (·.1)

def decode (digests : Digests) (data : Bytes) : Except BlockFault IndexBlock := do
  let block ← (checkedBody digests 4 data).mapError .error
  let entries ← (entriesIn block).collect .endless (block.length + 1) (0, [])
  pure ⟨entries⟩

/-- The key of an entry lies in the block, if its length can be read. -/
def Fits (block : Bytes) (state : Nat × Bytes) : Prop :=
  ∀ keyLen cursor, readVarint block state.1 = .ok (keyLen, cursor) → cursor + keyLen ≤ block.length

end IndexBlock

variable {start : Nat} {α : Type}

section

variable {data : Bytes} {cursor : Nat}

theorem sliceOf_of_le {stop : Nat} (le : start ≤ stop) (inside : stop ≤ data.length) :
    sliceOf data start stop = .ok ((data.take stop).drop start) :=
  if_pos ⟨le, inside⟩

theorem sliceOf_of_lt {stop : Nat} (outside : data.length < stop) :
    sliceOf data start stop = .error .outOfRange :=
  if_neg fun inside => absurd inside.2 outside.not_ge

theorem readVarintFrom_spec (data : Bytes) (result : UInt64) (shift bytesRead : Nat) :
    (∃ error, readVarintFrom result shift bytesRead data = .error (.error error)) ∨
      ∃ value after, readVarintFrom result shift bytesRead data = .ok (value, after) ∧
        bytesRead < after ∧ after ≤ bytesRead + data.length := by
  induction data generalizing result shift bytesRead with
  | nil => exact .inl ⟨_, rfl⟩
  | cons byte rest ih =>
    rw [readVarintFrom]
    split
    next => exact .inr ⟨_, _, rfl, Nat.lt_succ_self _, by rw [length_cons]; omega⟩
    next =>
      split
      next => exact .inl ⟨_, rfl⟩
      next =>
        rcases ih _ (shift + 7) (bytesRead + 1) with failed | ⟨value, after, ran, less, most⟩
        · exact .inl failed
        · exact .inr ⟨value, after, ran, by omega, by rw [length_cons]; omega⟩

/-- A read from a position on is refused, or ends behind the position and within the bytes. -/
def Reads {α : Type} (data : Bytes) (start : Nat) (run : Except BlockFault (α × Nat)) : Prop :=
  (∃ error, run = .error (.error error)) ∨
    ∃ value after, run = .ok (value, after) ∧ start < after ∧ after ≤ data.length

theorem Reads.mono {earlier : Nat} {run : Except BlockFault (α × Nat)}
    (reads : Reads data start run) (le : earlier ≤ start) : Reads data earlier run := by
  rcases reads with failed | ⟨value, after, ran, less, most⟩
  · exact .inl failed
  · exact .inr ⟨value, after, ran, le.trans_lt less, most⟩

theorem Reads.bind {β : Type} {run : Except BlockFault (α × Nat)}
    {rest : α × Nat → Except BlockFault (β × Nat)} (first : Reads data start run)
    (later : ∀ value after, run = .ok (value, after) → start < after → after ≤ data.length →
      Reads data start (rest (value, after))) : Reads data start (run >>= rest) := by
  rcases first with ⟨error, rfl⟩ | ⟨value, after, rfl, less, most⟩
  · exact .inl ⟨error, rfl⟩
  · exact later value after rfl less most

/-- A varint within the bytes takes at least one of them. -/
theorem reads_varint (le : start ≤ cursor) (inside : cursor ≤ data.length) :
    Reads data start (readVarint data cursor) := by
  rw [readVarint, sliceOf_of_le inside le_rfl, take_length]
  rcases readVarintFrom_spec (data.drop cursor) 0 0 0 with
    ⟨error, failed⟩ | ⟨value, after, ran, less, most⟩
  · exact .inl ⟨error, by simp [bind, Except.bind, failed]⟩
  · rw [length_drop] at most
    exact .inr ⟨value.toNat, cursor + after, by simp [bind, Except.bind, ran, pure, Except.pure],
      by omega, by omega⟩

theorem returns_iff {run : Except BlockFault α} :
    Returns run ↔ run ≠ .error .outOfRange ∧ run ≠ .error .endless := by
  rcases run with (_ | _ | _) | _ <;> simp [Returns]

theorem returns_bind_pure {β : Type} {run : Except BlockFault α} {wrap : α → β} :
    Returns (run >>= fun value => pure (wrap value)) ↔ Returns run := by
  rcases run with (_ | _ | _) | _ <;> rfl

/-- The entries are read without a slice out of range exactly if every one that is reached fits. -/
theorem returns_entriesUpTo_iff {stop : Nat} (bounded : stop ≤ data.length)
    {read : Nat × Bytes → Except BlockFault (α × Nat)} (keyOf : α → Bytes)
    {Fits : Nat × Bytes → Prop}
    (fits : ∀ state, state.1 ≤ data.length → Fits state → Reads data state.1 (read state))
    (outside : ∀ state, ¬Fits state → read state = .error .outOfRange) :
    Returns ((entriesUpTo stop read keyOf).collect .endless (data.length + 1) (0, [])) ↔
      ∀ state, (entriesUpTo stop read keyOf).Reaches (0, []) state → state.1 < stop →
        Fits state := by
  have failed_iff (state : Nat × Bytes) {fault : BlockFault} :
      entriesUpTo stop read keyOf state = .error fault ↔
        state.1 < stop ∧ read state = .error fault := by
    rw [entriesUpTo]
    split
    next more => cases ran : read state <;> simp [bind, Except.bind, pure, Except.pure, more]
    next ended => simp [pure, Except.pure, ended]
  have nearer : ∀ state item after, entriesUpTo stop read keyOf state = .ok (some (item, after)) →
      data.length - after.1 < data.length - state.1 := by
    intro state item after moved
    rw [entriesUpTo] at moved
    split at moved
    next more =>
      have inside := more.le.trans bounded
      by_cases fit : Fits state
      · rcases fits state inside fit with ⟨_, ran⟩ | ⟨_, _, ran, less, most⟩
        · simp [bind, Except.bind, ran] at moved
        · simp only [bind, Except.bind, ran, pure, Except.pure] at moved
          cases moved
          omega
      · simp [bind, Except.bind, outside state fit] at moved
    next => cases moved
  have enough : data.length - (0, ([] : Bytes)).1 < data.length + 1 := by omega
  rw [returns_iff, ne_eq, ne_eq, Iterator.collect_eq_error_iff nearer enough,
    Iterator.collect_eq_error_iff nearer enough]
  simp only [failed_iff]
  constructor
  · intro returns state reached more
    by_contra fit
    exact returns.1 ⟨state, reached, more, outside state fit⟩
  · intro all
    constructor <;> rintro ⟨state, reached, more, failed⟩
    all_goals
      rcases fits state (more.le.trans bounded) (all state reached more) with
        ⟨_, ran⟩ | ⟨_, _, ran, -⟩ <;> cases failed.symm.trans ran

end

namespace DataBlock

variable {block prevKey : Bytes} {header : EntryHeader} {cursor : Nat}

theorem reads_header (inside : cursor ≤ block.length) :
    Reads block cursor (readHeader block cursor) :=
  (reads_varint le_rfl inside).bind fun _ _ _ less most =>
    (reads_varint less.le most).bind fun _ _ _ less most =>
      (reads_varint less.le most).bind fun _ _ _ less most =>
        (reads_varint less.le most).bind fun _ _ _ less most => .inr ⟨_, _, rfl, less, most⟩

theorem reads_value {valueType : UInt8} {valueLen start : Nat} (less : start < cursor)
    (inside : cursor ≤ block.length) (fits : valueType = 1 → cursor + valueLen ≤ block.length) :
    Reads block start (readValue block valueType valueLen cursor) := by
  unfold readValue
  split_ifs with isInline isBlob isCut isTombstone
  · rw [sliceOf_of_le (by omega) (fits isInline)]
    exact .inr ⟨_, _, rfl, by omega, fits isInline⟩
  · exact .inl ⟨_, rfl⟩
  · rw [sliceOf_of_le (by omega) (by omega), sliceOf_of_le (by omega) (by omega),
      sliceOf_of_le (by omega) (by omega)]
    exact .inr ⟨_, _, rfl, by omega, by omega⟩
  · exact .inr ⟨_, _, rfl, less, inside⟩
  · exact .inl ⟨_, rfl⟩

theorem reads_body (fits : BodyFits block prevKey header cursor) :
    Reads block cursor (readBody block prevKey header cursor) := by
  obtain ⟨known, inside, whole⟩ := fits
  rw [readBody, sliceOf_of_le (Nat.zero_le _) known, sliceOf_of_le (by omega) inside.le, byteAt,
    getElem?_eq_getElem inside]
  refine Reads.bind (reads_value (by omega) (by omega) fun isInline => ?_)
    fun _ _ _ less most => .inr ⟨_, _, rfl, less, most⟩
  exact whole (by rw [getElem?_eq_getElem inside, isInline])

theorem readBody_outOfRange (outside : ¬BodyFits block prevKey header cursor) :
    readBody block prevKey header cursor = .error .outOfRange := by
  rw [readBody]
  by_cases known : header.sharedLen ≤ prevKey.length
  · rw [sliceOf_of_le (Nat.zero_le _) known]
    by_cases inside : cursor + header.unsharedLen < block.length
    · have isInline : block[cursor + header.unsharedLen]? = some 1 := by
        by_contra other
        exact outside ⟨known, inside, fun same => absurd same other⟩
      have beyond : block.length < cursor + header.unsharedLen + 1 + header.valueLen := by
        by_contra whole
        exact outside ⟨known, inside, fun _ => by omega⟩
      rw [sliceOf_of_le (by omega) inside.le, byteAt, isInline]
      simp [bind, Except.bind, readValue, sliceOf_of_lt beyond]
    · by_cases atEnd : cursor + header.unsharedLen ≤ block.length
      · rw [sliceOf_of_le (by omega) atEnd, byteAt, getElem?_eq_none (by omega)]
        rfl
      · rw [sliceOf_of_lt (by omega)]
        rfl
  · rw [sliceOf_of_lt (by omega)]
    rfl

theorem reads_entry (state : Nat × Bytes) (inside : state.1 ≤ block.length)
    (fits : Fits block state) : Reads block state.1 (readEntry block state) :=
  (reads_header inside).bind fun _ _ ran less _ => (reads_body (fits _ _ ran)).mono less.le

theorem readEntry_outOfRange (state : Nat × Bytes) (outside : ¬Fits block state) :
    readEntry block state = .error .outOfRange := by
  simp only [Fits, not_forall] at outside
  obtain ⟨header, cursor, ran, outside⟩ := outside
  rw [readEntry, ran]
  exact readBody_outOfRange outside

theorem readRestarts_eq (fits : 4 + restartCount block * 4 ≤ block.length) :
    ∃ points, readRestarts block = .ok points := by
  rw [readRestarts, if_neg fits.not_gt]
  let point (i : Nat) := (block.take (restartOffset block + i * 4 + 4)).drop
    (restartOffset block + i * 4)
  refine ⟨(List.range (restartCount block)).map fun i => ofLeBytes (point i), mapM_ok ?_⟩
  intro i listed
  have below := mem_range.mp listed
  rw [sliceOf_of_le (Nat.le_add_right _ _) (by rw [restartOffset]; omega)]
  rfl

end DataBlock

namespace IndexBlock

variable {block : Bytes}

theorem reads_entry (state : Nat × Bytes) (inside : state.1 ≤ block.length)
    (fits : Fits block state) : Reads block state.1 (readEntry block state) := by
  refine (reads_varint le_rfl inside).bind fun keyLen cursor ran less _ => ?_
  have within := fits keyLen cursor ran
  simp only [sliceOf_of_le (Nat.le_add_right cursor keyLen) within]
  exact (reads_varint (by omega) within).bind fun _ _ _ less most =>
    (reads_varint less.le most).bind fun _ _ _ less most => .inr ⟨_, _, rfl, less, most⟩

theorem readEntry_outOfRange (state : Nat × Bytes) (outside : ¬Fits block state) :
    readEntry block state = .error .outOfRange := by
  simp only [Fits, not_forall] at outside
  obtain ⟨keyLen, cursor, ran, outside⟩ := outside
  rw [readEntry, ran]
  simp [bind, Except.bind, sliceOf_of_lt (Nat.lt_of_not_le outside)]

end IndexBlock

/-- The decoders of data blocks and index blocks return, with a block or with an error, exactly
if the bytes behind the checks have room for the restart points, and every entry that is reached
shares no more than the key before it and lies in the block with its key and its value. -/
theorem decode_returns_iff (digests : Digests) (compressors : Compressors) (data : Bytes) :
    (Returns (decode digests compressors data) ↔
      ∀ block, uncompressed digests compressors data = .ok block →
        4 + restartCount block * 4 ≤ block.length ∧
          ∀ state, (entriesIn block).Reaches (0, []) state →
            state.1 < restartOffset block → DataBlock.Fits block state) ∧
      (Returns (IndexBlock.decode digests data) ↔ ∀ block, checkedBody digests 4 data = .ok block →
          ∀ state, (IndexBlock.entriesIn block).Reaches (0, []) state →
            state.1 < block.length → IndexBlock.Fits block state) := by
  constructor
  · rw [decode]
    cases checked : uncompressed digests compressors data with
    | error error => simp [Except.mapError, bind, Except.bind, Returns]
    | ok block =>
      have bounded : restartOffset block ≤ block.length := by
        rw [restartOffset]
        omega
      simp only [Except.ok.injEq, forall_eq']
      by_cases room : 4 + restartCount block * 4 ≤ block.length
      · obtain ⟨points, read⟩ := readRestarts_eq room
        rw [and_iff_right room]
        refine Iff.trans ?_ (returns_entriesUpTo_iff bounded BlockEntry.key reads_entry
          readEntry_outOfRange)
        change Returns (readRestarts block >>= _) ↔ _
        rw [read]
        exact returns_bind_pure
      · have read : readRestarts block = .error .outOfRange :=
          if_pos (Nat.lt_of_not_le room)
        simp [Except.mapError, bind, Except.bind, read, Returns, room]
  · rw [IndexBlock.decode]
    cases checked : checkedBody digests 4 data with
    | error error => simp [Except.mapError, bind, Except.bind, Returns]
    | ok block =>
      simp only [Except.ok.injEq, forall_eq']
      exact returns_bind_pure.trans (returns_entriesUpTo_iff le_rfl Prod.fst IndexBlock.reads_entry
        IndexBlock.readEntry_outOfRange)

/-- A block for which the checksum is right, but that says it has a restart point for which there
is no room, and one whose only entry shares a byte with the key before it. And an index block
whose only key is said to be longer than the block. -/
theorem decode_out_of_range :
    let digests : Digests := ⟨fun _ => 7, fun _ => 9⟩
    let compressors : Compressors := ⟨fun _ _ => none, fun _ _ _ => .error ""⟩
    let signed (body : Bytes) := body ++ leBytes 4 (digests.crc body).toNat
    decode digests compressors (signed [0, 1, 0, 0, 0]) = .error .outOfRange ∧
      decode digests compressors (signed [0, 1, 0, 0, 0, 0, 0, 0, 0, 0]) = .error .outOfRange ∧
      IndexBlock.decode digests (signed [9]) = .error .outOfRange := by
  decide +kernel

end Nanograph.Lsm
