import Nanograph.BTree.Node
import Nanograph.Foundation.LittleEndian

/-!
# Log records of a B+Tree shard

The record kinds of `nanograph-btree/src/wal_record.rs` and the payloads of put
and delete records. Lengths are written as 32-bit numbers, so a key or a value of
`2 ^ 32` bytes or more is not read back.
-/

namespace Nanograph.BTree

open Foundation

/-- Record kinds for B+Tree operations. -/
inductive WalRecordKind where
  | put
  | delete
  | checkpoint
  | clear

namespace WalRecordKind

def toU16 : WalRecordKind → Nat
  | .put => 1
  | .delete => 2
  | .checkpoint => 3
  | .clear => 4

def fromU16 : Nat → Option WalRecordKind
  | 1 => some .put
  | 2 => some .delete
  | 3 => some .checkpoint
  | 4 => some .clear
  | _ => none

end WalRecordKind

/-- Encode a put operation: both lengths stand in front of their bytes. -/
def encodePut (key value : Bytes) : Bytes :=
  leBytes 4 key.length ++ key ++ leBytes 4 value.length ++ value

def decodePut (payload : Bytes) : Except BTreeError (Bytes × Bytes) :=
  if payload.length < 8 then
    .error (.internal "WAL Put record too short")
  else
    let keyLen := ofLeBytes (payload.take 4)
    if 4 + keyLen > payload.length then
      .error (.internal "WAL Put record key length exceeds payload")
    else
      let key := (payload.drop 4).take keyLen
      let offset := 4 + keyLen
      if offset + 4 > payload.length then
        .error (.internal "WAL Put record missing value length")
      else
        let valueLen := ofLeBytes ((payload.drop offset).take 4)
        let offset := offset + 4
        if offset + valueLen > payload.length then
          .error (.internal "WAL Put record value length exceeds payload")
        else
          .ok (key, (payload.drop offset).take valueLen)

def encodeDelete (key : Bytes) : Bytes := leBytes 4 key.length ++ key

def decodeDelete (payload : Bytes) : Except BTreeError Bytes :=
  if payload.length < 4 then
    .error (.internal "WAL Delete record too short")
  else
    let keyLen := ofLeBytes (payload.take 4)
    if 4 + keyLen > payload.length then
      .error (.internal "WAL Delete record key length exceeds payload")
    else
      .ok ((payload.drop 4).take keyLen)

/-- A checkpoint record is a marker without payload. -/
def encodeCheckpoint : Bytes := []

/-- A clear record has no payload either. -/
def encodeClear : Bytes := []

end Nanograph.BTree
