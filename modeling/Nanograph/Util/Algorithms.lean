import Nanograph.Foundation.Bytes

/-!
# Integrity, compression and encryption

The algorithms of `nanograph-util` as they are written into files. The two checksum
functions come from other crates, so they are given.
-/

namespace Nanograph.Util

open Foundation

/-- The checksum functions behind the integrity algorithms. -/
structure Digests where
  crc : Bytes → UInt32
  xxh32 : Bytes → UInt32

/-- Integrity algorithm for checksums and hashing. -/
inductive IntegrityAlgorithm where
  | none
  | crc32c
  | xxHash32
deriving DecidableEq

/-- Hash value produced by an integrity algorithm. -/
inductive IntegrityHash where
  | none
  | hash32 (value : UInt32)

/-- The hash as a 32-bit number. -/
def IntegrityHash.asU32 : IntegrityHash → Option UInt32
  | .hash32 value => some value
  | .none => Option.none

namespace IntegrityAlgorithm

/-- The number of an algorithm in a file. -/
def asU8 : IntegrityAlgorithm → UInt8
  | .none => 0
  | .crc32c => 1
  | .xxHash32 => 2

def fromU8 : UInt8 → Option IntegrityAlgorithm
  | 0 => some .none
  | 1 => some .crc32c
  | 2 => some .xxHash32
  | _ => Option.none

@[simp] theorem fromU8_asU8 (algorithm : IntegrityAlgorithm) :
    fromU8 algorithm.asU8 = some algorithm := by
  cases algorithm <;> rfl

def hash (digests : Digests) : IntegrityAlgorithm → Bytes → IntegrityHash
  | .none, _ => .none
  | .crc32c, data => .hash32 (digests.crc data)
  | .xxHash32, data => .hash32 (digests.xxh32 data)

/-- The checksum of data as the log stores it, zero without an algorithm. -/
def checksum (digests : Digests) (algorithm : IntegrityAlgorithm) (data : Bytes) : UInt32 :=
  (algorithm.hash digests data).asU32.getD 0

end IntegrityAlgorithm

inductive CompressionAlgorithm where
  | none
  | lz4
  | zstd
  | snappy
deriving DecidableEq

/-- The compression functions behind the algorithms; they come from other crates and may fail. -/
structure Compressors where
  compress : CompressionAlgorithm → Bytes → Option Bytes
  decompress : CompressionAlgorithm → Bytes → Option Nat → Except String Bytes

namespace CompressionAlgorithm

/-- The number of an algorithm in a file. -/
def asU8 : CompressionAlgorithm → UInt8
  | .none => 0
  | .lz4 => 1
  | .zstd => 2
  | .snappy => 3

def fromU8 : UInt8 → Option CompressionAlgorithm
  | 0 => some .none
  | 1 => some .lz4
  | 2 => some .zstd
  | 3 => some .snappy
  | _ => Option.none

@[simp] theorem fromU8_asU8 (algorithm : CompressionAlgorithm) :
    fromU8 algorithm.asU8 = some algorithm := by
  cases algorithm <;> rfl

def compress (compressors : Compressors) : CompressionAlgorithm → Bytes → Option Bytes
  | .none, input => some input
  | algorithm, input => compressors.compress algorithm input

/-- Decompress data, with the size it should have. -/
def decompress (compressors : Compressors) :
    CompressionAlgorithm → Bytes → Option Nat → Except String Bytes
  | .none, input, _ => .ok input
  | algorithm, input, expectedSize => compressors.decompress algorithm input expectedSize

end CompressionAlgorithm

inductive EncryptionAlgorithm where
  | none
  | aes256Gcm
  | chaCha20Poly1305
deriving DecidableEq

namespace EncryptionAlgorithm

/-- The number of an algorithm in a file. -/
def asU8 : EncryptionAlgorithm → UInt8
  | .none => 0
  | .aes256Gcm => 1
  | .chaCha20Poly1305 => 2

def fromU8 : UInt8 → Option EncryptionAlgorithm
  | 0 => some .none
  | 1 => some .aes256Gcm
  | 2 => some .chaCha20Poly1305
  | _ => Option.none

@[simp] theorem fromU8_asU8 (algorithm : EncryptionAlgorithm) :
    fromU8 algorithm.asU8 = some algorithm := by
  cases algorithm <;> rfl

end EncryptionAlgorithm

end Nanograph.Util
