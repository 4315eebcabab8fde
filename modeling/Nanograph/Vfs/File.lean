import Nanograph.Foundation.Bytes

/-!
# Files

Reads and writes at an offset and changes of size, as the files of
`nanograph-vfs/src/memoryfs.rs` make them. A file is its bytes. The buffer of a read is
given by its length, and the bytes copied into it are the result. No caller here reads
behind the end of the file.
-/

namespace Nanograph.Vfs

open Foundation

/-- Read directly from a location, at most as many bytes as the buffer holds. -/
def readAtOffset (file : Bytes) (pos bufLen : Nat) : Bytes := (file.drop pos).take bufLen

/-- Set the length of a file: cut it, or extend it by zeros. -/
def setSize (file : Bytes) (newLength : Nat) : Bytes :=
  file.take newLength ++ List.replicate (newLength - file.length) 0

/-- Write directly to a location, extending the file if it is too short. -/
def writeToOffset (file : Bytes) (pos : Nat) (buf : Bytes) : Bytes :=
  let grown := if pos + buf.length > file.length then setSize file (pos + buf.length) else file
  grown.take pos ++ buf ++ grown.drop (pos + buf.length)

theorem setSize_of_le {file : Bytes} {newLength : Nat} (shorter : newLength ≤ file.length) :
    setSize file newLength = file.take newLength := by
  simp [setSize, Nat.sub_eq_zero_of_le shorter]

/-- A write at the end of a file appends. -/
theorem writeToOffset_length (file buf : Bytes) :
    writeToOffset file file.length buf = file ++ buf := by
  cases buf with
  | nil => simp [writeToOffset]
  | cons byte rest =>
    have whole : file.take (file.length + (rest.length + 1)) = file :=
      List.take_of_length_le (Nat.le_add_right _ _)
    simp [writeToOffset, setSize, whole]

end Nanograph.Vfs
