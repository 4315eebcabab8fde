import Nanograph.Foundation.LittleEndian

/-!
# Big-endian numbers

The bytes of a number, the highest first, are its little-endian bytes in reverse.
-/

namespace Nanograph.Foundation

/-- The lowest bytes of a number, the highest first. -/
def beBytes (width value : Nat) : Bytes := (leBytes width value).reverse

/-- The number whose bytes are given, the highest first. -/
def ofBeBytes (bytes : Bytes) : Nat := ofLeBytes bytes.reverse

@[simp] theorem length_beBytes (width value : Nat) : (beBytes width value).length = width := by
  rw [beBytes, List.length_reverse, length_leBytes]

theorem ofBeBytes_beBytes (width value : Nat) :
    ofBeBytes (beBytes width value) = value % 256 ^ width := by
  rw [ofBeBytes, beBytes, List.reverse_reverse, ofLeBytes_leBytes]

theorem ofBeBytes_lt {width : Nat} {bytes : Bytes} (short : bytes.length ≤ width) :
    ofBeBytes bytes < 256 ^ width :=
  calc ofBeBytes bytes < 256 ^ bytes.reverse.length := ofLeBytes_lt _
    _ ≤ 256 ^ width := by
      rw [List.length_reverse]
      exact Nat.pow_le_pow_right (by decide) short

@[simp] theorem ofBeBytes_toNat16 (value : UInt16) :
    ofBeBytes (beBytes 2 value.toNat) = value.toNat :=
  (ofBeBytes_beBytes 2 _).trans (Nat.mod_eq_of_lt value.toNat_lt)

@[simp] theorem ofBeBytes_toNat32 (value : UInt32) :
    ofBeBytes (beBytes 4 value.toNat) = value.toNat :=
  (ofBeBytes_beBytes 4 _).trans (Nat.mod_eq_of_lt value.toNat_lt)

@[simp] theorem ofBeBytes_toNat64 (value : UInt64) :
    ofBeBytes (beBytes 8 value.toNat) = value.toNat :=
  (ofBeBytes_beBytes 8 _).trans (Nat.mod_eq_of_lt value.toNat_lt)

@[simp] theorem ofBeBytes_toNat128 (value : BitVec 128) :
    ofBeBytes (beBytes 16 value.toNat) = value.toNat :=
  (ofBeBytes_beBytes 16 _).trans (Nat.mod_eq_of_lt value.isLt)

end Nanograph.Foundation
