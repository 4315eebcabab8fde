import Mathlib

/-!
# Byte strings

Keys and values are vectors of bytes. They are compared byte by byte, a proper
initial part before the longer string, which is the order of lists over the
order of bytes.
-/

namespace Nanograph.Foundation

/-- Bytes are ordered by their value. -/
instance byteOrder : LinearOrder UInt8 where
  le_refl := UInt8.le_refl
  le_trans := fun _ _ _ => UInt8.le_trans
  le_antisymm := fun _ _ => UInt8.le_antisymm
  le_total := UInt8.le_total
  lt_iff_le_not_ge := by
    intro first second
    rw [UInt8.lt_iff_toNat_lt, UInt8.le_iff_toNat_le, UInt8.le_iff_toNat_le]
    omega
  toDecidableLE := inferInstance
  toDecidableEq := inferInstance
  toDecidableLT := inferInstance

/-- A vector of bytes. -/
abbrev Bytes := List UInt8

end Nanograph.Foundation
