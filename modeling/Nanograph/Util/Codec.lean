import Nanograph.Foundation.Bytes

/-!
# Serialization

`serialize` and `deserialize` of `nanograph-util/src/serde.rs` come from another crate. What is
used of them is that reading gives back what was written and, where a file may be cut, that
the beginning of what was written is not read as a value.
-/

namespace Nanograph.Util

open List Foundation

/-- Serialization of the values of a type, which reads back what it wrote. -/
structure Codec (α : Type) where
  serialize : α → Bytes
  deserialize : Bytes → Option α
  deserialize_serialize : ∀ value, deserialize (serialize value) = some value

/-- Characters are numbered. -/
instance encodableChar : Encodable Char := Encodable.ofLeftInverse Char.toNat Char.ofNat Char.ofNat_toNat

namespace Codec

variable {α : Type}

/-- No proper beginning of a serialized value is read as a value. -/
def Delimited (codec : Codec α) : Prop :=
  ∀ value front, front <+: codec.serialize value → front ≠ codec.serialize value →
    codec.deserialize front = none

/-- A serialization of any type with numbered values: the binary digits of the number, as the
bytes 1 and 2, with an end mark. -/
def ofEncodable (α : Type) [Encodable α] : Codec α where
  serialize value :=
    ((Nat.digits 2 (Encodable.encode value)).map fun digit => UInt8.ofNat (digit + 1)) ++ [0]
  deserialize bytes :=
    if 0 ∈ bytes then
      Encodable.decode (Nat.ofDigits 2 (bytes.dropLast.map fun byte => byte.toNat - 1))
    else none
  deserialize_serialize := by
    intro value
    have digits : ((Nat.digits 2 (Encodable.encode value)).map fun digit =>
        (UInt8.ofNat (digit + 1)).toNat - 1) = Nat.digits 2 (Encodable.encode value) := by
      refine (map_congr_left fun digit isDigit => ?_).trans (map_id _)
      have small := Nat.digits_lt_base (le_refl 2) isDigit
      interval_cases digit <;> rfl
    rw [if_pos (by simp), dropLast_concat, map_map]
    change Encodable.decode (Nat.ofDigits 2 ((Nat.digits 2 (Encodable.encode value)).map
      fun digit => (UInt8.ofNat (digit + 1)).toNat - 1)) = some value
    rw [digits, Nat.ofDigits_digits, Encodable.encodek]

theorem delimited_ofEncodable (α : Type) [Encodable α] : (ofEncodable α).Delimited := by
  rintro value front ⟨rest, whole⟩ cut
  -- the end mark is the last byte, so a proper beginning does not have it
  have unmarked : (0 : UInt8) ∉ front := by
    intro mem
    obtain rfl | ⟨last, init, rfl⟩ := eq_nil_or_concat rest
    · exact cut (by simpa using whole)
    · rw [concat_eq_append, ← append_assoc] at whole
      have inner := (append_inj' whole rfl).1
      have digit := inner ▸ mem_append_left last mem
      obtain ⟨digit, isDigit, mark⟩ := mem_map.mp digit
      have small := Nat.digits_lt_base (le_refl 2) isDigit
      interval_cases digit <;> cases mark
  simp [ofEncodable, unmarked]

end Codec

end Nanograph.Util
