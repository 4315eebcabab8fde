import Nanograph.Foundation.Bytes

/-!
# Little-endian numbers

A number of fixed width is written as its base 256 digits, the lowest first. The
width cuts off what does not fit.
-/

namespace Nanograph.Foundation

/-- The lowest bytes of a number, the lowest first. -/
def leBytes : Nat → Nat → Bytes
  | 0, _ => []
  | width + 1, value => UInt8.ofNat value :: leBytes width (value / 256)

/-- The number whose bytes are given, the lowest first. -/
def ofLeBytes : Bytes → Nat
  | [] => 0
  | byte :: rest => byte.toNat + 256 * ofLeBytes rest

@[simp] theorem length_leBytes (width value : Nat) : (leBytes width value).length = width := by
  induction width generalizing value with
  | zero => rfl
  | succ width ih => rw [leBytes, List.length_cons, ih]

theorem ofLeBytes_leBytes (width value : Nat) :
    ofLeBytes (leBytes width value) = value % 256 ^ width := by
  induction width generalizing value with
  | zero => simp [leBytes, ofLeBytes, Nat.mod_one]
  | succ width ih =>
    have lowest : (UInt8.ofNat value).toNat = value % 256 := UInt8.toNat_ofNat'
    rw [leBytes, ofLeBytes, ih, lowest, pow_succ', Nat.mod_mul]

theorem ofLeBytes_lt (bytes : Bytes) : ofLeBytes bytes < 256 ^ bytes.length := by
  induction bytes with
  | nil => simp [ofLeBytes]
  | cons byte rest ih =>
    have low := byte.toNat_lt
    rw [ofLeBytes, List.length_cons, pow_succ]
    omega

/-- A number that fits is read back. -/
theorem ofLeBytes_leBytes_of_lt {width value : Nat} (fits : value < 256 ^ width) :
    ofLeBytes (leBytes width value) = value := by
  rw [ofLeBytes_leBytes, Nat.mod_eq_of_lt fits]

theorem leBytes_ofLeBytes {width : Nat} {bytes : Bytes} (length : bytes.length = width) :
    leBytes width (ofLeBytes bytes) = bytes := by
  subst length
  induction bytes with
  | nil => rfl
  | cons byte rest ih =>
    have low : UInt8.ofNat (byte.toNat + 256 * ofLeBytes rest) = byte := by
      rw [← UInt8.toNat_inj, UInt8.toNat_ofNat', Nat.add_mul_mod_self_left,
        Nat.mod_eq_of_lt byte.toNat_lt]
    have high : (byte.toNat + 256 * ofLeBytes rest) / 256 = ofLeBytes rest := by
      have small := byte.toNat_lt
      omega
    rw [ofLeBytes, List.length_cons, leBytes, low, high, ih]

end Nanograph.Foundation
