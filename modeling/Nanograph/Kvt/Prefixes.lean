import Nanograph.Foundation.Lexicographic
import Nanograph.Kvt.Shard
import Nanograph.Kvt.Types

/-!
# Scans for a prefix

A scan reads the entries within a range, `nanograph-kvt/src/memory.rs`. The range of a prefix, in
`nanograph-core/src/object/shard.rs` and in `kvstore.rs`, ends behind the prefix with its last byte
raised; where that is not possible a zero is added instead, and nothing but the prefix itself is in
the range. The adaptive radix tree has its own scan for a prefix, `nanograph-art/src/kvstore.rs`,
which raises the last byte in any case and has no end for the empty prefix.
-/

namespace Nanograph.Kvt

open List Foundation

/-- The entries of a shard within a range. The memory store panics for a start behind the end and
for equal excluded bounds, where there are none. -/
def Shard.scan (shard : Shard) (range : KeyRange) : List (Bytes × Bytes) :=
  let entries := inRange range.start range.last shard.entries
  upToLimit range.limit (if range.reverse then entries.reverse else entries)

/-- The end of the range of the keys that start with some bytes. -/
def endPrefix (bytes : Bytes) : Bytes :=
  match bytes.getLast? with
  | some last => if last < 255 then bytes.dropLast ++ [last + 1] else bytes ++ [0]
  | none => bytes

def KeyRange.ofPrefix (bytes : Bytes) : KeyRange :=
  ⟨.included bytes, .excluded (endPrefix bytes), none, false⟩

/-- Scan for a prefix, with any store's own way to scan a range. -/
def scanPrefix {α : Type} (scan : KeyRange → α) (bytes : Bytes) (limit : Option Nat) : α :=
  scan ⟨.included bytes, .excluded (endPrefix bytes), limit, false⟩

/-- Scan a tree for a prefix. The last byte 255 becomes 0, or panics where overflow is checked. -/
def ArtKeyValueStore.scanPrefix {α : Type} (overflowChecks : Bool) (scan : KeyRange → α)
    (bytes : Bytes) (limit : Option Nat) : Option α :=
  match bytes.getLast? with
  | none => some (scan ⟨.included bytes, .unbounded, limit, false⟩)
  | some last =>
    if last = 255 ∧ overflowChecks then none
    else some (scan ⟨.included bytes, .excluded (bytes.dropLast ++ [last + 1]), limit, false⟩)

theorem covBy_add_one {byte : UInt8} (below : byte < 255) : byte ⋖ byte + 1 := by
  have next : (byte + 1).toNat = byte.toNat + 1 := by
    exact Nat.mod_eq_of_lt (Nat.succ_lt_succ below)
  refine ⟨?_, fun other above under => ?_⟩
  · rw [UInt8.lt_iff_toNat_lt, next]
    exact Nat.lt_succ_self _
  · rw [UInt8.lt_iff_toNat_lt] at above under
    omega

/-- What lies in the range of a prefix. -/
theorem between_endPrefix (bytes text : Bytes) :
    bytes ≤ text ∧ text < endPrefix bytes ↔ match bytes.getLast? with
      | some last => if last < 255 then bytes <+: text else text = bytes
      | none => False := by
  rw [endPrefix]
  cases ends : bytes.getLast? with
  | none =>
    simp only [iff_false, not_and]
    exact fun fromSelf before => fromSelf.not_gt before
  | some last =>
    obtain ⟨front, rfl⟩ := getLast?_eq_some_iff.mp ends
    simp only [dropLast_concat]
    split
    next below => rw [isPrefix_iff_between (covBy_add_one below)]
    next => exact between_append_least fun symbol => UInt8.zero_le

theorem contains_ofPrefix {bytes key : Bytes} :
    (KeyRange.ofPrefix bytes).contains key = true ↔ bytes ≤ key ∧ key < endPrefix bytes := by
  simp [KeyRange.contains, KeyRange.ofPrefix, Bound.fromStart, Bound.upToEnd]

/-- The range of a prefix is exact when the last byte can be raised, and only then. -/
theorem contains_ofPrefix_iff (bytes : Bytes) :
    (∀ key, (KeyRange.ofPrefix bytes).contains key = true ↔ bytes <+: key) ↔
      ∃ last ∈ bytes.getLast?, last < 255 := by
  simp only [contains_ofPrefix, between_endPrefix]
  cases ends : bytes.getLast? with
  | none =>
    refine iff_of_false (fun exact => ?_) (by simp)
    exact (exact bytes).mpr prefix_rfl
  | some last =>
    by_cases below : last < 255
    · simp [below]
    · refine iff_of_false (fun exact => ?_) (by simp [below])
      simp only [below, if_false] at exact
      simpa using (exact (bytes ++ [0])).mpr (prefix_append bytes [0])

theorem scanPrefix_eq (shard : Shard) (bytes : Bytes) :
    scanPrefix shard.scan bytes none =
      shard.entries.filter fun entry => (KeyRange.ofPrefix bytes).contains entry.1 := rfl

theorem entries_put_empty (key value : Bytes) :
    (Shard.empty.put key value).entries = [(key, value)] := rfl

theorem scanPrefix_exact_iff (bytes : Bytes) :
    (∀ shard : Shard, scanPrefix shard.scan bytes none =
        shard.entries.filter fun entry => bytes <+: entry.1) ↔
      ∃ last ∈ bytes.getLast?, last < 255 := by
  rw [← contains_ofPrefix_iff]
  constructor
  · intro exact key
    have found := congrArg (fun entries => (key, []) ∈ entries) (exact (Shard.empty.put key []))
    rw [scanPrefix_eq, entries_put_empty] at found
    simpa using found
  · intro exact shard
    rw [scanPrefix_eq]
    exact filter_congr fun entry _ => by rw [Bool.eq_iff_iff, exact, decide_eq_true_iff]

theorem artScanPrefix_exact_iff (overflowChecks : Bool) (bytes : Bytes) :
    (∀ shard : Shard, ArtKeyValueStore.scanPrefix overflowChecks shard.scan bytes none =
        some (shard.entries.filter fun entry => bytes <+: entry.1)) ↔
      ∀ last ∈ bytes.getLast?, last < 255 := by
  cases ends : bytes.getLast? with
  | none =>
    obtain rfl := getLast?_eq_none_iff.mp ends
    refine iff_of_true (fun shard => ?_) (by simp)
    simp [ArtKeyValueStore.scanPrefix, Shard.scan, inRange, upToLimit, Bound.fromStart,
      Bound.upToEnd]
  | some last =>
    by_cases below : last < 255
    · refine iff_of_true (fun shard => ?_) (by simpa using below)
      have exact := (scanPrefix_exact_iff bytes).mpr ⟨last, ends, below⟩ shard
      have raised : endPrefix bytes = bytes.dropLast ++ [last + 1] := by simp [endPrefix, ends, below]
      rw [ArtKeyValueStore.scanPrefix, ends]
      simp only [below.ne, false_and, if_false]
      rw [← exact, scanPrefix, raised]
    · refine iff_of_false (fun exact => ?_) (by simpa using below)
      obtain ⟨front, rfl⟩ := getLast?_eq_some_iff.mp ends
      obtain rfl : last = 255 := by
        rw [UInt8.lt_iff_toNat_lt] at below
        have := last.toNat_lt
        exact UInt8.toNat_inj.mp (by simp at *; omega)
      have found := exact (Shard.empty.put (front ++ [255]) [])
      cases overflowChecks with
      | true => simp [ArtKeyValueStore.scanPrefix] at found
      | false =>
        -- the end is not behind the prefix
        have before : ([255] : Bytes) < [255 + 1] := by
          simpa [ArtKeyValueStore.scanPrefix, Shard.scan, entries_put_empty, inRange, upToLimit,
            Bound.fromStart, Bound.upToEnd] using found
        exact absurd before (by decide)

end Nanograph.Kvt
