import Nanograph.Foundation.BigEndian

/-!
# Lexicographic order and concatenation

Strings that start with parts of the same length are compared by these parts first. Numbers
written in a fixed number of bytes, the highest first, are compared as the numbers are.
-/

namespace Nanograph.Foundation

open List

section

variable {α : Type} [LinearOrder α] {left right leftRest rightRest : List α}

@[simp] theorem nil_le (text : List α) : [] ≤ text := not_lt.mp (not_lt_nil text)

/-- Strings with first parts of one length are compared by the first parts, then by the rest. -/
theorem append_lt_append_iff (lengths : left.length = right.length) :
    left ++ leftRest < right ++ rightRest ↔ left < right ∨ left = right ∧ leftRest < rightRest := by
  induction left generalizing right with
  | nil => simp [eq_nil_of_length_eq_zero lengths.symm]
  | cons first left ih =>
    cases right with
    | nil => cases lengths
    | cons second right =>
      rw [cons_append, cons_append, cons_lt_cons_iff,
        ih (Nat.succ.inj lengths), cons_lt_cons_iff, List.cons.injEq]
      tauto

@[simp] theorem append_lt_append_left (common : List α) :
    common ++ leftRest < common ++ rightRest ↔ leftRest < rightRest := by
  rw [append_lt_append_iff rfl]
  simp

@[simp] theorem append_le_append_left (common : List α) :
    common ++ leftRest ≤ common ++ rightRest ↔ leftRest ≤ rightRest := by
  rw [← not_lt, append_lt_append_left, not_lt]

theorem append_le_append_iff (lengths : left.length = right.length) :
    left ++ leftRest ≤ right ++ rightRest ↔ left < right ∨ left = right ∧ leftRest ≤ rightRest := by
  rw [← not_lt, append_lt_append_iff lengths.symm, not_or, not_and, not_lt, not_lt, le_iff_lt_or_eq]
  constructor
  · rintro ⟨before | same, rest⟩
    · exact .inl before
    · exact .inr ⟨same, rest same.symm⟩
  · rintro (before | ⟨same, rest⟩)
    · exact ⟨.inl before, fun same => absurd same before.ne'⟩
    · exact ⟨.inr same, fun _ => rest⟩

theorem cons_le_cons_iff {first second : α} :
    first :: left ≤ second :: right ↔ first < second ∨ first = second ∧ left ≤ right :=
  (append_le_append_iff (show [first].length = [second].length from rfl)).trans (by
    simp [cons_lt_cons_iff])

/-- What lies between two strings that start alike starts in the same way. -/
theorem exists_append_of_between {common low high text : List α} (fromLow : common ++ low ≤ text)
    (beforeHigh : text < common ++ high) : ∃ rest, text = common ++ rest := by
  induction common generalizing text with
  | nil => exact ⟨text, rfl⟩
  | cons symbol common ih =>
    cases text with
    | nil => exact absurd (nil_lt_cons _ _) fromLow.not_gt
    | cons other rest =>
      rw [cons_append, cons_le_cons_iff] at fromLow
      rw [cons_append, cons_lt_cons_iff] at beforeHigh
      rcases fromLow with less | ⟨rfl, restFrom⟩
      · rcases beforeHigh with greater | ⟨same, _⟩
        · exact absurd greater less.asymm
        · exact absurd same less.ne'
      · rcases beforeHigh with greater | ⟨_, restBefore⟩
        · exact absurd greater (lt_irrefl _)
        · obtain ⟨tail, rfl⟩ := ih restFrom restBefore
          exact ⟨tail, rfl⟩

/-- The strings from one on, before the one with the next symbol in the last place, are those
that start with it. -/
theorem isPrefix_iff_between {common text : List α} {first second : α} (adjacent : first ⋖ second) :
    common ++ [first] <+: text ↔ common ++ [first] ≤ text ∧ text < common ++ [second] := by
  constructor
  · rintro ⟨rest, rfl⟩
    rw [append_assoc, append_le_append_left, append_lt_append_left, singleton_append,
      cons_le_cons_iff, cons_lt_cons_iff]
    exact ⟨.inr ⟨rfl, nil_le rest⟩, .inl adjacent.lt⟩
  · rintro ⟨fromFirst, beforeSecond⟩
    obtain ⟨rest, rfl⟩ := exists_append_of_between fromFirst beforeSecond
    rw [append_le_append_left] at fromFirst
    rw [append_lt_append_left] at beforeSecond
    cases rest with
    | nil => exact absurd (nil_lt_cons _ _) fromFirst.not_gt
    | cons symbol rest =>
      rw [cons_le_cons_iff] at fromFirst
      rw [cons_lt_cons_iff] at beforeSecond
      rcases fromFirst with less | ⟨rfl, _⟩
      · rcases beforeSecond with greater | ⟨_, nothing⟩
        · exact absurd greater (adjacent.2 less)
        · exact absurd nothing (not_lt_nil _)
      · simp

/-- Nothing lies between a string and the string followed by the least symbol. -/
theorem between_append_least {least : α} (isLeast : ∀ symbol, least ≤ symbol)
    {common text : List α} : common ≤ text ∧ text < common ++ [least] ↔ text = common := by
  have fromSelf : common ≤ text ↔ common ++ [] ≤ text := by rw [append_nil]
  rw [fromSelf]
  constructor
  · rintro ⟨fromCommon, beforeNext⟩
    obtain ⟨rest, rfl⟩ := exists_append_of_between fromCommon beforeNext
    rw [append_lt_append_left] at beforeNext
    cases rest with
    | nil => rw [append_nil]
    | cons symbol rest =>
      rcases cons_lt_cons_iff.mp beforeNext with less | ⟨_, nothing⟩
      · exact absurd less (isLeast symbol).not_gt
      · exact absurd nothing (not_lt_nil _)
  · rintro rfl
    refine ⟨by rw [append_nil], ?_⟩
    have longer : text ++ [] < text ++ [least] := by
      rw [append_lt_append_left]
      exact nil_lt_cons _ _
    rwa [append_nil] at longer

end

theorem ofLeBytes_append (low high : Bytes) :
    ofLeBytes (low ++ high) = ofLeBytes low + 256 ^ low.length * ofLeBytes high := by
  induction low with
  | nil => simp [ofLeBytes]
  | cons byte low ih =>
    rw [cons_append, ofLeBytes, ih, ofLeBytes, length_cons, pow_succ]
    ring

theorem ofBeBytes_cons (byte : UInt8) (rest : Bytes) :
    ofBeBytes (byte :: rest) = byte.toNat * 256 ^ rest.length + ofBeBytes rest := by
  rw [ofBeBytes, reverse_cons, ofLeBytes_append, length_reverse, ofLeBytes, ofLeBytes, ofBeBytes]
  ring

/-- Numbers of one width are ordered as their bytes are. -/
theorem lt_iff_ofBeBytes_lt {left right : Bytes} (lengths : left.length = right.length) :
    left < right ↔ ofBeBytes left < ofBeBytes right := by
  induction left generalizing right with
  | nil =>
    rw [eq_nil_of_length_eq_zero lengths.symm]
    simp
  | cons first left ih =>
    cases right with
    | nil => cases lengths
    | cons second right =>
      have same : left.length = right.length := Nat.succ.inj lengths
      have leftLess := ofBeBytes_lt (le_refl left.length)
      have rightLess := ofBeBytes_lt (le_refl right.length)
      rw [cons_lt_cons_iff, ih same, ofBeBytes_cons, ofBeBytes_cons,
        UInt8.lt_iff_toNat_lt, ← UInt8.toNat_inj, same]
      rw [same] at leftLess
      constructor
      · rintro (less | ⟨equal, rest⟩)
        · nlinarith
        · rw [equal]
          omega
      · intro less
        rcases lt_trichotomy first.toNat second.toNat with before | equal | behind
        · exact .inl before
        · rw [equal] at less
          exact .inr ⟨equal, by omega⟩
        · nlinarith

theorem ofBeBytes_inj {left right : Bytes} (lengths : left.length = right.length) :
    ofBeBytes left = ofBeBytes right ↔ left = right := by
  refine ⟨fun same => le_antisymm (not_lt.mp ?_) (not_lt.mp ?_), congrArg _⟩
  · rw [lt_iff_ofBeBytes_lt lengths.symm]
    exact same.not_gt
  · rw [lt_iff_ofBeBytes_lt lengths]
    exact same.not_lt

end Nanograph.Foundation
