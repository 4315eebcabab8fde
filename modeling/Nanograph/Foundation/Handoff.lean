import Mathlib

/-!
# Values that are handed on from place to place

A value lives in one of three places, the newest place first. Writers put values
into the first place, and from there they are handed on to the second and to the
third. A reader looks at the places one after the other, in the order in which the
values move, and others may move values between its looks. It still finds a value
that was held at some moment of its search.
-/

namespace Nanograph.Foundation

open Option

/-- What is in the three places of a value. -/
structure Places (ν : Type) where
  active : Option ν
  passing : Option ν
  stored : Option ν

namespace Places

variable {ν : Type}

/-- What is behind the first place. -/
def behind (places : Places ν) : Option ν := places.passing.or places.stored

/-- The value that is held: the one in the newest place. -/
def held (places : Places ν) : Option ν := places.active.or places.behind

/-- How the places change, and the value that is written when they do. -/
inductive Move : Option ν → Places ν → Places ν → Prop
  | write (places : Places ν) (value : ν) :
      Move (some value) places { places with active := some value }
  | swap (places : Places ν) (free : places.passing = none) :
      Move none places ⟨none, places.active, places.stored⟩
  | store (places : Places ν) : Move none places { places with stored := places.behind }
  | clear (places : Places ν) (kept : places.behind = places.stored) :
      Move none places { places with passing := none }
  | stay (places : Places ν) : Move none places places

namespace Move

variable {written : Option ν} {before after : Places ν}

section

variable (move : Move written before after)

include move

/-- Only a write changes what is held. -/
theorem held_eq : after.held = written.or before.held := by
  cases move with
  | write _ value => rfl
  | swap _ free => simp [held, behind, free]
  | store _ => simp [held, behind, ← Option.or_assoc]
  | clear _ kept =>
    rw [none_or, held, held, kept]
    rfl
  | stay _ => rfl

/-- What is behind the first place was there before, or was held before. -/
theorem behind_eq : after.behind = before.behind ∨ after.behind = before.held := by
  cases move with
  | write _ value => exact .inl rfl
  | swap _ free =>
    simp [held, behind, free]
  | store _ =>
    simp [behind, ← Option.or_assoc]
  | clear _ kept =>
    left
    rw [kept]
    rfl
  | stay _ => exact .inl rfl

/-- What is in the last place was there before, or was behind the first one. -/
theorem stored_eq : after.stored = before.stored ∨ after.stored = before.behind := by
  cases move with
  | store _ => exact .inr rfl
  | write | swap | clear | stay _ => exact .inl rfl

end

end Move

section

variable {place : Nat → Places ν} {first second third : Nat}

/-- What is watched at the end was passed on to it at some moment between, if it was what could
be passed on at the beginning and changes only by being passed on. -/
theorem exists_passed {watched passed : Places ν → Option ν}
    (changes : ∀ {written before after}, Move written before after →
      watched after = watched before ∨ watched after = passed before) (le : first ≤ third)
    (moves : ∀ index, first ≤ index → index < third →
      ∃ written, Move written (place index) (place (index + 1)))
    (initial : passed (place first) = watched (place first)) :
    ∃ index, first ≤ index ∧ index ≤ third ∧ passed (place index) = watched (place third) := by
  induction third, le using Nat.le_induction with
  | base => exact ⟨first, le_rfl, le_rfl, initial⟩
  | succ third le ih =>
    obtain ⟨written, move⟩ := moves third le (Nat.lt_succ_self third)
    rcases changes move with same | wasPassed
    · obtain ⟨index, after, before, found⟩ := ih fun index after before =>
        moves index after (before.trans (Nat.lt_succ_self third))
      exact ⟨index, after, before.trans (Nat.le_succ third), found.trans same.symm⟩
    · exact ⟨third, le, Nat.le_succ third, wasPassed.symm⟩

/-- Three looks at the places, one after the other, find a value that was held between the
first and the last one. -/
theorem exists_held_eq_read (le : first ≤ second) (le' : second ≤ third)
    (moves : ∀ index, first ≤ index → index < third →
      ∃ written, Move written (place index) (place (index + 1))) :
    ∃ index, first ≤ index ∧ index ≤ third ∧ (place index).held =
        (place first).active.or ((place second).passing.or (place third).stored) := by
  cases active : (place first).active with
  | some value => exact ⟨first, le_rfl, le.trans le', by rw [held, active]; rfl⟩
  | none =>
    -- what the second or the third look finds was behind the first place at some moment
    have wasBehind : ∃ moment, second ≤ moment ∧ moment ≤ third ∧
        (place moment).behind = (place second).passing.or (place third).stored := by
      cases passing : (place second).passing with
      | some value => exact ⟨second, le_rfl, le', by rw [behind, passing]; rfl⟩
      | none =>
        refine exists_passed Move.stored_eq le' ?_ (by rw [behind, passing, none_or])
        intro index after before
        exact moves index (le.trans after) before
    obtain ⟨moment, atLeast, atMost, found⟩ := wasBehind
    obtain ⟨index, after, before, wasHeld⟩ := exists_passed Move.behind_eq (le.trans atLeast)
      (fun index after before => moves index after (before.trans_le atMost))
      (by rw [held, active, none_or])
    exact ⟨index, after, before.trans atMost, wasHeld.trans found⟩

end

end Places

end Nanograph.Foundation
