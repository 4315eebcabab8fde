import Nanograph.Foundation.SortedEntries

/-!
# Ranges of keys

The two bounds of a range and the entries of a sorted list that lie within them.
A start bound admits everything from some key on, an end bound everything up to
some key, so the entries in range are adjacent.
-/

namespace Nanograph.Foundation

open List

/-- An endpoint of a range of keys. -/
inductive Bound (K : Type) where
  | included (key : K)
  | excluded (key : K)
  | unbounded

variable {K V : Type} [LinearOrder K]

namespace Bound

/-- The key is not before the start bound. -/
def fromStart (bound : Bound K) (key : K) : Bool :=
  match bound with
  | included start => start ≤ key
  | excluded start => start < key
  | unbounded => true

/-- The key is not behind the end bound. -/
def upToEnd (bound : Bound K) (key : K) : Bool :=
  match bound with
  | included last => key ≤ last
  | excluded last => key < last
  | unbounded => true

theorem fromStart_mono {bound : Bound K} {smaller greater : K} (less : smaller < greater)
    (admitted : bound.fromStart smaller = true) : bound.fromStart greater = true := by
  cases bound with
  | included start => simpa [fromStart] using (of_decide_eq_true admitted).trans less.le
  | excluded start => simpa [fromStart] using (of_decide_eq_true admitted).trans less
  | unbounded => rfl

theorem upToEnd_anti {bound : Bound K} {smaller greater : K} (less : smaller < greater)
    (admitted : bound.upToEnd greater = true) : bound.upToEnd smaller = true := by
  cases bound with
  | included last => simpa [upToEnd] using less.le.trans (of_decide_eq_true admitted)
  | excluded last => simpa [upToEnd] using less.trans (of_decide_eq_true admitted)
  | unbounded => rfl

end Bound

/-- The entries between two bounds. -/
def inRange (start last : Bound K) (entries : List (K × V)) : List (K × V) :=
  entries.filter fun entry => start.fromStart entry.1 && last.upToEnd entry.1

/-- The first entries up to an optional limit. -/
def upToLimit (limit : Option Nat) (entries : List (K × V)) : List (K × V) :=
  match limit with
  | none => entries
  | some count => entries.take count

section

variable {entries before after : List (K × V)} {key : K} {held : Option V}

/-- The entries an end bound admits are an initial part. -/
theorem takeWhile_upToEnd (sorted : Sorted entries) (last : Bound K) :
    (entries.takeWhile fun entry => last.upToEnd entry.1) =
      entries.filter fun entry => last.upToEnd entry.1 := by
  induction entries with
  | nil => rfl
  | cons entry rest ih =>
    obtain ⟨first, restSorted⟩ := pairwise_cons.mp sorted
    rw [takeWhile_cons, filter_cons]
    split
    next => rw [ih restSorted]
    next rejected =>
      symm
      rw [filter_eq_nil_iff]
      exact fun other mem admitted =>
        rejected (Bound.upToEnd_anti (first other mem) admitted)

/-- The entries a start bound admits are a final part. -/
theorem filter_fromStart_split (sorted : Sorted entries) (start : Bound K) :
    entries = (entries.filter fun entry => !start.fromStart entry.1) ++
      entries.filter fun entry => start.fromStart entry.1 := by
  induction entries with
  | nil => rfl
  | cons entry rest ih =>
    obtain ⟨first, restSorted⟩ := pairwise_cons.mp sorted
    by_cases admitted : start.fromStart entry.1 = true
    · have all : ∀ other ∈ entry :: rest, start.fromStart other.1 = true :=
        forall_mem_cons.mpr ⟨admitted, fun other mem =>
          Bound.fromStart_mono (first other mem) admitted⟩
      rw [filter_eq_nil_iff.mpr, filter_eq_self.mpr all, nil_append]
      exact fun other mem => by simp [all other mem]
    · have rejected : start.fromStart entry.1 = false := by simpa using admitted
      rw [filter_cons_of_pos (by simp [rejected]), filter_cons_of_neg (by simp [rejected]),
        cons_append, ← ih restSorted]

/-- From the end downwards, the entries in range come before those the start bound
rejects. -/
theorem reverse_upToEnd_split (sorted : Sorted entries) (start last : Bound K) :
    (entries.filter fun entry => last.upToEnd entry.1).reverse =
      (inRange start last entries).reverse ++
        ((entries.filter fun entry => last.upToEnd entry.1).filter fun entry =>
          !start.fromStart entry.1).reverse := by
  have split := filter_fromStart_split
    (sorted.filter fun entry => last.upToEnd entry.1) start
  nth_rewrite 1 [split]
  rw [reverse_append, filter_filter, inRange]

omit [LinearOrder K] in
/-- A limit hides what follows exactly when there is nothing or the limit is reached. -/
theorem upToLimit_append_eq (limit : Option Nat) (front back : List (K × V)) :
    upToLimit limit (front ++ back) = upToLimit limit front ↔
      back = [] ∨ ∃ count, limit = some count ∧ count ≤ front.length := by
  cases limit with
  | none => simp [upToLimit]
  | some count =>
    simp only [upToLimit, take_append, Option.some.injEq, exists_eq_left']
    rw [append_right_eq_self, take_eq_nil_iff]
    have fits : count - front.length = 0 ↔ count ≤ front.length := by omega
    rw [fits, or_comm]

variable (window : Window entries key before held after)

include window

/-- Behind a window at an included start key lie the key itself and what is greater. -/
theorem Window.filter_included :
    (entries.filter fun entry => (Bound.included key).fromStart entry.1) =
      held.toList.map (key, ·) ++ after := by
  rw [window.cut, filter_append, filter_append, filter_eq_nil_iff.mpr,
    filter_eq_self.mpr, filter_eq_self.mpr, nil_append]
  · exact fun entry mem => by simpa [Bound.fromStart] using (window.greater entry mem).le
  · simp [Bound.fromStart]
  · exact fun entry mem => by simpa [Bound.fromStart] using window.smaller entry mem

theorem Window.filter_excluded :
    (entries.filter fun entry => (Bound.excluded key).fromStart entry.1) = after := by
  rw [window.cut, filter_append, filter_append, filter_eq_nil_iff.mpr,
    filter_eq_nil_iff.mpr, filter_eq_self.mpr, nil_append, nil_append]
  · exact fun entry mem => by simpa [Bound.fromStart] using window.greater entry mem
  · simp [Bound.fromStart]
  · exact fun entry mem => by simpa [Bound.fromStart] using (window.smaller entry mem).le

/-- Up to a window at an included end key lie what is smaller and the key itself. -/
theorem Window.filter_upTo_included :
    (entries.filter fun entry => (Bound.included key).upToEnd entry.1) =
      before ++ held.toList.map (key, ·) := by
  rw [window.cut, filter_append, filter_append, filter_eq_self.mpr,
    filter_eq_self.mpr, filter_eq_nil_iff.mpr, append_nil]
  · exact fun entry mem => by simpa [Bound.upToEnd] using window.greater entry mem
  · simp [Bound.upToEnd]
  · exact fun entry mem => by simpa [Bound.upToEnd] using (window.smaller entry mem).le

theorem Window.filter_upTo_excluded :
    (entries.filter fun entry => (Bound.excluded key).upToEnd entry.1) = before := by
  rw [window.cut, filter_append, filter_append, filter_eq_self.mpr,
    filter_eq_nil_iff.mpr, filter_eq_nil_iff.mpr, append_nil, append_nil]
  · exact fun entry mem => by simpa [Bound.upToEnd] using (window.greater entry mem).le
  · simp [Bound.upToEnd]
  · exact fun entry mem => by simpa [Bound.upToEnd] using window.smaller entry mem

end

end Nanograph.Foundation
