import Mathlib

/-!
# Names joined by a separator

A list of names is written as one text with a separator between them, and a text is cut at the
separators, where nothing is kept between two separators that stand together. Names that are
not empty and do not contain the separator are read back from their text.
-/

namespace Nanograph.Foundation

open List

variable {α : Type} (separator : α)

/-- The text of names. -/
def joined (names : List (List α)) : List α := [separator].intercalate names

/-- Names that are read back: not empty and without the separator. -/
def Plain (names : List (List α)) : Prop := ∀ name ∈ names, name ≠ [] ∧ separator ∉ name

/-- The names of a text. -/
def pieces [DecidableEq α] (text : List α) : List (List α) :=
  (text.splitOn separator).filter (· ≠ [])

variable {separator} {names others : List (List α)} {text : List α}

theorem plain_append : Plain separator (names ++ others) ↔
    Plain separator names ∧ Plain separator others := by
  simp only [Plain, forall_mem_append]

@[simp] theorem joined_nil : joined separator [] = [] := rfl

@[simp] theorem joined_singleton (name : List α) : joined separator [name] = name :=
  intercalate_singleton

theorem joined_cons (first : List α) (more : others ≠ []) :
    joined separator (first :: others) = first ++ separator :: joined separator others := by
  rw [joined, intercalate_cons_of_ne_nil more, append_assoc]
  rfl

/-- The text of names that go on. -/
theorem joined_append (some : names ≠ []) (more : others ≠ []) :
    joined separator (names ++ others) =
      joined separator names ++ separator :: joined separator others := by
  induction names with
  | nil => exact absurd rfl some
  | cons first rest ih =>
    rw [cons_append, joined_cons first (by simp [more])]
    cases rest with
    | nil => simp
    | cons second rest =>
      rw [ih (cons_ne_nil second rest),
        joined_cons first (cons_ne_nil second rest), append_assoc, cons_append]

/-- How texts of names go on when the names do. -/
theorem exists_joined_append (separator : α) (rest : List (List α)) :
    ∃ text, (text = [] ∨ [separator] <+: text) ∧ ∀ names, names ≠ [] →
      joined separator (names ++ rest) = joined separator names ++ text := by
  by_cases none : rest = []
  · exact ⟨[], .inl rfl, by simp [none]⟩
  · exact ⟨separator :: joined separator rest, .inr ⟨_, rfl⟩, fun names some =>
      joined_append some none⟩

theorem joined_ne_nil (plain : Plain separator names) (some : names ≠ []) :
    joined separator names ≠ [] := by
  obtain ⟨first, rest, rfl⟩ := exists_cons_of_ne_nil some
  by_cases last : rest = []
  · subst last
    simpa using (plain first mem_cons_self).1
  · simp [joined_cons first last]

variable [DecidableEq α]

theorem pieces_joined (plain : Plain separator names) :
    pieces separator (joined separator names) = names := by
  rw [pieces, joined]
  by_cases empty : names = []
  · subst empty
    rfl
  · rw [splitOn_intercalate separator (fun name mem => (plain name mem).2) empty]
    exact filter_eq_self.mpr fun name mem => by simpa using (plain name mem).1

theorem joined_injective (plain : Plain separator names) (plain' : Plain separator others)
    (same : joined separator names = joined separator others) : names = others := by
  rw [← pieces_joined plain, same, pieces_joined plain']

theorem not_mem_of_mem_splitOn {name : List α} (mem : name ∈ text.splitOn separator) :
    separator ∉ name := by
  induction text generalizing name with
  | nil =>
    rw [splitOn_nil, mem_singleton] at mem
    subst mem
    exact not_mem_nil
  | cons first rest ih =>
    rw [splitOn_cons_eq_if_modifyHead] at mem
    split at mem
    next =>
      rcases mem_cons.mp mem with rfl | later
      · exact not_mem_nil
      · exact ih later
    next differs =>
      cases cut : rest.splitOn separator with
      | nil => simp [cut] at mem
      | cons head tail =>
        simp only [cut, modifyHead_cons] at mem ih
        rcases mem_cons.mp mem with rfl | later
        · rw [mem_cons, not_or]
          refine ⟨fun same => differs ?_, ih mem_cons_self⟩
          simp [same]
        · exact ih (mem_cons_of_mem _ later)

/-- The names of a text are plain. -/
theorem plain_pieces (text : List α) : Plain separator (pieces separator text) := by
  intro name mem
  obtain ⟨inText, notEmpty⟩ := mem_filter.mp mem
  exact ⟨by simpa using notEmpty, not_mem_of_mem_splitOn inText⟩

theorem pieces_append_separator (text rest : List α) :
    pieces separator (text ++ separator :: rest) =
      pieces separator text ++ pieces separator rest := by
  rw [pieces, splitOn_append_cons_self, filter_append]
  rfl

/-- A text goes on behind a separator exactly when the names go on. -/
theorem joined_separator_prefix (plain : Plain separator names) (plain' : Plain separator others)
    (some : names ≠ []) :
    joined separator names ++ [separator] <+: joined separator others ↔
      ∃ rest, rest ≠ [] ∧ others = names ++ rest := by
  constructor
  · rintro ⟨text, whole⟩
    rw [append_assoc, singleton_append] at whole
    have cut := pieces_joined plain'
    rw [← whole, pieces_append_separator, pieces_joined plain] at cut
    refine ⟨pieces separator text, fun none => ?_, cut.symm⟩
    rw [none, append_nil] at cut
    rw [cut] at whole
    simpa using congrArg List.length whole
  · rintro ⟨rest, more, rfl⟩
    rw [joined_append some more]
    exact ⟨joined separator rest, by simp⟩

end Nanograph.Foundation
