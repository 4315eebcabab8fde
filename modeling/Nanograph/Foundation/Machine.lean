import Mathlib

/-!
# Machines and their runs

A machine answers every input and moves on to a next state. What holds along a
run is shown one step at a time: an invariant every step keeps, possibly under a
condition on the steps taken, or a relation to another machine that gives the
same answers.
-/

namespace Nanograph.Foundation

open List

/-- A machine answers an input and moves on to a next state. -/
abbrev Machine (σ ι ο : Type) := σ → ι → ο × σ

namespace Machine

variable {σ τ ι ο : Type} (machine : Machine σ ι ο)

/-- The state after a list of inputs. -/
def final (state : σ) : List ι → σ
  | [] => state
  | input :: rest => final (machine state input).2 rest

/-- The answers to a list of inputs. -/
def answers (state : σ) : List ι → List ο
  | [] => []
  | input :: rest => (machine state input).1 :: answers (machine state input).2 rest

/-- Every step of a run meets a condition on its state and its input. -/
def Along (condition : σ → ι → Prop) (state : σ) : List ι → Prop
  | [] => True
  | input :: rest => condition state input ∧ Along condition (machine state input).2 rest

/-- A run is checked step by step. -/
instance Along.decidable (condition : σ → ι → Prop)
    [∀ state input, Decidable (condition state input)] :
    ∀ state inputs, Decidable (machine.Along condition state inputs)
  | _, [] => inferInstanceAs (Decidable True)
  | state, input :: rest =>
    have := Along.decidable condition (machine state input).2 rest
    inferInstanceAs (Decidable (condition state input ∧ _))

variable {machine} {state : σ} {inputs earlier later : List ι} {condition : σ → ι → Prop}

theorem final_append :
    machine.final state (earlier ++ later) = machine.final (machine.final state earlier) later := by
  induction earlier generalizing state with
  | nil => rfl
  | cons input rest ih => exact ih

theorem along_append :
    machine.Along condition state (earlier ++ later) ↔ machine.Along condition state earlier ∧
        machine.Along condition (machine.final state earlier) later := by
  induction earlier generalizing state with
  | nil => simp [Along, final]
  | cons input rest ih =>
    simp only [cons_append, Along, final, ih, and_assoc]

theorem along_of_mem {allowed : ι → Prop} (members : ∀ input ∈ inputs, allowed input) :
    machine.Along (fun _ input => allowed input) state inputs := by
  induction inputs generalizing state with
  | nil => trivial
  | cons input rest ih =>
    rw [forall_mem_cons] at members
    exact ⟨members.1, ih members.2⟩

theorem along_and {other : σ → ι → Prop} :
    machine.Along (fun state input => condition state input ∧ other state input) state inputs ↔
      machine.Along condition state inputs ∧ machine.Along other state inputs := by
  induction inputs generalizing state with
  | nil => simp [Along]
  | cons input rest ih =>
    simp only [Along, ih]
    exact and_and_and_comm

theorem along_of_forall (always : ∀ state input, condition state input) :
    machine.Along condition state inputs := by
  induction inputs generalizing state with
  | nil => trivial
  | cons input rest ih => exact ⟨always state input, ih⟩

section

variable (invariant : σ → Prop) (kept : ∀ state input, invariant state → condition state input →
    invariant (machine state input).2)

include invariant kept

/-- An invariant that every step meeting the condition keeps holds in the last state. -/
theorem invariant_along (initial : invariant state) (along : machine.Along condition state inputs) :
    invariant (machine.final state inputs) := by
  induction inputs generalizing state with
  | nil => exact initial
  | cons input rest ih =>
    exact ih (kept state input initial along.1) along.2

/-- What follows from the invariant and the condition holds of every step. -/
theorem along_imp {other : σ → ι → Prop}
    (implies : ∀ state input, invariant state → condition state input → other state input)
    (initial : invariant state) (along : machine.Along condition state inputs) :
    machine.Along other state inputs := by
  induction inputs generalizing state with
  | nil => trivial
  | cons input rest ih =>
    exact ⟨implies state input initial along.1, ih (kept state input initial along.1) along.2⟩

/-- Conditions that are the same in every state with the invariant hold along the same runs. -/
theorem along_congr {other : σ → ι → Prop}
    (same : ∀ state input, invariant state → (condition state input ↔ other state input))
    (initial : invariant state) :
    machine.Along condition state inputs ↔ machine.Along other state inputs := by
  induction inputs generalizing state with
  | nil => exact Iff.rfl
  | cons input rest ih =>
    rw [Along, Along, ← same state input initial]
    exact and_congr_right fun met => ih (kept state input initial met)

end

/-- A relation between the inputs so far and the state that every step meeting the condition
keeps holds at the end. -/
theorem history_along (related : List ι → σ → Prop)
    (kept : ∀ earlier state input, related earlier state → condition state input →
      related (earlier ++ [input]) (machine state input).2)
    (initial : related earlier state) (along : machine.Along condition state inputs) :
    related (earlier ++ inputs) (machine.final state inputs) := by
  induction inputs generalizing earlier state with
  | nil => rwa [append_nil]
  | cons input rest ih =>
    rw [append_cons]
    exact ih (kept earlier state input initial along.1) along.2

/-- A relation between the answers so far and the state that every step meeting the condition
keeps holds at the end. -/
theorem answers_along (related : List ο → σ → Prop)
    (kept : ∀ earlier state input, related earlier state → condition state input →
      related (earlier ++ [(machine state input).1]) (machine state input).2)
    {earlier : List ο} (initial : related earlier state)
    (along : machine.Along condition state inputs) :
    related (earlier ++ machine.answers state inputs) (machine.final state inputs) := by
  induction inputs generalizing earlier state with
  | nil => rwa [answers, append_nil]
  | cons input rest ih =>
    rw [answers, append_cons]
    exact ih (kept earlier state input initial along.1) along.2

/-- An invariant that every step keeps holds in the last state. -/
theorem invariant (invariant : σ → Prop)
    (kept : ∀ state input, invariant state → invariant (machine state input).2)
    (initial : invariant state) (inputs : List ι) : invariant (machine.final state inputs) := by
  induction inputs generalizing state with
  | nil => exact initial
  | cons input rest ih =>
    exact ih (kept state input initial)

/-- When a step meets the condition exactly if the state behind it is good, a run
meets the condition exactly if all its states are good. -/
theorem along_iff_prefixes (invariant good : σ → Prop)
    (sound : ∀ state, invariant state → good state)
    (kept : ∀ state input, invariant state → condition state input →
      invariant (machine state input).2)
    (exact : ∀ state input, invariant state → good (machine state input).2 → condition state input)
    (initial : invariant state) :
    machine.Along condition state inputs ↔
      ∀ earlier, earlier <+: inputs → good (machine.final state earlier) := by
  constructor
  · rintro along earlier ⟨later, rfl⟩
    exact sound _ (invariant_along invariant kept initial (along_append.mp along).1)
  · intro allGood
    induction inputs generalizing state with
    | nil => trivial
    | cons input rest ih =>
      have met := exact state input initial (allGood [input] (by simp))
      refine ⟨met, ih (kept state input initial met) fun earlier isPrefix => ?_⟩
      exact allGood (input :: earlier) (by simpa using isPrefix)

/-- When a step meets the condition exactly if it leaves what is observed as it was, a run
meets the condition exactly if the same is observed in all its states. -/
theorem along_iff_constant {α : Type} (observe : σ → α) {assumed : σ → ι → Prop}
    (invariant : σ → Prop)
    (kept : ∀ state input, invariant state → assumed state input →
      invariant (machine state input).2)
    (exact : ∀ state input, invariant state → assumed state input →
      (condition state input ↔ observe (machine state input).2 = observe state))
    (initial : invariant state) (along : machine.Along assumed state inputs) :
    machine.Along condition state inputs ↔
      ∀ earlier, earlier <+: inputs → observe (machine.final state earlier) = observe state := by
  induction inputs generalizing state with
  | nil =>
    refine iff_of_true trivial fun earlier isPrefix => ?_
    rw [prefix_nil.mp isPrefix]
    rfl
  | cons input rest ih =>
    have restIff := ih (kept state input initial along.1) along.2
    rw [Along, exact state input initial along.1, restIff]
    constructor
    · rintro ⟨same, later⟩ earlier isPrefix
      cases earlier with
      | nil => rfl
      | cons first others =>
        obtain ⟨rfl, behind⟩ := cons_prefix_cons.mp isPrefix
        exact (later others behind).trans same
    · intro always
      have same := always [input] (by simp)
      refine ⟨same, fun earlier isPrefix => ?_⟩
      exact (always (input :: earlier) (by simpa using isPrefix)).trans same.symm

/-- Two machines in related states that answer alike and stay related as long as a
condition is met give the same answers along a run that meets it. -/
theorem simulates_along {other : Machine τ ι ο} (related : σ → τ → Prop)
    (agrees : ∀ state image input, related state image → condition state input →
      (machine state input).1 = (other image input).1 ∧
        related (machine state input).2 (other image input).2)
    {image : τ} (initial : related state image) (along : machine.Along condition state inputs) :
    machine.answers state inputs = other.answers image inputs ∧
      related (machine.final state inputs) (other.final image inputs) := by
  induction inputs generalizing state image with
  | nil => exact ⟨rfl, initial⟩
  | cons input rest ih =>
    obtain ⟨same, next⟩ := agrees state image input initial along.1
    obtain ⟨answers, last⟩ := ih next along.2
    exact ⟨by rw [Machine.answers, Machine.answers, same, answers], last⟩

/-- Two machines in related states that answer alike and stay related give the same
answers along a run. -/
theorem simulates {other : Machine τ ι ο} (related : σ → τ → Prop)
    (agrees : ∀ state image input, related state image →
      (machine state input).1 = (other image input).1 ∧
        related (machine state input).2 (other image input).2)
    {image : τ} (initial : related state image) (inputs : List ι) :
    machine.answers state inputs = other.answers image inputs ∧
      related (machine.final state inputs) (other.final image inputs) := by
  have always : machine.Along (fun _ _ => True) state inputs := along_of_forall fun _ _ => trivial
  exact simulates_along related (fun state image input holds _ => agrees state image input holds)
    initial always

end Machine

end Nanograph.Foundation
