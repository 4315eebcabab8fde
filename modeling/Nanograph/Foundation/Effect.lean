import Mathlib

/-!
# What a computation keeps

A computation with state ends with a result or with a failure, and leaves a state
in both cases. A property of the state that every part of a computation keeps is
kept by the whole.
-/

namespace Nanograph.Foundation

variable {ε σ α β : Type}

/-- The state a computation leaves, with a result or without. -/
def stateOf : EStateM.Result ε σ α → σ
  | .ok _ state => state
  | .error _ state => state

@[simp] theorem stateOf_ok (value : α) (state : σ) :
    stateOf (.ok value state : EStateM.Result ε σ α) = state := rfl

@[simp] theorem stateOf_error (fault : ε) (state : σ) :
    stateOf (.error fault state : EStateM.Result ε σ α) = state := rfl

/-- A computation ended with a result. -/
def succeeded : EStateM.Result ε σ α → Bool
  | .ok _ _ => true
  | .error _ _ => false

theorem eq_ok_of_succeeded {result : EStateM.Result ε σ Unit} (success : succeeded result = true) :
    result = .ok () (stateOf result) := by
  cases result with
  | ok => rfl
  | error => cases success

section

variable {state next : σ} {first : EStateM ε σ α} {rest : α → EStateM ε σ β}

theorem bind_ok {value : α} (ran : first state = .ok value next) :
    (first >>= rest) state = rest value next := by
  simp only [bind, EStateM.bind, ran]

theorem bind_error {fault : ε} (failed : first state = .error fault next) :
    (first >>= rest) state = .error fault next := by
  simp only [bind, EStateM.bind, failed]

/-- A sequence that succeeds succeeds in both parts. -/
theorem bind_eq_ok {result : β} {last : σ} :
    (first >>= rest) state = .ok result last ↔
      ∃ value middle, first state = .ok value middle ∧ rest value middle = .ok result last := by
  cases ran : first state with
  | ok value middle => simp [bind_ok ran]
  | error fault middle => simp [bind_error ran]

theorem run_modifyGet (change : σ → α × σ) :
    (modifyGet change : EStateM ε σ α) state = .ok (change state).1 (change state).2 := rfl

theorem modify_bind (change : σ → σ) (after : PUnit → EStateM ε σ β) :
    (modify change >>= after) state = after ⟨⟩ (change state) := rfl

theorem set_bind (next : σ) (after : PUnit → EStateM ε σ β) :
    (set next >>= after) state = after ⟨⟩ next := rfl

theorem get_bind (read : σ → EStateM ε σ β) :
    (MonadState.get >>= read) state = read state state := rfl

end

/-- A final result does not change the state. -/
theorem stateOf_bind_pure (first : EStateM ε σ α) (wrap : α → β) (state : σ) :
    stateOf ((first >>= fun value => pure (wrap value)) state) = stateOf (first state) := by
  cases ran : first state with
  | ok value next => rw [bind_ok ran]; rfl
  | error fault next => rw [bind_error ran]; rfl

/-- A computation that succeeds on every item succeeds on all of them. -/
theorem mapM_ok {run : α → Except ε β} {value : α → β} {items : List α}
    (each : ∀ item ∈ items, run item = .ok (value item)) :
    items.mapM run = .ok (items.map value) := by
  induction items with
  | nil => rfl
  | cons item rest ih =>
    rw [List.forall_mem_cons] at each
    rw [List.mapM_cons, each.1, ih each.2]
    rfl

/-- A computation keeps a property of the state, with a result or without. -/
def Keeps (kept : σ → Prop) (run : EStateM ε σ α) : Prop :=
  ∀ state, kept state → kept (stateOf (run state))

section

variable {kept : σ → Prop}

theorem keeps_pure (value : α) : Keeps kept (pure value : EStateM ε σ α) :=
  fun _ holds => holds

theorem keeps_throw (fault : ε) : Keeps kept (throw fault : EStateM ε σ α) :=
  fun _ holds => holds

theorem keeps_modify {change : σ → σ} (keeps : ∀ state, kept state → kept (change state)) :
    Keeps kept (modify change : EStateM ε σ PUnit) :=
  keeps

/-- Both parts of a sequence keep the property. -/
theorem keeps_bind {first : EStateM ε σ α} {rest : α → EStateM ε σ β}
    (firstKeeps : Keeps kept first) (restKeeps : ∀ value, Keeps kept (rest value)) :
    Keeps kept (first >>= rest) := by
  intro state holds
  have middle := firstKeeps state holds
  simp only [bind, EStateM.bind]
  cases ran : first state with
  | ok value next => exact restKeeps value next (by rwa [ran] at middle)
  | error fault next => rwa [ran] at middle

/-- A computation that first reads the state. -/
theorem keeps_get_bind {rest : σ → EStateM ε σ β}
    (keeps : ∀ state, kept state → kept (stateOf (rest state state))) :
    Keeps kept (MonadState.get >>= rest) :=
  keeps

theorem keeps_ite {condition : Prop} [Decidable condition] {yes no : EStateM ε σ α}
    (yesKeeps : Keeps kept yes) (noKeeps : Keeps kept no) :
    Keeps kept (if condition then yes else no) := by
  split
  · exact yesKeeps
  · exact noKeeps

end

end Nanograph.Foundation
