import Mathlib

/-!
# Iteration

An iterator answers with an item and its state behind the item, with its end, or with
an error. Iterating goes on to the end or to the first error.
-/

namespace Nanograph.Foundation

variable {σ α ε : Type}

/-- An iterator gives an item and moves on, ends, or fails. -/
abbrev Iterator (σ α ε : Type) := σ → Except ε (Option (α × σ))

namespace Iterator

/-- Iterating from a state gives these items and then stops, at the end or with an error. -/
inductive Yields (next : Iterator σ α ε) : σ → List α → Except ε Unit → Prop
  | ended {state : σ} : next state = .ok none → Yields next state [] (.ok ())
  | failed {state : σ} {error : ε} : next state = .error error → Yields next state [] (.error error)
  | item {state after : σ} {item : α} {rest : List α} {stop : Except ε Unit} :
      next state = .ok (some (item, after)) → Yields next after rest stop →
        Yields next state (item :: rest) stop

/-- The items that at most a number of calls give, and how iterating stopped if it did. -/
def drain (next : Iterator σ α ε) : Nat → σ → List α × Option (Except ε Unit)
  | 0, _ => ([], none)
  | fuel + 1, state =>
    match next state with
    | .ok none => ([], some (.ok ()))
    | .error error => ([], some (.error error))
    | .ok (some (item, after)) =>
      let later := drain next fuel after
      (item :: later.1, later.2)

variable {next : Iterator σ α ε} {state : σ} {items : List α} {stop : Except ε Unit}

/-- Calling an iterator one time more than it has items gives all of them. -/
theorem Yields.drain_eq (yields : Yields next state items stop) {fuel : Nat}
    (enough : items.length < fuel) : drain next fuel state = (items, some stop) := by
  induction yields generalizing fuel with
  | ended ended =>
    obtain ⟨fuel, rfl⟩ := Nat.exists_eq_add_of_lt enough
    simp [drain, ended]
  | failed failed =>
    obtain ⟨fuel, rfl⟩ := Nat.exists_eq_add_of_lt enough
    simp [drain, failed]
  | @item _ _ _ rest _ called _ ih =>
    cases fuel with
    | zero => simp at enough
    | succ fuel =>
      rw [List.length_cons, Nat.add_lt_add_iff_right] at enough
      simp [drain, called, ih enough]

/-- What iterating gives is determined by the state. -/
theorem Yields.unique (yields : Yields next state items stop) {items' : List α}
    {stop' : Except ε Unit} (yields' : Yields next state items' stop') :
    items' = items ∧ stop' = stop := by
  have first := yields.drain_eq (Nat.lt_succ_of_le (Nat.le_add_right _ items'.length))
  have second := yields'.drain_eq (Nat.lt_succ_of_le (Nat.le_add_left _ items.length))
  rw [first] at second
  simpa [eq_comm] using second

/-- The items up to the end or the first error, or `endless` if neither comes within a number of
calls. -/
def collect (next : Iterator σ α ε) (endless : ε) (fuel : Nat) (state : σ) : Except ε (List α) :=
  match drain next fuel state with
  | (items, some (.ok _)) => .ok items
  | (_, some (.error error)) => .error error
  | (_, none) => .error endless

/-- The states that iterating comes to. -/
abbrev Reaches (next : Iterator σ α ε) : σ → σ → Prop :=
  Relation.ReflTransGen fun state after => ∃ item, next state = .ok (some (item, after))

/-- An iterator that gets nearer to its end with every item stops. -/
theorem exists_yields {left : σ → Nat}
    (nearer : ∀ state item after, next state = .ok (some (item, after)) → left after < left state)
    (state : σ) : ∃ items stop, Yields next state items stop ∧ items.length ≤ left state := by
  induction bound : left state using Nat.strong_induction_on generalizing state with
  | _ bound ih =>
    cases called : next state with
    | error error => exact ⟨[], _, .failed called, by simp⟩
    | ok result =>
      cases result with
      | none => exact ⟨[], _, .ended called, by simp⟩
      | some result =>
        have less := nearer state result.1 result.2 called
        obtain ⟨items, stop, yields, few⟩ := ih _ (bound ▸ less) result.2 rfl
        exact ⟨result.1 :: items, stop, .item called yields, by rw [List.length_cons]; omega⟩

/-- Iterating stops with an error exactly if it comes to a state that fails with it. -/
theorem Yields.failed_iff (yields : Yields next state items stop) {error : ε} :
    stop = .error error ↔ ∃ last, Reaches next state last ∧ next last = .error error := by
  induction yields with
  | ended called =>
    refine ⟨nofun, ?_⟩
    rintro ⟨last, reaches, failed⟩
    rcases reaches.cases_head with rfl | ⟨_, ⟨_, moved⟩, -⟩
    · cases called.symm.trans failed
    · cases called.symm.trans moved
  | @failed state _ called =>
    constructor
    · rintro ⟨⟩
      exact ⟨state, .refl, called⟩
    · rintro ⟨last, reaches, failed⟩
      rcases reaches.cases_head with rfl | ⟨_, ⟨_, moved⟩, -⟩
      · cases called.symm.trans failed
        rfl
      · cases called.symm.trans moved
  | item called _ ih =>
    rw [ih]
    refine exists_congr fun last => and_congr_left fun failed => ⟨.head ⟨_, called⟩, ?_⟩
    intro reaches
    rcases reaches.cases_head with rfl | ⟨_, ⟨_, moved⟩, later⟩
    · cases called.symm.trans failed
    · cases called.symm.trans moved
      exact later

/-- With calls enough, collecting fails exactly if iterating comes to a state that fails. -/
theorem collect_eq_error_iff {left : σ → Nat}
    (nearer : ∀ state item after, next state = .ok (some (item, after)) → left after < left state)
    {fuel : Nat} (enough : left state < fuel) (endless error : ε) :
    collect next endless fuel state = .error error ↔
      ∃ last, Reaches next state last ∧ next last = .error error := by
  obtain ⟨items, stop, yields, few⟩ := exists_yields nearer state
  rw [← yields.failed_iff, collect, yields.drain_eq (few.trans_lt enough)]
  cases stop <;> simp

end Iterator

end Nanograph.Foundation
