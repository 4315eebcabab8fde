import Nanograph.Foundation.Effect

/-!
# Work done in groups

Items with a target each are collected into one list for every target, and the lists are
worked off one target after the other. Each target sees its own items in their order, so the
result is the one of working through the items one by one, whatever the order of the targets.
-/

namespace Nanograph.Foundation

open List Function

/-- The order in which the entries of a hash map are visited. -/
structure VisitOrder (α : Type) where
  visit : List α → List α
  perm : ∀ items, (visit items).Perm items

/-- Entries visited as they are listed. -/
def VisitOrder.asListed {α : Type} : VisitOrder α := ⟨id, fun _ => .refl _⟩

variable {κ α σ : Type} [DecidableEq κ]

def addToGroup (target : κ) (item : α) : List (κ × List α) → List (κ × List α)
  | [] => [(target, [item])]
  | (other, items) :: rest =>
    if other = target then (other, items ++ [item]) :: rest
    else (other, items) :: addToGroup target item rest

/-- The items of each target. -/
def grouped (items : List (κ × α)) : List (κ × List α) :=
  items.foldl (fun groups item => addToGroup item.1 item.2 groups) []

def itemsOf (items : List (κ × α)) (target : κ) : List α :=
  (items.filter (·.1 = target)).map (·.2)

variable (order : VisitOrder (κ × List α)) (groups : List (κ × List α)) (items : List (κ × α))
  (target : κ)

theorem itemsOf_cons_self (item : α) (items : List (κ × α)) :
    itemsOf ((target, item) :: items) target = item :: itemsOf items target := by
  simp [itemsOf]

theorem itemsOf_cons_of_ne {target other : κ} {item : α} {items : List (κ × α)}
    (differs : target ≠ other) : itemsOf ((other, item) :: items) target = itemsOf items target := by
  simp [itemsOf, differs.symm]

/-- Let the items act on their targets one by one. -/
def runEach (act : σ → α → σ) (states : κ → σ) (items : List (κ × α)) : κ → σ :=
  items.foldl
    (fun states item => update states item.1 (act (states item.1) item.2)) states

/-- Let the items of each group act on its target. -/
def runGroups (act : σ → α → σ) (states : κ → σ) (groups : List (κ × List α)) : κ → σ :=
  groups.foldl
    (fun states group => update states group.1 (group.2.foldl act (states group.1)))
    states

section

variable {target : κ} {item : α} {groups : List (κ × List α)}

theorem mem_keys_addToGroup {other : κ} :
    other ∈ (addToGroup target item groups).map (·.1) ↔
      other = target ∨ other ∈ groups.map (·.1) := by
  induction groups with
  | nil => simp [addToGroup]
  | cons group rest ih =>
    rw [addToGroup]
    split
    next same => simp [same]
    next =>
      rw [map_cons, mem_cons, ih, map_cons, mem_cons]
      tauto

/-- Every target has one group. -/
theorem nodup_addToGroup (distinct : (groups.map (·.1)).Nodup) :
    ((addToGroup target item groups).map (·.1)).Nodup := by
  induction groups with
  | nil => exact nodup_singleton _
  | cons group rest ih =>
    rw [map_cons, nodup_cons] at distinct
    rw [addToGroup]
    split
    next => exact nodup_cons.mpr distinct
    next differs =>
      refine nodup_cons.mpr ⟨fun mem => ?_, ih distinct.2⟩
      rcases mem_keys_addToGroup.mp mem with same | inRest
      · exact differs same
      · exact distinct.1 inRest

/-- The items collected for a target. -/
def collected (groups : List (κ × List α)) (target : κ) : List α :=
  (groups.filter (·.1 = target)).flatMap (·.2)

theorem collected_addToGroup (distinct : (groups.map (·.1)).Nodup) (wanted : κ) :
    collected (addToGroup target item groups) wanted =
      collected groups wanted ++ if target = wanted then [item] else [] := by
  induction groups with
  | nil => by_cases hit : target = wanted <;> simp [addToGroup, collected, hit]
  | cons group rest ih =>
    obtain ⟨other, items⟩ := group
    rw [map_cons, nodup_cons] at distinct
    rw [addToGroup]
    split
    next same =>
      subst same
      by_cases hit : other = wanted
      · -- the group of the target is the only one with its key
        have none : rest.filter (·.1 = wanted) = [] := by
          refine filter_eq_nil_iff.mpr fun group mem => ?_
          have inRest := mem_map_of_mem (f := (·.1)) mem
          simp only [decide_eq_true_eq]
          rintro rfl
          exact distinct.1 (hit ▸ inRest)
        simp [collected, hit, none]
      · simp [collected, hit]
    next =>
      have rest := ih distinct.2
      by_cases hit : other = wanted <;> simp [collected, hit] at rest ⊢ <;> simp [rest]

theorem length_filter_key_le (distinct : (groups.map (·.1)).Nodup) (target : κ) :
    (groups.filter (·.1 = target)).length ≤ 1 := by
  have all : (groups.filter (·.1 = target)).map (·.1) =
      List.replicate (groups.filter (·.1 = target)).length target := by
    refine eq_replicate_iff.mpr ⟨length_map _, fun key mem => ?_⟩
    obtain ⟨group, inGroups, rfl⟩ := mem_map.mp mem
    simpa using (mem_filter.mp inGroups).2
  have apart : ((groups.filter (·.1 = target)).map (·.1)).Nodup :=
    distinct.sublist (List.Sublist.map _ filter_sublist)
  rw [all] at apart
  exact nodup_replicate.mp apart

/-- A group has all the items collected for its target. -/
theorem collected_of_mem (distinct : (groups.map (·.1)).Nodup) {group : κ × List α}
    (mem : group ∈ groups) : collected groups group.1 = group.2 := by
  have hit : group ∈ groups.filter (·.1 = group.1) := mem_filter.mpr ⟨mem, by simp⟩
  have few := length_filter_key_le distinct group.1
  obtain ⟨only, single⟩ := length_eq_one_iff.mp
    (le_antisymm few (length_pos_of_mem hit))
  rw [single, mem_singleton] at hit
  rw [collected, single, ← hit]
  simp

/-- All groups of a list of items, and the items in each. -/
theorem grouped_spec :
    ((grouped items).map (·.1)).Nodup ∧
      ∀ target, collected (grouped items) target = itemsOf items target := by
  induction items using List.reverseRecOn with
  | nil => exact ⟨nodup_nil, fun _ => rfl⟩
  | append_singleton items item ih =>
    obtain ⟨distinct, collects⟩ := ih
    have step : grouped (items ++ [item]) = addToGroup item.1 item.2 (grouped items) := by
      rw [grouped, foldl_append]
      rfl
    rw [step]
    refine ⟨nodup_addToGroup distinct, fun target => ?_⟩
    rw [collected_addToGroup distinct, collects, itemsOf, itemsOf, filter_append, map_append]
    by_cases hit : item.1 = target <;> simp [hit]

theorem mem_keys_grouped {items : List (κ × α)} {target : κ} :
    target ∈ (grouped items).map (·.1) ↔ target ∈ items.map (·.1) := by
  induction items using List.reverseRecOn with
  | nil => rfl
  | append_singleton items item ih =>
    rw [grouped, foldl_append, foldl_cons, foldl_nil, mem_keys_addToGroup, ← grouped, ih,
      map_append, mem_append, map_singleton, mem_singleton, or_comm]

/-- What holds of the targets of all groups holds of the targets of all items. -/
theorem forall_keys_grouped {items : List (κ × α)} (holds : κ → Prop) :
    (∀ group ∈ grouped items, holds group.1) ↔ ∀ item ∈ items, holds item.1 := by
  have onKeys : ∀ {β : Type} (pairs : List (κ × β)),
      (∀ pair ∈ pairs, holds pair.1) ↔ ∀ key ∈ pairs.map (·.1), holds key := by
    simp
  rw [onKeys, onKeys]
  simp only [mem_keys_grouped]

end

theorem eq_of_perm_of_length_le_one {items others : List α} (perm : items.Perm others)
    (few : others.length ≤ 1) : items = others := by
  cases others with
  | nil => exact perm.eq_nil
  | cons first rest =>
    obtain rfl : rest = [] := eq_nil_of_length_eq_zero (by simpa using few)
    exact perm_singleton.mp perm

/-- A target has the same items in whatever order the groups are visited. -/
theorem collected_visit {groups : List (κ × List α)} (distinct : (groups.map (·.1)).Nodup)
    (target : κ) : collected (order.visit groups) target = collected groups target := by
  have perm := (order.perm groups).filter (·.1 = target)
  have few := length_filter_key_le distinct target
  rw [collected, collected, eq_of_perm_of_length_le_one perm few]

/-- The groups of a map from targets to items. -/
theorem collected_entries (map : AList fun _ : κ => List α) (target : κ) :
    collected (map.entries.map fun entry => (entry.1, entry.2)) target =
      (map.lookup target).getD [] := by
  obtain ⟨entries, distinct⟩ := map
  rw [AList.lookup]
  induction entries with
  | nil => rfl
  | cons entry rest ih =>
    obtain ⟨other, items⟩ := entry
    have later := ih (nodupKeys_cons.mp distinct).2
    by_cases hit : other = target
    · subst hit
      have absent : List.dlookup other rest = none :=
        dlookup_eq_none.mpr (nodupKeys_cons.mp distinct).1
      rw [absent] at later
      simpa [collected, dlookup_cons_eq] using later
    · rw [dlookup_cons_ne _ _ (Ne.symm hit)]
      simpa [collected, hit] using later

section

variable (act : σ → α → σ) (states : κ → σ)

/-- One by one, each target sees its own items. -/
theorem runEach_apply :
    runEach act states items target = (itemsOf items target).foldl act (states target) := by
  induction items generalizing states with
  | nil => rfl
  | cons item rest ih =>
    refine (ih _).trans ?_
    by_cases hit : item.1 = target
    · subst hit
      simp [itemsOf]
    · simp [itemsOf, hit, update_of_ne (Ne.symm hit)]

theorem runGroups_apply :
    runGroups act states groups target = (collected groups target).foldl act (states target) := by
  induction groups generalizing states with
  | nil => rfl
  | cons group rest ih =>
    refine (ih _).trans ?_
    by_cases hit : group.1 = target
    · subst hit
      simp [collected]
    · simp [collected, hit, update_of_ne (Ne.symm hit)]

/-- In whatever order the groups are visited, the result is the one of the items one by one. -/
theorem runGroups_visit :
    runGroups act states (order.visit (grouped items)) = runEach act states items := by
  funext target
  obtain ⟨distinct, collects⟩ := grouped_spec items
  rw [runGroups_apply, runEach_apply, collected_visit order distinct, collects]

end

section

variable {ε : Type} {states next : κ → σ}

/-- Run a computation on the state of a target. -/
def onTarget {β : Type} (target : κ) (run : EStateM ε σ β) : EStateM ε (κ → σ) β := fun states =>
  match run (states target) with
  | .ok value state => .ok value (update states target state)
  | .error fault state => .error fault (update states target state)

theorem onTarget_eq_ok {β : Type} {target : κ} {run : EStateM ε σ β} {value : β} :
    onTarget target run states = .ok value next ↔ ∃ state, run (states target) = .ok value state ∧
        next = update states target state := by
  rw [onTarget]
  cases run (states target) <;> simp [eq_comm]

/-- The items of all groups, each with its target. -/
def ungrouped (groups : List (κ × List α)) : List (κ × α) :=
  groups.flatMap fun group => group.2.map (group.1, ·)

theorem itemsOf_ungrouped : itemsOf (ungrouped groups) target = collected groups target := by
  induction groups with
  | nil => rfl
  | cons group rest ih =>
    rw [ungrouped, flatMap_cons, itemsOf, filter_append, map_append]
    refine (congrArg _ ih).trans ?_
    by_cases hit : group.1 = target <;> simp [collected, hit, filter_map, comp_def]

omit [DecidableEq κ] in
theorem forM_ungrouped {m : Type → Type} [Monad m] [LawfulMonad m] (run : κ × α → m PUnit)
    (groups : List (κ × List α)) :
    forM (ungrouped groups) run =
      forM groups fun group => forM group.2 fun item => run (group.1, item) := by
  induction groups with
  | nil => rfl
  | cons group rest ih =>
    rw [ungrouped, flatMap_cons, forM_append, forM_map, forM_cons]
    exact congrArg _ (funext fun _ => ih)

/-- Working through the items succeeds exactly if each target succeeds with its own. -/
theorem forM_onTarget_eq_ok (act : κ → α → EStateM ε σ PUnit) (items : List (κ × α)) :
    (forM items fun item => onTarget item.1 (act item.1 item.2)) states = .ok ⟨⟩ next ↔
      ∀ target, forM (itemsOf items target) (act target) (states target) =
        .ok ⟨⟩ (next target) := by
  induction items generalizing states with
  | nil => simp [itemsOf, pure, EStateM.pure, funext_iff]
  | cons item rest ih =>
    rw [forM_cons, bind_eq_ok]
    simp only [onTarget_eq_ok, ih]
    obtain ⟨own, item⟩ := item
    constructor
    · rintro ⟨⟨⟩, middle, ⟨state, ran, rfl⟩, all⟩ target
      by_cases hit : target = own
      · subst hit
        rw [itemsOf_cons_self, forM_cons, bind_ok ran]
        simpa using all target
      · rw [itemsOf_cons_of_ne hit]
        simpa [hit] using all target
    · intro all
      have mine := all own
      rw [itemsOf_cons_self, forM_cons, bind_eq_ok] at mine
      obtain ⟨⟨⟩, state, ran, later⟩ := mine
      refine ⟨⟨⟩, _, ⟨state, ran, rfl⟩, fun target => ?_⟩
      by_cases hit : target = own
      · subst hit
        simpa using later
      · simpa [hit, itemsOf_cons_of_ne hit] using all target

end

end Nanograph.Foundation
