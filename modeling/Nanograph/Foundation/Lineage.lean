import Mathlib

/-!
# Forests of named nodes

Every node of a forest has a name and at most one parent. The lineage of a node is the list of
the names from its root down to it. Nodes are added, removed when nothing hangs below them, and
moved with all that hangs below them; each time it is said which lineages change and how.
-/

namespace Nanograph.Foundation

open List Function

/-- The name and the parent of each node. -/
abbrev Forest (κ ν : Type) := κ → Option (ν × Option κ)

namespace Forest

variable {κ ν : Type}

/-- The names from the root down to a node. -/
inductive Lineage (forest : Forest κ ν) : κ → List ν → Prop where
  | root {node : κ} {name : ν} (found : forest node = some (name, none)) :
      Lineage forest node [name]
  | child {node parent : κ} {name : ν} {names : List ν}
      (found : forest node = some (name, some parent)) (above : Lineage forest parent names) :
      Lineage forest node (names ++ [name])

def IsChild (forest : Forest κ ν) (node parent : κ) : Prop :=
  ∃ name, forest node = some (name, some parent)

/-- A node is another one or hangs below it. -/
def Below (forest : Forest κ ν) : κ → κ → Prop := Relation.ReflTransGen (IsChild forest)

variable {forest other : Forest κ ν} {node : κ} {names names' : List ν}

theorem Lineage.ne_nil (lineage : Lineage forest node names) : names ≠ [] := by
  cases lineage <;> simp

theorem Lineage.live (lineage : Lineage forest node names) : forest node ≠ none := by
  cases lineage with
  | root found => simp [found]
  | child found above => simp [found]

theorem Lineage.unique (first : Lineage forest node names) (second : Lineage forest node names') :
    names = names' := by
  induction first generalizing names' with
  | root found =>
    cases second with
    | root found' =>
      cases found.symm.trans found'
      rfl
    | child found' above' => simp [found] at found'
  | child found above ih =>
    cases second with
    | root found' => simp [found] at found'
    | child found' above' =>
      cases found.symm.trans found'
      rw [ih above']

section

variable (lineage : Lineage forest node names)

include lineage

/-- A node of a lineage has its parent's lineage in front of its own name. -/
theorem Lineage.of_isChild {parent : κ} (isChild : IsChild forest node parent) :
    ∃ above name, names = above ++ [name] ∧ Lineage forest parent above := by
  obtain ⟨name, found⟩ := isChild
  cases lineage with
  | root found' => simp [found] at found'
  | child found' above =>
    cases found.symm.trans found'
    exact ⟨_, _, rfl, above⟩

/-- What hangs below a node has a lineage that starts with the one of the node. -/
theorem Lineage.of_below {ancestor : κ} (below : Below forest node ancestor) :
    ∃ above rest, names = above ++ rest ∧ Lineage forest ancestor above := by
  induction below using Relation.ReflTransGen.head_induction_on generalizing names with
  | refl => exact ⟨names, [], by simp, lineage⟩
  | head isChild _ ih =>
    obtain ⟨parentNames, name, rfl, parentLineage⟩ := lineage.of_isChild isChild
    obtain ⟨above, rest, rfl, found⟩ := ih parentLineage
    exact ⟨above, rest ++ [name], by simp, found⟩

/-- No node of a lineage is among its own ancestors. -/
theorem Lineage.not_cyclic : ¬Relation.TransGen (IsChild forest) node node := by
  intro cyclic
  obtain ⟨parent, isChild, below⟩ := Relation.TransGen.head'_iff.mp cyclic
  obtain ⟨parentNames, name, rfl, parentLineage⟩ := lineage.of_isChild isChild
  obtain ⟨above, rest, rfl, again⟩ := parentLineage.of_below below
  have same := congrArg List.length (lineage.unique again)
  simp at same

/-- Every start of a lineage is the lineage of an ancestor. -/
theorem Lineage.exists_ancestor {above : List ν} (isPrefix : above <+: names) (some : above ≠ []) :
    ∃ ancestor, Lineage forest ancestor above ∧ Below forest node ancestor := by
  induction lineage with
  | @root node name found =>
    obtain rfl : above = [name] := by
      rcases prefix_cons_iff.mp isPrefix with rfl | ⟨rest, rfl, inNil⟩
      · exact absurd rfl some
      · rw [prefix_nil.mp inNil]
    exact ⟨node, .root found, .refl⟩
  | @child node parent name names found parentLineage ih =>
    rcases prefix_concat_iff.mp isPrefix with rfl | before
    · exact ⟨node, .child found parentLineage, .refl⟩
    · obtain ⟨ancestor, ancestorLineage, below⟩ := ih before
      exact ⟨ancestor, ancestorLineage, .head ⟨name, found⟩ below⟩

/-- A lineage is not longer than there are nodes. -/
theorem Lineage.length_le [Fintype κ] : names.length ≤ Fintype.card κ := by
  -- one ancestor for every length; an ancestor has one lineage and so one length
  have ancestors : ∀ position : Fin names.length, ∃ ancestor,
      Lineage forest ancestor (names.take (position + 1)) := by
    intro position
    have isPrefix := take_prefix (position + 1) names
    obtain ⟨ancestor, found, -⟩ := lineage.exists_ancestor isPrefix
      (by have := position.isLt; simp; rintro rfl; simp at this)
    exact ⟨ancestor, found⟩
  choose ancestor found using ancestors
  have injective : Injective ancestor := by
    intro first second same
    have lengths := congrArg List.length
      ((found first).unique (same ▸ found second))
    simp only [length_take] at lengths
    omega
  simpa using Fintype.card_le_of_injective ancestor injective

end

/-- Lineages stay when nodes are added. -/
theorem Lineage.mono (keeps : ∀ node entry, forest node = some entry → other node = some entry)
    (lineage : Lineage forest node names) : Lineage other node names := by
  induction lineage with
  | root found => exact .root (keeps _ _ found)
  | child found above ih => exact .child (keeps _ _ found) ih

section

variable [DecidableEq κ] {changed : κ}

theorem isChild_update {entry : Option (ν × Option κ)} {child parent : κ} :
    IsChild (update forest changed entry) child parent ↔
      if child = changed then ∃ name, entry = some (name, some parent)
      else IsChild forest child parent := by
  rw [IsChild]
  by_cases same : child = changed
  · subst same
    simp
  · simp [same, IsChild]

/-- What hangs below a changed node does not depend on its entry. -/
theorem below_update {entry : Option (ν × Option κ)} :
    Below (update forest changed entry) node changed ↔ Below forest node changed := by
  have oneWay : ∀ {forest other : Forest κ ν}, (∀ node, node ≠ changed → forest node = other node) →
      Below forest node changed → Below other node changed := by
    intro forest other same below
    induction below using Relation.ReflTransGen.head_induction_on with
    | refl => exact .refl
    | @head node parent isChild _ ih =>
      by_cases here : node = changed
      · subst here
        exact .refl
      · obtain ⟨name, found⟩ := isChild
        exact .head ⟨name, (same node here).symm.trans found⟩ ih
  constructor
  · exact oneWay fun node differs => update_of_ne differs _ _
  · exact oneWay fun node differs => (update_of_ne differs _ _).symm

/-- Lineages stay when a node is changed that is not among the ancestors. -/
theorem Lineage.update_of_not_below (lineage : Lineage forest node names)
    (apart : ¬Below forest node changed) (entry : Option (ν × Option κ)) :
    Lineage (update forest changed entry) node names := by
  induction lineage with
  | @root node name found =>
    have differs : node ≠ changed := fun same => apart (same ▸ .refl)
    exact .root ((update_of_ne differs _ _).trans found)
  | @child node parent name names found parentLineage ih =>
    have differs : node ≠ changed := fun same => apart (same ▸ .refl)
    refine .child ((update_of_ne differs _ _).trans found) (ih ?_)
    exact fun below => apart (.head ⟨name, found⟩ below)

/-- Behind a move all lineages below the moved node start with its new one. -/
theorem Lineage.update_of_below {moved now : List ν} {entry : ν × Option κ}
    (movedLineage : Lineage forest changed moved)
    (nowLineage : Lineage (update forest changed (some entry)) changed now)
    (below : Below forest node changed) (lineage : Lineage forest node names) :
    ∃ rest, names = moved ++ rest ∧
      Lineage (update forest changed (some entry)) node (now ++ rest) := by
  induction below using Relation.ReflTransGen.head_induction_on generalizing names with
  | refl => exact ⟨[], by simp [lineage.unique movedLineage], by simpa using nowLineage⟩
  | @head node parent isChild _ ih =>
    obtain ⟨name, found⟩ := isChild
    cases lineage with
    | root found' => simp [found] at found'
    | child found' parentLineage =>
      cases found.symm.trans found'
      obtain ⟨rest, rfl, nowParent⟩ := ih parentLineage
      have differs : node ≠ changed := by
        rintro rfl
        have same := congrArg List.length
          (movedLineage.unique (.child found parentLineage))
        simp at same
      refine ⟨rest ++ [name], by simp, ?_⟩
      rw [← append_assoc]
      exact .child ((update_of_ne differs _ _).trans found) nowParent

end

end Forest

end Nanograph.Foundation
