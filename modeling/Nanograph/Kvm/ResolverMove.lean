import Nanograph.Kvm.ResolverTree

/-!
# Moving objects

A move gives a node another name and another parent, forgets the old paths of all below it, and
registers their new ones by following parents and children. It is in order exactly when the
destination is written as a path that nothing else has and that is not below the node.
-/

namespace Nanograph.Core.ObjectId

/-- Identifiers are the numbers of 32 bits. -/
def equivFin : ObjectId ≃ Fin UInt32.size where
  toFun id := id.raw.toFin
  invFun number := ⟨UInt32.ofFin number⟩
  left_inv _ := rfl
  right_inv _ := rfl

instance : Fintype ObjectId := Fintype.ofEquiv _ equivFin.symm

theorem card : Fintype.card ObjectId = UInt32.size := by
  rw [Fintype.card_congr equivFin, Fintype.card_fin]

end Nanograph.Core.ObjectId

namespace Nanograph.Kvm.ObjectPathResolver

open List Option Function Nanograph.Core Foundation ObjectPathResolver
open Foundation.Forest (Lineage IsChild Below)

section

variable {nodes : PathNodes} {id : ObjectId} {names : List (List Char)} {fuel : Nat}

theorem length_le_of_lineage (lineage : Lineage (forestOf nodes) id names) :
    names.length ≤ UInt32.size :=
  ObjectId.card ▸ lineage.length_le

theorem nodes_of_forestOf {name : List Char} {parent : Option ObjectId}
    (found : forestOf nodes id = some (name, parent)) :
    ∃ node, nodes id = some node ∧ node.objectName = name ∧ node.parent = parent := by
  obtain ⟨node, there, entry⟩ := map_eq_some_iff.mp found
  obtain ⟨named, below⟩ := Prod.mk.inj entry
  exact ⟨node, there, named, below⟩

/-- The way up to the root ends when there are steps enough. -/
theorem nodeParts_of_lineage (lineage : Lineage (forestOf nodes) id names)
    (enough : names.length ≤ fuel) : nodeParts nodes fuel id = some (some names.reverse) := by
  induction lineage generalizing fuel with
  | root found =>
    obtain ⟨node, there, rfl, isRoot⟩ := nodes_of_forestOf found
    cases fuel with
    | zero => simp at enough
    | succ fuel => simp [nodeParts, there, isRoot]
  | child found above ih =>
    obtain ⟨node, there, rfl, isChild⟩ := nodes_of_forestOf found
    cases fuel with
    | zero => simp at enough
    | succ fuel =>
      have way := ih (show _ ≤ fuel by simpa using enough)
      simp [nodeParts, there, isChild, way]

theorem getNodePath_of_lineage (lineage : Lineage (forestOf nodes) id names) :
    getNodePath nodes id = some (some (buildPath names)) := by
  rw [getNodePath, stepsWithoutCycle, nodeParts_of_lineage lineage (length_le_of_lineage lineage)]
  simp

/-- The paths of some nodes were registered and all others left. -/
def Written (nodes : PathNodes) (chosen : ObjectId → Prop) (before after : PathMap) : Prop :=
  ∀ path, (∀ id, chosen id → PathOf nodes id path → after path = some id) ∧
    ((∀ id, chosen id → ¬PathOf nodes id path) → after path = before path)

/-- Different nodes have different paths. -/
def PathsApart (nodes : PathNodes) : Prop :=
  ∀ id other path, PathOf nodes id path → PathOf nodes other path → id = other

variable {chosen others : ObjectId → Prop} {before middle after : PathMap}

theorem Written.trans (apart : PathsApart nodes) (first : Written nodes chosen before middle)
    (second : Written nodes others middle after) :
    Written nodes (fun id => chosen id ∨ others id) before after := by
  intro path
  constructor
  · rintro id (isChosen | isOther) own
    · by_cases again : ∃ other, others other ∧ PathOf nodes other path
      · obtain ⟨other, isOther, its⟩ := again
        rw [apart id other path own its]
        exact (second path).1 other isOther its
      · rw [(second path).2 fun other isOther its => again ⟨other, isOther, its⟩]
        exact (first path).1 id isChosen own
    · exact (second path).1 id isOther own
  · intro none
    rw [(second path).2 fun id isOther => none id (.inr isOther),
      (first path).2 fun id isChosen => none id (.inl isChosen)]

theorem Written.congr (written : Written nodes chosen before after)
    (same : ∀ id, chosen id ↔ others id) : Written nodes others before after := by
  intro path
  simpa only [same] using written path

theorem written_update (lineage : Lineage (forestOf nodes) id names) (before : PathMap) :
    Written nodes (· = id) before (update before (buildPath names) (some id)) := by
  intro path
  constructor
  · rintro _ rfl ⟨names', lineage', rfl⟩
    rw [lineage.unique lineage', update_self]
  · intro apart
    refine update_of_ne ?_ _ _
    rintro rfl
    exact apart id rfl ⟨names, lineage, rfl⟩

theorem below_iff {ancestor : ObjectId} {forest : Forest ObjectId (List Char)} :
    Below forest id ancestor ↔
      id = ancestor ∨ ∃ child, IsChild forest child ancestor ∧ Below forest id child := by
  rw [Below, Relation.ReflTransGen.cases_tail_iff]
  exact or_congr eq_comm (exists_congr fun child => and_comm)

/-- All below a node get their paths. -/
theorem updateDescendantPaths_of_lineage (apart : PathsApart nodes)
    (children : ChildrenMatch nodes) (lineage : Lineage (forestOf nodes) id names)
    (enough : UInt32.size < fuel + names.length) (before : PathMap) :
    ∃ after, updateDescendantPaths nodes fuel before id = some after ∧
      Written nodes (fun other => Below (forestOf nodes) other id) before after := by
  induction fuel generalizing id names before with
  | zero =>
    have := length_le_of_lineage lineage
    omega
  | succ fuel ih =>
    obtain ⟨node, found⟩ := ne_none_iff_exists'.mp
      (mt forestOf_eq_none.mpr lineage.live)
    -- the children are worked off one by one
    have all : ∀ (list : List ObjectId), (∀ child ∈ list, IsChild (forestOf nodes) child id) →
        ∀ before, ∃ after, list.foldlM (updateDescendantPaths nodes fuel) before = some after ∧
          Written nodes (fun other => ∃ child ∈ list, Below (forestOf nodes) other child)
            before after := by
      intro list
      induction list with
      | nil => exact fun _ before => ⟨before, rfl, fun path => ⟨by simp, by simp⟩⟩
      | cons child rest restHypothesis =>
        intro below before
        obtain ⟨name, entry⟩ := below child mem_cons_self
        have childLineage : Lineage (forestOf nodes) child (names ++ [name]) :=
          .child entry lineage
        obtain ⟨middle, done, written⟩ := ih childLineage
          (by rw [length_append, length_singleton]; omega) before
        obtain ⟨after, doneRest, writtenRest⟩ := restHypothesis
          (fun other mem => below other (mem_cons_of_mem _ mem)) middle
        refine ⟨after, ?_, (written.trans apart writtenRest).congr fun other => ?_⟩
        · rw [foldlM_cons, done]
          exact doneRest
        · simp
    obtain ⟨after, done, written⟩ := all node.children
      (fun child => (children id node found child).mp)
      (update before (buildPath names) (some id))
    refine ⟨after, ?_, ((written_update lineage before).trans apart written).congr fun other => ?_⟩
    · rw [updateDescendantPaths, getNodePath_of_lineage lineage]
      simp only [found, bind, Option.bind]
      exact done
    · rw [below_iff]
      simp only [children id node found]

end

section

variable {resolver : ObjectPathResolver} {source target : List Char} {move : Move}

/-- The destination of a move is a path that no other node has and that is not below the node. -/
def MoveClear (resolver : ObjectPathResolver) (source target : List Char) : Prop :=
  ∀ move, resolver.checkMove source target = .ok move →
    (resolver.resolverPaths (buildPath (parsePath target)) = none ∨
        buildPath (parsePath target) = source) ∧
      ¬source ++ ['.'] <+: buildPath (parsePath target)

/-- What a move that can be made goes by: the names of the node, and the names of the new parent
in front of the new name. -/
structure MoveParts (resolver : ObjectPathResolver) (source target : List Char) (move : Move)
    (names front : List (List Char)) : Prop where
  found : resolver.resolverNodes move.id = some move.node
  lineage : Lineage resolver.forest move.id names
  source : source = buildPath names
  parts : parsePath target = front ++ [move.nodeName]
  parent : ParentAt resolver.resolverNodes move.newParent front
  missing : resolver.resolverPaths target = none

/-- The parent of a destination has the names in front of the last one. -/
theorem WellFormed.of_findParent (wellFormed : resolver.WellFormed) {front : List (List Char)}
    (plain : Plain '.' front) {newParent : Option ObjectId}
    (parent : resolver.findParent (buildPath front) = .ok newParent) :
    ParentAt resolver.resolverNodes newParent front := by
  rw [findParent] at parent
  split at parent
  next empty =>
    obtain rfl := Except.ok.inj parent
    by_contra more
    exact joined_ne_nil plain more empty
  next =>
    cases registered : resolver.resolverPaths (buildPath front) with
    | none => simp [registered] at parent
    | some id =>
      simp only [registered] at parent
      obtain rfl := Except.ok.inj parent
      obtain ⟨names, lineage, same⟩ := wellFormed.pathOf _ id registered
      rw [joined_injective plain (wellFormed.plainNames lineage) same]
      exact lineage

theorem WellFormed.moveParts (wellFormed : resolver.WellFormed)
    (checked : resolver.checkMove source target = .ok move) :
    ∃ names front, MoveParts resolver source target move names front := by
  rw [checkMove] at checked
  cases registered : resolver.resolverPaths source with
  | none => simp [registered] at checked
  | some id =>
    cases last : (parsePath target).getLast? with
    | none => simp [registered, last] at checked
    | some nodeName =>
      simp only [registered, last] at checked
      cases parent : resolver.findParent (buildPath (parsePath target).dropLast) with
      | error error => simp [parent, bind, Except.bind] at checked
      | ok newParent =>
        simp only [parent, bind, Except.bind] at checked
        split at checked
        next => cases checked
        next missing =>
          cases found : resolver.resolverNodes id with
          | none => simp [found] at checked
          | some node =>
            simp only [found] at checked
            obtain rfl := Except.ok.inj checked
            obtain ⟨names, lineage, same⟩ := wellFormed.pathOf source id registered
            have parts := dropLast_append_getLast? nodeName last
            have plain : Plain '.' (parsePath target) := plain_pieces target
            exact ⟨names, (parsePath target).dropLast, found, lineage, same, parts.symm,
              wellFormed.of_findParent
                (fun name mem => plain name (mem_of_mem_dropLast mem)) parent,
              by simpa using missing⟩

theorem forestOf_rename {nodes : PathNodes} {id : ObjectId} (live : nodes id ≠ none)
    (name : List Char) (parent : Option ObjectId) :
    forestOf (nodes.modify id fun node => { node with objectName := name, parent := parent }) =
      update (forestOf nodes) id (some (name, parent)) := by
  obtain ⟨node, found⟩ := ne_none_iff_exists'.mp live
  rw [PathNodes.modify, forestOf_update, found]
  rfl

/-- The nodes behind a move. -/
abbrev moved (resolver : ObjectPathResolver) (move : Move) : PathNodes :=
  relink resolver.resolverNodes move

/-- The paths that a move leaves. -/
abbrev kept (resolver : ObjectPathResolver) (source : List Char) : PathMap :=
  withoutBelow resolver.resolverPaths source

/-- All below a node that is moved got their new paths. -/
def Rewritten (resolver : ObjectPathResolver) (source : List Char) (move : Move)
    (after : PathMap) : Prop :=
  Written (resolver.moved move) (fun other => Below resolver.forest other move.id)
    (resolver.kept source) after

variable {names front : List (List Char)}

namespace MoveParts

variable (parts : MoveParts resolver source target move names front)

include parts

theorem live {parentId : ObjectId} (isParent : move.newParent = some parentId) :
    resolver.resolverNodes parentId ≠ none := by
  have parent := parts.parent
  rw [isParent] at parent
  exact fun gone => Lineage.live parent (forestOf_eq_none.mpr gone)

theorem forest :
    forestOf (resolver.moved move) = update resolver.forest move.id
        (some (move.nodeName, move.newParent)) := by
  rw [moved, relink, forestOf_rename, forestOf_attach, forestOf_detach]
  rw [ne_eq, ← forestOf_eq_none, forestOf_attach, forestOf_detach, forestOf_eq_none, parts.found]
  simp

variable {other : ObjectId} {others : List (List Char)}

theorem relink_eq_none :
    resolver.moved move other = none ↔ resolver.resolverNodes other = none := by
  rw [← forestOf_eq_none, parts.forest, ← forestOf_eq_none]
  by_cases same : other = move.id
  · subst same
    simp [forestOf, parts.found]
  · rw [update_of_ne same]

theorem mem_children {child : ObjectId} :
    child ∈ childrenOf (resolver.moved move) other ↔
      (child ∈ childrenOf resolver.resolverNodes other ∧
          ¬(move.node.parent = some other ∧ child = move.id)) ∨
        (move.newParent = some other ∧ child = move.id) := by
  rw [moved, relink, childrenOf, map_modify, ← childrenOf, mem_childrenOf_attach, mem_childrenOf_detach]
  · intro parentId isParent
    rw [ne_eq, ← forestOf_eq_none, forestOf_detach, forestOf_eq_none]
    exact parts.live isParent
  · exact fun _ => rfl

/-- A new parent that is not below the node leads the node to its new names. -/
theorem newLineage
    (apart : ∀ parent, move.newParent = some parent → ¬Below resolver.forest parent move.id) :
    Lineage (forestOf (resolver.moved move)) move.id (parsePath target) := by
  rw [parts.forest, parts.parts]
  have parent := parts.parent
  cases found : move.newParent with
  | none =>
    rw [found] at parent
    rw [show front = [] from parent]
    exact .root (update_self ..)
  | some parentId =>
    rw [found] at parent
    exact .child (update_self ..) (Lineage.update_of_not_below parent (apart parentId found) _)

/-- The names of what is below the node start with its names. -/
theorem prefix_of_below (lineage : Lineage resolver.forest other others)
    (below : Below resolver.forest other move.id) : names <+: others := by
  obtain ⟨above, rest, rfl, found⟩ := lineage.of_below below
  rw [found.unique parts.lineage]
  exact prefix_append names rest

theorem plainTarget : Plain '.' (parsePath target) ∧ parsePath target ≠ [] :=
  ⟨plain_pieces target, by rw [parts.parts]; simp⟩

variable (wellFormed : resolver.WellFormed)

include wellFormed

/-- Children and parents match behind a move. -/
theorem childrenMatch : ChildrenMatch (resolver.moved move) := by
  refine childrenMatch_of_forall fun other child => ?_
  rw [parts.forest, Forest.isChild_update, parts.mem_children, wellFormed.mem_childrenOf]
  by_cases same : child = move.id
  · subst same
    rw [isChild_iff parts.found]
    simp
  · simp [same]

/-- What has names that start with the ones of the node is below it. -/
theorem below_of_prefix (lineage : Lineage resolver.forest other others)
    (isPrefix : names <+: others) : Below resolver.forest other move.id := by
  obtain ⟨ancestor, found, below⟩ := lineage.exists_ancestor isPrefix parts.lineage.ne_nil
  rwa [wellFormed.eq_of_lineage found parts.lineage] at below

/-- A path goes on behind the one of the node exactly when its names do. -/
theorem source_prefix_iff (plain : Plain '.' others) :
    source ++ ['.'] <+: buildPath others ↔ ∃ rest, rest ≠ [] ∧ others = names ++ rest := by
  rw [parts.source]
  exact joined_separator_prefix (wellFormed.plainNames parts.lineage) plain parts.lineage.ne_nil

/-- The new parent is below the node exactly when the destination is. -/
theorem parent_below_iff :
    source ++ ['.'] <+: buildPath (parsePath target) ↔ ∃ parent, move.newParent = some parent ∧
        Below resolver.forest parent move.id := by
  rw [parts.source_prefix_iff wellFormed parts.plainTarget.1, parts.parts]
  have parent := parts.parent
  constructor
  · rintro ⟨rest, more, same⟩
    obtain ⟨start, last, rfl⟩ := (List.eq_nil_or_concat' rest).resolve_left more
    rw [← append_assoc] at same
    obtain ⟨rfl, -⟩ := append_inj' same rfl
    cases found : move.newParent with
    | none =>
      rw [found] at parent
      have empty : names ++ start = [] := parent
      exact absurd (append_eq_nil_iff.mp empty).1 parts.lineage.ne_nil
    | some parentId =>
      rw [found] at parent
      exact ⟨parentId, rfl, parts.below_of_prefix wellFormed parent (prefix_append names start)⟩
  · rintro ⟨parentId, found, below⟩
    rw [found] at parent
    obtain ⟨rest, rfl⟩ := parts.prefix_of_below parent below
    exact ⟨rest ++ [move.nodeName], by simp, by simp⟩

theorem plain_relink (other : ObjectId) (name : List Char) (parent : Option ObjectId)
    (found : forestOf (resolver.moved move) other = some (name, parent)) : Plain '.' [name] := by
  rw [parts.forest] at found
  by_cases same : other = move.id
  · subst same
    rw [update_self] at found
    obtain ⟨rfl, -⟩ := Prod.mk.inj (Option.some.inj found)
    have plain := parts.plainTarget.1
    rw [parts.parts, plain_append] at plain
    exact plain.2
  · exact wellFormed.plain other name parent ((update_of_ne same ..).symm.trans found)

/-- The paths that are left when the ones of the node and below it are forgotten. -/
theorem withoutBelow_eq_some {path : List Char} :
    resolver.kept source path = some other ↔ resolver.resolverPaths path = some other ∧
        ¬Below resolver.forest other move.id := by
  rw [kept, withoutBelow]
  constructor
  · intro left
    split at left
    next => cases left
    next kept =>
      refine ⟨left, fun below => kept ?_⟩
      obtain ⟨others, lineage, rfl⟩ := wellFormed.pathOf path other left
      obtain ⟨rest, rfl⟩ := parts.prefix_of_below lineage below
      by_cases more : rest = []
      · subst more
        rw [append_nil, parts.source]
        exact .inl rfl
      · exact .inr ((parts.source_prefix_iff wellFormed (wellFormed.plainNames lineage)).mpr
          ⟨rest, more, rfl⟩)
  · rintro ⟨found, notBelow⟩
    obtain ⟨others, lineage, rfl⟩ := wellFormed.pathOf path other found
    rw [if_neg]
    · exact found
    · rintro (same | isPrefix)
      · rw [parts.source] at same
        have sameNames := joined_injective (wellFormed.plainNames lineage)
          (wellFormed.plainNames parts.lineage) same
        subst sameNames
        exact notBelow (parts.below_of_prefix wellFormed lineage prefix_rfl)
      · obtain ⟨rest, -, rfl⟩ :=
          (parts.source_prefix_iff wellFormed (wellFormed.plainNames lineage)).mp isPrefix
        exact notBelow (parts.below_of_prefix wellFormed lineage (prefix_append _ rest))

variable (apart : ¬source ++ ['.'] <+: buildPath (parsePath target))

include apart

/-- The lineages behind a move that is clear. -/
theorem lineage_iff :
    Lineage (forestOf (resolver.moved move)) other others ↔ (¬Below resolver.forest other move.id ∧
          Lineage resolver.forest other others) ∨
        Below resolver.forest other move.id ∧
          ∃ rest, Lineage resolver.forest other (names ++ rest) ∧
            others = parsePath target ++ rest := by
  have own := parts.newLineage fun parent isParent below =>
    apart ((parts.parent_below_iff wellFormed).mpr ⟨parent, isParent, below⟩)
  have inside : ∀ {others}, Below resolver.forest other move.id →
      Lineage resolver.forest other others → ∃ rest, others = names ++ rest ∧
        Lineage (forestOf (resolver.moved move)) other
          (parsePath target ++ rest) := by
    intro others below lineage
    rw [parts.forest] at own ⊢
    exact parts.lineage.update_of_below own below lineage
  have outside : ∀ {others}, ¬Below resolver.forest other move.id →
      Lineage resolver.forest other others →
        Lineage (forestOf (resolver.moved move)) other others := by
    intro others apart lineage
    rw [parts.forest]
    exact lineage.update_of_not_below apart _
  constructor
  · intro lineage
    have live : resolver.resolverNodes other ≠ none := fun gone =>
      lineage.live (forestOf_eq_none.mpr (parts.relink_eq_none.mpr gone))
    obtain ⟨before, old, -⟩ := wellFormed.registered other live
    by_cases below : Below resolver.forest other move.id
    · obtain ⟨rest, rfl, new⟩ := inside below old
      exact .inr ⟨below, rest, old, lineage.unique new⟩
    · rw [lineage.unique (outside below old)]
      exact .inl ⟨below, old⟩
  · rintro (⟨below, old⟩ | ⟨below, rest, old, rfl⟩)
    · exact outside below old
    · obtain ⟨rest', same, new⟩ := inside below old
      rwa [append_cancel_left same]

variable (vacant : resolver.resolverPaths (buildPath (parsePath target)) = none ∨
  buildPath (parsePath target) = source)

include vacant

/-- Behind a clear move different nodes have different names up to the root. -/
theorem pathsApart : PathsApart (resolver.moved move) := by
  -- outside of the node nothing has names that start with the destination
  have outside : ∀ {other rest}, ¬Below resolver.forest other move.id →
      ¬Lineage resolver.forest other (parsePath target ++ rest) := by
    intro other rest notBelow lineage
    obtain ⟨ancestor, found, -⟩ := lineage.exists_ancestor (prefix_append _ rest)
      parts.plainTarget.2
    rcases vacant with missing | same
    · rw [wellFormed.path_of_lineage found] at missing
      cases missing
    · rw [parts.source] at same
      have sameNames := joined_injective parts.plainTarget.1
        (wellFormed.plainNames parts.lineage) same
      rw [sameNames] at lineage
      exact notBelow (parts.below_of_prefix wellFormed lineage (prefix_append _ rest))
  rintro id other path ⟨names', lineage, rfl⟩ ⟨others', lineage', same⟩
  have plain : ∀ {id names}, Lineage (forestOf (resolver.moved move)) id names →
      Plain '.' names := plain_of_lineage (parts.plain_relink wellFormed)
  obtain rfl := joined_injective (plain lineage) (plain lineage') same
  rw [parts.lineage_iff wellFormed apart] at lineage lineage'
  rcases lineage with ⟨notBelow, old⟩ | ⟨below, rest, old, rfl⟩
  · rcases lineage' with ⟨-, old'⟩ | ⟨-, rest', -, rfl⟩
    · exact wellFormed.eq_of_lineage old old'
    · exact absurd old (outside notBelow)
  · rcases lineage' with ⟨notBelow', old'⟩ | ⟨-, rest', old', same'⟩
    · exact absurd old' (outside notBelow')
    · rw [append_cancel_left same'] at old
      exact wellFormed.eq_of_lineage old old'

/-- A clear move ends, and the new paths of all below the node are registered. -/
theorem update_ends :
    ∃ after, updateDescendantPaths (resolver.moved move) stepsWithoutCycle
        (resolver.kept source) move.id = some after ∧
      resolver.Rewritten source move after := by
  have own := parts.newLineage fun parent isParent below =>
    apart ((parts.parent_below_iff wellFormed).mpr ⟨parent, isParent, below⟩)
  have some := length_pos_iff.mpr parts.plainTarget.2
  obtain ⟨after, done, written⟩ := updateDescendantPaths_of_lineage
    (parts.pathsApart wellFormed apart vacant) (parts.childrenMatch wellFormed) own
    (show UInt32.size < stepsWithoutCycle + _ by rw [stepsWithoutCycle]; omega)
    (resolver.kept source)
  refine ⟨after, done, written.congr fun other => ?_⟩
  rw [parts.forest]
  exact Forest.below_update

/-- Behind a clear move everything is in order. -/
theorem wellFormed_moved {after : PathMap} (written : resolver.Rewritten source move after) :
    ({ resolver with
        resolverNodes := resolver.moved move
        resolverPaths := after } : ObjectPathResolver).WellFormed := by
  have unique := parts.pathsApart wellFormed apart vacant
  constructor
  · exact parts.plain_relink wellFormed
  · intro other live
    rw [ne_eq, parts.relink_eq_none] at live
    obtain ⟨others, lineage, found⟩ := wellFormed.registered other live
    by_cases below : Below resolver.forest other move.id
    · obtain ⟨rest, rfl⟩ := parts.prefix_of_below lineage below
      have new := (parts.lineage_iff wellFormed apart).mpr (.inr ⟨below, rest, lineage, rfl⟩)
      exact ⟨_, new, (written _).1 other below ⟨_, new, rfl⟩⟩
    · have new := (parts.lineage_iff wellFormed apart).mpr (.inl ⟨below, lineage⟩)
      refine ⟨others, new, ((written _).2 fun node isBelow its => ?_).trans
        ((parts.withoutBelow_eq_some wellFormed).mpr ⟨found, below⟩)⟩
      rw [unique node other _ its ⟨others, new, rfl⟩] at isBelow
      exact below isBelow
  · intro path other found
    by_cases chosen : ∃ node, Below resolver.forest node move.id ∧
        PathOf (resolver.moved move) node path
    · obtain ⟨node, below, its⟩ := chosen
      obtain rfl := Option.some.inj (((written path).1 node below its).symm.trans found)
      exact its
    · have left := ((written path).2 fun node below its => chosen ⟨node, below, its⟩).symm.trans
        found
      obtain ⟨before, notBelow⟩ := (parts.withoutBelow_eq_some wellFormed).mp left
      obtain ⟨others, lineage, rfl⟩ := wellFormed.pathOf path other before
      exact ⟨others, (parts.lineage_iff wellFormed apart).mpr (.inl ⟨notBelow, lineage⟩), rfl⟩
  · exact parts.childrenMatch wellFormed
  · intro other free
    exact parts.relink_eq_none.mpr (wellFormed.available other free)

/-- Behind a clear move the paths of the node and below it start with the destination instead of
the source, and all others are as they were. -/
theorem paths_moved {after : PathMap} (written : resolver.Rewritten source move after)
    {path : List Char} {id : ObjectId} :
    after path = some id ↔
      (∃ rest, (rest = [] ∨ ['.'] <+: rest) ∧ path = buildPath (parsePath target) ++ rest ∧
        resolver.resolverPaths (source ++ rest) = some id) ∨
      resolver.kept source path = some id := by
  have moved := parts.wellFormed_moved wellFormed apart vacant written
  rw [parts.withoutBelow_eq_some wellFormed]
  constructor
  · intro found
    obtain ⟨others, lineage, rfl⟩ := moved.pathOf path id found
    rcases (parts.lineage_iff wellFormed apart).mp lineage with
      ⟨notBelow, old⟩ | ⟨below, rest, old, rfl⟩
    · exact .inr ⟨wellFormed.path_of_lineage old, notBelow⟩
    · obtain ⟨text, goesOn, append⟩ := exists_joined_append '.' rest
      refine .inl ⟨text, goesOn, append _ parts.plainTarget.2, ?_⟩
      rw [parts.source, buildPath, ← append names parts.lineage.ne_nil]
      exact wellFormed.path_of_lineage old
  · rintro (⟨text, goesOn, rfl, found⟩ | ⟨found, notBelow⟩)
    · obtain ⟨others, lineage, same⟩ := wellFormed.pathOf _ id found
      obtain ⟨rest, rfl⟩ : ∃ rest, others = names ++ rest := by
        rcases goesOn with rfl | ⟨more, rfl⟩
        · rw [append_nil, parts.source] at same
          exact ⟨[], by rw [append_nil, joined_injective (wellFormed.plainNames lineage)
            (wellFormed.plainNames parts.lineage) same.symm]⟩
        · obtain ⟨rest, -, whole⟩ := (parts.source_prefix_iff wellFormed
            (wellFormed.plainNames lineage)).mp ⟨more, by simpa using same⟩
          exact ⟨rest, whole⟩
      obtain ⟨text', -, append⟩ := exists_joined_append '.' rest
      rw [parts.source, buildPath, buildPath, append names parts.lineage.ne_nil,
        append_cancel_left_eq] at same
      have new := (parts.lineage_iff wellFormed apart).mpr
        (.inr ⟨parts.below_of_prefix wellFormed lineage (prefix_append _ rest), rest, lineage, rfl⟩)
      rw [same, buildPath, ← append _ parts.plainTarget.2]
      exact moved.path_of_lineage new
    · obtain ⟨others, lineage, rfl⟩ := wellFormed.pathOf _ id found
      exact moved.path_of_lineage ((parts.lineage_iff wellFormed apart).mpr
        (.inl ⟨notBelow, lineage⟩))

end MoveParts

theorem checkMove_ne_endless : resolver.checkMove source target ≠ .error .endless := by
  rw [checkMove]
  cases resolver.resolverPaths source with
  | none => simp
  | some id =>
    cases (parsePath target).getLast? with
    | none => simp
    | some nodeName =>
      simp only [findParent, bind, Except.bind]
      split
      next error failed =>
        split at failed
        · cases failed
        · split at failed <;> cases failed
          simp
      next =>
        split
        · simp
        · cases resolver.resolverNodes id <;> simp [pure, Except.pure]

/-- A clear move ends and keeps everything in order. -/
theorem WellFormed.movePath (wellFormed : resolver.WellFormed)
    (clear : MoveClear resolver source target) :
    (resolver.movePath source target).2.WellFormed ∧
      (resolver.movePath source target).1 ≠ .error .endless := by
  rw [ObjectPathResolver.movePath]
  cases checked : resolver.checkMove source target with
  | error error =>
    refine ⟨wellFormed, fun same => checkMove_ne_endless (checked.trans ?_)⟩
    rw [Except.error.inj same]
  | ok move =>
    obtain ⟨names, front, parts⟩ := wellFormed.moveParts checked
    obtain ⟨vacant, apart⟩ := clear move checked
    obtain ⟨after, done, written⟩ := parts.update_ends wellFormed apart vacant
    simp only [done]
    exact ⟨parts.wellFormed_moved wellFormed apart vacant written, by simp⟩

theorem map_relink (nodes : PathNodes) (move : Move) (id : ObjectId) :
    (relink nodes move id).map (fun node => (node.objectId, node.objectType)) =
      (nodes id).map fun node => (node.objectId, node.objectType) := by
  rw [relink, map_modify, map_attach, map_detach]
  all_goals intros; rfl

/-- Nodes, paths and children match, whatever identifiers were given back. -/
def Matched (resolver : ObjectPathResolver) : Prop :=
  ({ resolver with resolverAvailableNodes := [] } : ObjectPathResolver).WellFormed

/-- A move to a destination without empty components that is not below the source either changes
nothing, or gives all paths from the source on the destination in its place and leaves all other
paths and what the nodes are. -/
theorem movePath_renames (matched : resolver.Matched)
    (components : ∀ name ∈ target.splitOn '.', name ≠ []) (apart : ¬source ++ ['.'] <+: target) :
    let after := (resolver.movePath source target).2
    ((resolver.movePath source target).1 = .ok () →
      (∀ id, (after.resolverNodes id).map (fun node => (node.objectId, node.objectType)) =
        (resolver.resolverNodes id).map fun node => (node.objectId, node.objectType)) ∧
      ∀ path id, after.resolverPaths path = some id ↔
        (∃ rest, (rest = [] ∨ ['.'] <+: rest) ∧ path = target ++ rest ∧
          resolver.resolverPaths (source ++ rest) = some id) ∨
        (¬(path = source ∨ source ++ ['.'] <+: path) ∧ resolver.resolverPaths path = some id)) ∧
    ∀ error, (resolver.movePath source target).1 = .error error → after = resolver := by
  have normal : buildPath (parsePath target) = target := by
    rw [buildPath, parsePath, pieces, joined, filter_eq_self.mpr (by simpa using components)]
    exact intercalate_splitOn _
  rw [movePath]
  cases checked : resolver.checkMove source target with
  | error error => exact ⟨by simp, fun _ _ => rfl⟩
  | ok move =>
    obtain ⟨names, front, parts⟩ := WellFormed.moveParts matched checked
    have notBelow : ¬source ++ ['.'] <+: buildPath (parsePath target) := normal.symm ▸ apart
    have vacant := Or.inl (b := buildPath (parsePath target) = source)
      (show resolver.resolverPaths (buildPath (parsePath target)) = none from
        normal.symm ▸ parts.missing)
    obtain ⟨paths, done, written⟩ := parts.update_ends matched notBelow vacant
    simp only [done]
    refine ⟨fun _ => ⟨map_relink resolver.resolverNodes move, fun path id => ?_⟩, by simp⟩
    rw [parts.paths_moved matched notBelow vacant written, normal, kept, withoutBelow]
    split <;> simp [*]

/-- The nodes behind a move that is made, whether it ends or not. -/
theorem nodes_movePath (checked : resolver.checkMove source target = .ok move) :
    (resolver.movePath source target).2.resolverNodes = resolver.moved move := by
  rw [movePath, checked]
  simp only
  split <;> rfl

/-- Nodes of a consistent resolver with the same names up to the root are the same. -/
theorem Consistent.eq_of_lineage (consistent : resolver.Consistent) {id other : ObjectId}
    {names : List (List Char)} (lineage : Lineage resolver.forest id names)
    (lineage' : Lineage resolver.forest other names) : id = other := by
  have registered : ∀ {id}, Lineage resolver.forest id names →
      resolver.resolverPaths (buildPath names) = some id := by
    intro id lineage
    obtain ⟨path, found, -⟩ := consistent.onePath id fun gone =>
      lineage.live (forestOf_eq_none.mpr gone)
    obtain ⟨names', own, rfl⟩ := consistent.pathOf path id found
    rwa [lineage.unique own]
  exact Option.some.inj ((registered lineage).symm.trans (registered lineage'))

/-- Only a clear move leaves everything consistent. -/
theorem moveClear_of_consistent (wellFormed : resolver.WellFormed)
    (consistent : (resolver.movePath source target).2.Consistent) :
    MoveClear resolver source target := by
  intro move checked
  obtain ⟨names, front, parts⟩ := wellFormed.moveParts checked
  have nodes := nodes_movePath checked
  have apart : ¬source ++ ['.'] <+: buildPath (parsePath target) := by
    intro isPrefix
    -- the node is below its new parent, which is below the node
    obtain ⟨parent, isParent, below⟩ := (parts.parent_below_iff wellFormed).mp isPrefix
    refine consistent.acyclic move.id (.head' ?_ (b := parent) ?_)
    · rw [nodes, parts.forest]
      exact ⟨move.nodeName, by rw [update_self, isParent]⟩
    · rw [nodes, parts.forest]
      exact Forest.below_update.mpr below
  refine ⟨?_, apart⟩
  by_contra occupied
  rw [not_or] at occupied
  obtain ⟨other, found⟩ := ne_none_iff_exists'.mp occupied.1
  obtain ⟨others, lineage, same⟩ := wellFormed.pathOf _ other found
  have sameNames := joined_injective parts.plainTarget.1 (wellFormed.plainNames lineage) same
  subst sameNames
  have notBelow : ¬Below resolver.forest other move.id := by
    intro below
    obtain ⟨rest, whole⟩ := parts.prefix_of_below lineage below
    by_cases more : rest = []
    · rw [more, append_nil] at whole
      exact occupied.2 (by rw [← whole, parts.source])
    · exact apart ((parts.source_prefix_iff wellFormed parts.plainTarget.1).mpr
        ⟨rest, more, whole.symm⟩)
  have new := (parts.lineage_iff wellFormed apart).mpr (.inl ⟨notBelow, lineage⟩)
  have own : Lineage (forestOf (resolver.moved move)) move.id (parsePath target) :=
    (parts.lineage_iff wellFormed apart).mpr
      (.inr ⟨.refl, [], by simpa using parts.lineage, by simp⟩)
  rw [← nodes] at new own
  rw [consistent.eq_of_lineage new own] at notBelow
  exact notBelow .refl

end

/-- The calls that change a resolver. -/
inductive Call where
  | addPath (path : List Char) (objectType : ObjectType)
  | setPathObject (path : List Char) (objectId : ObjectId) (objectType : ObjectType)
  | removePath (path : List Char)
  | movePath (source target : List Char)

/-- Make a call; identifiers that are returned are left out. -/
def step : Machine ObjectPathResolver Call (Except ResolverError Unit)
  | resolver, .addPath path objectType =>
    (resolver.addPath path objectType).map (·.map fun _ => ()) id
  | resolver, .setPathObject path objectId objectType =>
    (.ok (), resolver.setPathObject path objectId objectType)
  | resolver, .removePath path => resolver.removePath path
  | resolver, .movePath source target => resolver.movePath source target

/-- A call gives only fresh identifiers to new nodes, and a move is clear. -/
def Clear (resolver : ObjectPathResolver) : Call → Prop
  | .addPath path objectType =>
    (resolver.resolverPaths path).isSome ∨
      FreshParts none objectType resolver ⟨none, []⟩ (parsePath path)
  | .setPathObject path objectId objectType =>
    FreshParts (some objectId) objectType resolver ⟨none, []⟩ (parsePath path)
  | .removePath _ => True
  | .movePath source target => MoveClear resolver source target

section

variable {resolver : ObjectPathResolver} {call : Call} (path : List Char)

theorem cursorAt_start (resolver : ObjectPathResolver) : CursorAt resolver ⟨none, []⟩ [] :=
  ⟨rfl, rfl⟩

/-- The state behind `addPath`. -/
theorem addPath_snd (objectType : ObjectType) :
    (resolver.addPath path objectType).2 = if (resolver.resolverPaths path).isSome then resolver
      else (placeParts none objectType resolver ⟨none, []⟩ (parsePath path)).2 := by
  rw [addPath]
  by_cases empty : parsePath path = []
  · simp [empty, placeParts]
  · rw [if_neg empty]
    split
    · rfl
    · split <;> simp [*]

theorem addPath_ends (objectType : ObjectType) :
    (step resolver (.addPath path objectType)).1 ≠ .error .endless := by
  simp only [step, addPath]
  split
  · simp [Except.map]
  · split
    · simp [Except.map]
    · split <;> simp [Except.map]

theorem removePath_ends : (resolver.removePath path).1 ≠ .error .endless := by
  unfold removePath
  split
  · simp
  · split
    · simp
    · split <;> simp

/-- Every call that is clear keeps everything in order. -/
theorem WellFormed.step (wellFormed : resolver.WellFormed) (clear : Clear resolver call) :
    (step resolver call).2.WellFormed ∧ (step resolver call).1 ≠ .error .endless := by
  cases call with
  | addPath path objectType =>
    refine ⟨?_, addPath_ends path objectType⟩
    simp only [step, Prod.map_snd, id, addPath_snd]
    split
    next => exact wellFormed
    next missing =>
      exact wellFormed.placeParts (cursorAt_start resolver) (plain_pieces path)
        (Or.resolve_left clear missing)
  | setPathObject path objectId objectType =>
    exact ⟨wellFormed.placeParts (cursorAt_start resolver) (plain_pieces path) clear, by
      simp [step]⟩
  | removePath path => exact ⟨wellFormed.removePath path, removePath_ends path⟩
  | movePath source target => exact wellFormed.movePath clear

/-- Only a call that is clear leaves everything consistent. -/
theorem clear_of_consistent (wellFormed : resolver.WellFormed)
    (consistent : (step resolver call).2.Consistent) : Clear resolver call := by
  cases call with
  | addPath path objectType =>
    simp only [step, Prod.map_snd, id, addPath_snd] at consistent
    by_cases there : (resolver.resolverPaths path).isSome
    · exact .inl there
    · rw [if_neg there] at consistent
      exact .inr (freshParts_of_consistent wellFormed (cursorAt_start resolver)
        (plain_pieces path) consistent)
  | setPathObject path objectId objectType =>
    exact freshParts_of_consistent wellFormed (cursorAt_start resolver) (plain_pieces path)
      consistent
  | removePath path => trivial
  | movePath source target => exact moveClear_of_consistent wellFormed consistent

/-- Everything is in order and all calls so far have returned. -/
def Returned (answers : List (Except ResolverError Unit)) (resolver : ObjectPathResolver) : Prop :=
  resolver.WellFormed ∧ ∀ answer ∈ answers, answer ≠ .error .endless

theorem Returned.step {answers : List (Except ResolverError Unit)}
    (returned : Returned answers resolver) (clear : Clear resolver call) :
    Returned (answers ++ [(step resolver call).1])
      (step resolver call).2 := by
  obtain ⟨next, ends⟩ := returned.1.step clear
  refine ⟨next, fun answer mem => ?_⟩
  rcases mem_append.mp mem with old | new
  · exact returned.2 answer old
  · rw [mem_singleton.mp new]
    exact ends

/-- In every run all states are consistent exactly when every call is clear, and then every call
returns. -/
theorem consistent_iff_clear (calls : List Call) :
    ((∀ earlier, earlier <+: calls → (step.final default earlier).Consistent) ↔
        step.Along Clear default calls) ∧
      (step.Along Clear default calls →
        ∀ answer ∈ step.answers default calls, answer ≠ .error .endless) := by
  constructor
  · symm
    apply Machine.along_iff_prefixes WellFormed
    · exact fun _ wellFormed => wellFormed.consistent
    · exact fun _ _ wellFormed clear => (wellFormed.step clear).1
    · exact fun _ _ wellFormed consistent => clear_of_consistent wellFormed consistent
    · exact WellFormed.default
  · intro along
    have start : Returned [] default := ⟨WellFormed.default, by simp⟩
    have returned := Machine.answers_along Returned
      (fun _ _ _ holds clear => holds.step clear) start along
    simpa using returned.2

/-- An object is added below another one, moved with it, and removed. -/
theorem added_moved_removed :
    (step.final default [.addPath ['a', '.', 'c'] .ofTable, .movePath ['a'] ['b'],
      .removePath ['b', '.', 'c']]).Consistent := by
  refine (consistent_iff_clear [.addPath ['a', '.', 'c'] .ofTable, .movePath ['a'] ['b'],
    .removePath ['b', '.', 'c']]).1.mpr ?_ _ prefix_rfl
  exact ⟨.inr ⟨⟨rfl, not_mem_nil⟩, ⟨rfl, not_mem_nil⟩, trivial⟩,
    fun _ _ => ⟨.inl (by decide +kernel), by decide⟩, trivial, trivial⟩

/-- An object is moved with the one below it, which has a new path then. -/
theorem added_and_moved :
    let added := (step default (.addPath ['a', '.', 'c'] .ofTable)).2
    (added.movePath ['a'] ['b']).2.resolverPaths ['b', '.', 'c'] = some ⟨1⟩ := by
  intro added
  have matched : added.Matched :=
    (WellFormed.default.step (show Clear default (.addPath ['a', '.', 'c'] .ofTable) from
      .inr ⟨⟨rfl, not_mem_nil⟩, ⟨rfl, not_mem_nil⟩, trivial⟩)).1
  refine (((movePath_renames matched (by decide) (by decide)).1 ?_).2 ['b', '.', 'c'] ⟨1⟩).mpr
    (.inl ⟨['.', 'c'], .inr (by decide), rfl, ?_⟩)
  · decide +kernel
  · decide +kernel

/-- A move to a destination with an empty component takes the path of a node that has others
below it. Every path is still the one of its node, and children and parents match, but the next
move of that path loses the paths below it. -/
theorem moved_path_lost :
    let added := step.final default [.addPath ['x'] .ofTable, .addPath ['a', '.', 'c'] .ofTable]
    let resolver := (added.movePath ['x'] ['a', '.']).2
    (∀ path id, resolver.resolverPaths path = some id → PathOf resolver.resolverNodes id path) ∧
      ChildrenMatch resolver.resolverNodes ∧
      resolver.resolverPaths ['a', '.', 'c'] = some ⟨2⟩ ∧
      (resolver.movePath ['a'] ['b']).1 = .ok () ∧
      (resolver.movePath ['a'] ['b']).2.resolverPaths ['b', '.', 'c'] = none := by
  intro added resolver
  have wellFormed : added.WellFormed := Machine.invariant_along WellFormed
    (fun _ _ wellFormed clear => (wellFormed.step clear).1) WellFormed.default
    (show step.Along Clear default _ from ⟨.inr ⟨⟨rfl, not_mem_nil⟩, trivial⟩,
      .inr ⟨⟨rfl, not_mem_nil⟩, ⟨rfl, not_mem_nil⟩, trivial⟩, trivial⟩)
  obtain ⟨names, front, parts⟩ := wellFormed.moveParts (show added.checkMove ['x'] ['a', '.'] =
    .ok ⟨⟨0⟩, ⟨⟨0⟩, ['x'], .ofTable, none, []⟩, none, ['a']⟩ by rfl)
  have paths : resolver.resolverPaths = update (withoutBelow (update (update (update (fun _ => none)
      ['x'] (some ⟨0⟩)) ['a'] (some ⟨1⟩)) ['a', '.', 'c'] (some ⟨2⟩)) ['x']) ['a'] (some ⟨0⟩) := by
    rfl
  refine ⟨fun path id found => ?_, parts.childrenMatch wellFormed, by decide +kernel,
    by decide +kernel, by decide +kernel⟩
  rw [paths] at found
  by_cases own : path = ['a']
  · subst own
    cases found
    exact ⟨[['a']], .root rfl, rfl⟩
  · by_cases below : path = ['a', '.', 'c']
    · subst below
      cases found
      have above : Lineage (forestOf resolver.resolverNodes) ⟨1⟩ [['a']] := .root rfl
      exact ⟨[['a']] ++ [['c']], .child rfl above, rfl⟩
    · simp only [withoutBelow, update_apply, own, below, if_false] at found
      grind

/-- The counter gives the identifier of the caller once more, so two paths have one node. A move
to a path that is not written plainly takes the path of another node. -/
theorem paths_mixed_up :
    ¬(step.final default [.setPathObject ['x'] ⟨0⟩ .ofTable, .addPath ['y'] .ofTable]).Consistent ∧
      ¬(step.final default [.addPath ['x'] .ofTable, .addPath ['a'] .ofTable,
        .movePath ['x'] ['a', '.']]).Consistent := by
  constructor
  · intro consistent
    exact absurd (consistent.apart ['x'] ['y'] ⟨0⟩ (by decide) (by decide)) (by decide)
  · intro consistent
    refine absurd (consistent.eq_of_lineage (?_ : Lineage _ (⟨0⟩ : ObjectId) [['a']])
      (?_ : Lineage _ (⟨1⟩ : ObjectId) [['a']])) (by decide)
    · exact .root (by decide +kernel)
    · exact .root (by decide +kernel)

end

end Nanograph.Kvm.ObjectPathResolver
