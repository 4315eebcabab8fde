import Nanograph.Kvm.Resolver

/-!
# The tree behind the paths

What the nodes, the paths and the identifiers that were given back have to do with each other,
and why making and removing nodes keeps it. A new node needs an identifier that no node has and
that was not given back.
-/

namespace Nanograph.Kvm.ObjectPathResolver

open List Function Nanograph.Core Foundation ObjectPathResolver
open Foundation.Forest (Lineage IsChild Below)

/-- The names and parents of the nodes. -/
def forestOf (nodes : PathNodes) : Forest ObjectId (List Char) := fun id =>
  (nodes id).map fun node => (node.objectName, node.parent)

/-- The path of a node by the names up to its root. -/
def PathOf (nodes : PathNodes) (id : ObjectId) (path : List Char) : Prop :=
  ∃ names, Lineage (forestOf nodes) id names ∧ path = buildPath names

/-- The children of every node are the nodes whose parent it is. -/
def ChildrenMatch (nodes : PathNodes) : Prop :=
  ∀ id node, nodes id = some node → ∀ child,
    child ∈ node.children ↔ IsChild (forestOf nodes) child id

/-- Every path is the one of its node by the names up to the root, every node has exactly one
path, children and parents match, no node is among its own ancestors, and identifiers that were
given back have no node. -/
structure Consistent (resolver : ObjectPathResolver) : Prop where
  pathOf : ∀ path id, resolver.resolverPaths path = some id → PathOf resolver.resolverNodes id path
  apart : ∀ path path' id, resolver.resolverPaths path = some id →
    resolver.resolverPaths path' = some id → path = path'
  onePath : ∀ id, resolver.resolverNodes id ≠ none → ∃! path, resolver.resolverPaths path = some id
  children : ChildrenMatch resolver.resolverNodes
  acyclic : ∀ id, ¬Relation.TransGen (IsChild (forestOf resolver.resolverNodes)) id id
  available : ∀ id ∈ resolver.resolverAvailableNodes, resolver.resolverNodes id = none

/-- What every call keeps. -/
structure WellFormed (resolver : ObjectPathResolver) : Prop where
  plain : ∀ id name parent, forestOf resolver.resolverNodes id = some (name, parent) →
    Plain '.' [name]
  registered : ∀ id, resolver.resolverNodes id ≠ none → ∃ names,
    Lineage (forestOf resolver.resolverNodes) id names ∧
      resolver.resolverPaths (buildPath names) = some id
  pathOf : ∀ path id, resolver.resolverPaths path = some id → PathOf resolver.resolverNodes id path
  children : ChildrenMatch resolver.resolverNodes
  available : ∀ id ∈ resolver.resolverAvailableNodes, resolver.resolverNodes id = none

/-- The names and parents of the nodes of a resolver. -/
abbrev forest (resolver : ObjectPathResolver) : Forest ObjectId (List Char) :=
  forestOf resolver.resolverNodes

variable {parent : Option ObjectId} {child node other : ObjectId} {path : List Char}
  {parts : List (List Char)}

section

variable {nodes : PathNodes} {id parentId : ObjectId} {change : PathNode → PathNode}

theorem forestOf_eq_none : forestOf nodes id = none ↔ nodes id = none := by
  simp [forestOf]

/-- What a change of a node keeps is as it was for all nodes. -/
theorem map_modify {β : Type} {view : PathNode → β}
    (keeps : ∀ node, view (change node) = view node) :
    (nodes.modify id change other).map view = (nodes other).map view := by
  rw [PathNodes.modify]
  by_cases same : other = id
  · subst same
    rw [update_self, Option.map_map, show view ∘ change = view from funext keeps]
  · rw [update_of_ne same]

theorem forestOf_update (entry : Option PathNode) :
    forestOf (update nodes id entry) =
      update (forestOf nodes) id (entry.map fun node => (node.objectName, node.parent)) := by
  funext other
  by_cases same : other = id
  · subst same
    simp [forestOf]
  · simp [forestOf, update_of_ne same]

section

variable {β : Type} {view : PathNode → β}
  (keeps : ∀ (node : PathNode) children, view { node with children } = view node)

include keeps

theorem map_attach (parent : Option ObjectId) :
    (attach nodes id parent other).map view = (nodes other).map view := by
  cases parent with
  | none => rfl
  | some parentId => exact map_modify fun node => keeps node _

theorem map_detach (parent : Option ObjectId) :
    (detach nodes id parent other).map view = (nodes other).map view := by
  cases parent with
  | none => rfl
  | some parentId => exact map_modify fun node => keeps node _

end

theorem forestOf_attach (parent : Option ObjectId) :
    forestOf (attach nodes id parent) = forestOf nodes :=
  funext fun _ => map_attach (fun _ _ => rfl) parent

theorem forestOf_detach (parent : Option ObjectId) :
    forestOf (detach nodes id parent) = forestOf nodes :=
  funext fun _ => map_detach (fun _ _ => rfl) parent

def childrenOf (nodes : PathNodes) (id : ObjectId) : List ObjectId :=
  ((nodes id).map (·.children)).getD []

theorem mem_childrenOf_attach (live : ∀ parentId, parent = some parentId → nodes parentId ≠ none) :
    child ∈ childrenOf (attach nodes id parent) node ↔
      child ∈ childrenOf nodes node ∨ (parent = some node ∧ child = id) := by
  cases parent with
  | none => simp [attach]
  | some parentId =>
    obtain ⟨found, there⟩ := Option.ne_none_iff_exists'.mp (live parentId rfl)
    by_cases same : node = parentId
    · subst same
      simp [attach, childrenOf, PathNodes.modify, there]
    · simp [attach, childrenOf, PathNodes.modify, update_of_ne same, Ne.symm same]

theorem mem_childrenOf_detach :
    child ∈ childrenOf (detach nodes id parent) node ↔
      child ∈ childrenOf nodes node ∧ ¬(parent = some node ∧ child = id) := by
  cases parent with
  | none => simp [detach]
  | some parentId =>
    by_cases same : node = parentId
    · subst same
      cases there : nodes node with
      | none => simp [detach, childrenOf, PathNodes.modify, there]
      | some found => simp [detach, childrenOf, PathNodes.modify, there]
    · simp [detach, childrenOf, PathNodes.modify, update_of_ne same, Ne.symm same]

/-- Children and parents match when they do for all nodes, also the missing ones. -/
theorem childrenMatch_of_forall (all : ∀ node child,
    child ∈ childrenOf nodes node ↔ IsChild (forestOf nodes) child node) : ChildrenMatch nodes := by
  intro id node found child
  rw [← all id child, childrenOf, found]
  rfl

/-- Names up to a root are plain when those of all nodes are. -/
theorem plain_of_lineage {names : List (List Char)}
    (plain : ∀ id name parent, forestOf nodes id = some (name, parent) → Plain '.' [name])
    (lineage : Lineage (forestOf nodes) id names) : Plain '.' names := by
  induction lineage with
  | root found => exact plain _ _ _ found
  | child found above ih =>
    exact plain_append.mpr ⟨ih, plain _ _ _ found⟩

end

namespace WellFormed

variable {resolver : ObjectPathResolver} {id other : ObjectId} {names : List (List Char)}

section

variable (wellFormed : resolver.WellFormed)

include wellFormed

section

variable (lineage : Lineage resolver.forest id names)

include lineage

theorem plainNames : Plain '.' names :=
  plain_of_lineage wellFormed.plain lineage

/-- A node is registered under the names up to its root. -/
theorem path_of_lineage : resolver.resolverPaths (buildPath names) = some id := by
  have live : resolver.resolverNodes id ≠ none := fun gone =>
    lineage.live (forestOf_eq_none.mpr gone)
  obtain ⟨names', lineage', found⟩ := wellFormed.registered id live
  rwa [lineage.unique lineage']

/-- Nodes with the same names up to the root are the same. -/
theorem eq_of_lineage (lineage' : Lineage resolver.forest other names) : id = other :=
  Option.some.inj ((wellFormed.path_of_lineage lineage).symm.trans
    (wellFormed.path_of_lineage lineage'))

end

/-- The parent of a node is a node. -/
theorem parent_live (isChild : IsChild resolver.forest id other) :
    resolver.resolverNodes other ≠ none := by
  have live : resolver.resolverNodes id ≠ none := by
    obtain ⟨name, found⟩ := isChild
    exact fun gone => by simp [forestOf, gone] at found
  obtain ⟨names, lineage, -⟩ := wellFormed.registered id live
  obtain ⟨above, name, -, parentLineage⟩ := lineage.of_isChild isChild
  exact fun gone => parentLineage.live (forestOf_eq_none.mpr gone)

theorem mem_childrenOf {node child : ObjectId} :
    child ∈ childrenOf resolver.resolverNodes node ↔ IsChild resolver.forest child node := by
  cases found : resolver.resolverNodes node with
  | none =>
    refine iff_of_false (by simp [childrenOf, found]) fun isChild => ?_
    exact wellFormed.parent_live isChild found
  | some entry =>
    rw [← wellFormed.children node entry found, childrenOf, found]
    rfl

theorem consistent : resolver.Consistent where
  pathOf := wellFormed.pathOf
  apart := by
    intro path path' id found found'
    obtain ⟨names, lineage, rfl⟩ := wellFormed.pathOf path id found
    obtain ⟨names', lineage', rfl⟩ := wellFormed.pathOf path' id found'
    rw [lineage.unique lineage']
  onePath := by
    intro id live
    obtain ⟨names, lineage, found⟩ := wellFormed.registered id live
    refine ⟨buildPath names, found, fun path found' => ?_⟩
    obtain ⟨names', lineage', rfl⟩ := wellFormed.pathOf path id found'
    rw [lineage.unique lineage']
  children := wellFormed.children
  acyclic := by
    intro id cyclic
    obtain ⟨parent, ⟨name, found⟩, -⟩ := Relation.TransGen.head'_iff.mp cyclic
    have live : resolver.resolverNodes id ≠ none := fun gone => by simp [forestOf, gone] at found
    obtain ⟨names, lineage, -⟩ := wellFormed.registered id live
    exact lineage.not_cyclic cyclic
  available := wellFormed.available

end

theorem default : default.WellFormed where
  plain := by simp [ObjectPathResolver.default, forestOf]
  registered := by simp [ObjectPathResolver.default]
  pathOf := by simp [ObjectPathResolver.default]
  children := by simp [ObjectPathResolver.default, ChildrenMatch]
  available := by simp [ObjectPathResolver.default]

end WellFormed

section

variable {resolver : ObjectPathResolver} {id : ObjectId} {names : List (List Char)}
  {part : List Char} {objectType : ObjectType} {leaf : Option ObjectId} {cursor : Cursor}

/-- The names of a node, or no names for none. -/
def ParentAt (nodes : PathNodes) : Option ObjectId → List (List Char) → Prop
  | none, names => names = []
  | some parent, names => Lineage (forestOf nodes) parent names

/-- A cursor stands at the node of its path, or in front of all nodes. -/
def CursorAt (resolver : ObjectPathResolver) (cursor : Cursor) (names : List (List Char)) : Prop :=
  cursor.path = buildPath names ∧ ParentAt resolver.resolverNodes cursor.parent names

theorem CursorAt.plain (stands : CursorAt resolver cursor names) (wellFormed : resolver.WellFormed) :
    Plain '.' names := by
  obtain ⟨-, node⟩ := stands
  cases found : cursor.parent with
  | none =>
    rw [found] at node
    rw [show names = [] from node]
    simp [Plain]
  | some parent =>
    rw [found] at node
    exact wellFormed.plainNames node

theorem CursorAt.pathOf (stands : CursorAt resolver cursor names) (plain : Plain '.' names)
    (part : List Char) : cursor.pathOf part = buildPath (names ++ [part]) := by
  rw [Cursor.pathOf, stands.1]
  by_cases none : names = []
  · subst none
    simp [buildPath]
  · rw [buildPath, if_neg (joined_ne_nil plain none), buildPath, joined_append none
      (cons_ne_nil part []), joined_singleton]

theorem forestOf_placeNode (parent : Option ObjectId) (path : List Char) :
    forestOf (resolver.placeNode id part objectType parent path).resolverNodes =
      update resolver.forest id (some (part, parent)) := by
  rw [placeNode, forestOf_attach, forestOf_update]
  rfl

theorem paths_placeNode (parent : Option ObjectId) (path : List Char) :
    (resolver.placeNode id part objectType parent path).resolverPaths =
      update resolver.resolverPaths path (some id) := rfl

theorem nodes_placeNode_eq_none :
    (resolver.placeNode id part objectType parent path).resolverNodes other = none ↔
      other ≠ id ∧ resolver.resolverNodes other = none := by
  rw [← forestOf_eq_none, forestOf_placeNode]
  by_cases same : other = id
  · subst same
    simp
  · simp [same, forestOf_eq_none]

theorem mem_childrenOf_placeNode
    (live : ∀ parentId, parent = some parentId → resolver.resolverNodes parentId ≠ none) :
    child ∈ childrenOf (resolver.placeNode id part objectType parent path).resolverNodes node ↔
      (node ≠ id ∧ child ∈ childrenOf resolver.resolverNodes node) ∨
        (parent = some node ∧ child = id) := by
  rw [placeNode, mem_childrenOf_attach]
  · by_cases same : node = id
    · subst same
      simp [childrenOf]
    · simp [childrenOf, same]
  · intro parentId isParent
    by_cases same : parentId = id
    · subst same
      simp
    · rw [update_of_ne same]
      exact live parentId isParent

/-- Making a node with a fresh identifier keeps everything in order. -/
theorem WellFormed.placeNode (wellFormed : resolver.WellFormed)
    (stands : CursorAt resolver cursor names) (named : Plain '.' [part])
    (missing : resolver.resolverPaths (cursor.pathOf part) = none)
    (unused : resolver.resolverNodes id = none) (kept : id ∉ resolver.resolverAvailableNodes) :
    (resolver.placeNode id part objectType cursor.parent (cursor.pathOf part)).WellFormed ∧
      CursorAt (resolver.placeNode id part objectType cursor.parent (cursor.pathOf part))
        ⟨some id, cursor.pathOf part⟩ (names ++ [part]) := by
  have path := stands.pathOf (stands.plain wellFormed) part
  have absent : resolver.forest id = none := forestOf_eq_none.mpr unused
  have forest : forestOf (resolver.placeNode id part objectType cursor.parent
      (cursor.pathOf part)).resolverNodes = _ := forestOf_placeNode cursor.parent _
  -- the lineages of all other nodes stay
  have stays : ∀ {other others}, Lineage resolver.forest other others →
      Lineage (update resolver.forest id (some (part, cursor.parent)))
        other others := by
    intro other others
    apply Lineage.mono
    intro node entry found
    have differs : node ≠ id := by
      rintro rfl
      simp [absent] at found
    exact (update_of_ne differs _ _).trans found
  have own : Lineage (update resolver.forest id
      (some (part, cursor.parent))) id (names ++ [part]) := by
    have node := stands.2
    cases parent : cursor.parent with
    | none =>
      rw [parent] at node
      rw [show names = [] from node]
      exact .root (update_self ..)
    | some parentId =>
      rw [parent] at node stays
      exact .child (update_self ..) (stays node)
  refine ⟨⟨?_, ?_, ?_, ?_, ?_⟩, path,
    show Lineage (forestOf _) id (names ++ [part]) from forest ▸ own⟩
  · intro other name parent found
    rw [forest] at found
    by_cases same : other = id
    · subst same
      rw [update_self] at found
      obtain ⟨rfl, -⟩ := Prod.mk.inj (Option.some.inj found)
      exact named
    · exact wellFormed.plain other name parent ((update_of_ne same ..).symm.trans found)
  · intro other live
    by_cases same : other = id
    · subst same
      exact ⟨names ++ [part], forest ▸ own, path ▸ update_self ..⟩
    · have before : resolver.resolverNodes other ≠ none := fun gone =>
        live (nodes_placeNode_eq_none.mpr ⟨same, gone⟩)
      obtain ⟨others, lineage, found⟩ := wellFormed.registered other before
      refine ⟨others, forest ▸ stays lineage, ?_⟩
      have differs : buildPath others ≠ cursor.pathOf part := by
        intro samePath
        rw [samePath, missing] at found
        cases found
      exact (update_of_ne differs ..).trans found
  · intro other node found
    by_cases same : other = cursor.pathOf part
    · subst same
      rw [paths_placeNode, update_self] at found
      obtain rfl := Option.some.inj found
      exact ⟨names ++ [part], forest ▸ own, path⟩
    · obtain ⟨others, lineage, rfl⟩ :=
        wellFormed.pathOf other node ((update_of_ne same ..).symm.trans found)
      exact ⟨others, forest ▸ stays lineage, rfl⟩
  · refine childrenMatch_of_forall fun node child => ?_
    have live : ∀ parentId, cursor.parent = some parentId →
        resolver.resolverNodes parentId ≠ none := by
      intro parentId isParent gone
      have node := stands.2
      rw [isParent] at node
      exact Lineage.live node (forestOf_eq_none.mpr gone)
    rw [forest, Forest.isChild_update, mem_childrenOf_placeNode live, wellFormed.mem_childrenOf]
    by_cases same : child = id
    · subst same
      have alone : ¬IsChild resolver.forest child node := by
        rintro ⟨name, found⟩
        simp [absent] at found
      simp [alone]
    · have apart : IsChild resolver.forest child node → node ≠ id := by
        rintro isChild rfl
        exact wellFormed.parent_live isChild unused
      simp only [same, and_false, or_false, if_false]
      exact ⟨And.right, fun isChild => ⟨apart isChild, isChild⟩⟩
  · intro other free
    refine nodes_placeNode_eq_none.mpr ⟨?_, wellFormed.available other free⟩
    rintro rfl
    exact kept free

/-- Issuing an identifier leaves nodes and paths, and may take an identifier away from the ones
that were given back. -/
theorem idForPart_frame (resolver : ObjectPathResolver) (leaf : Option ObjectId) (isLeaf : Bool) :
    (resolver.idForPart leaf isLeaf).2.resolverNodes = resolver.resolverNodes ∧
      (resolver.idForPart leaf isLeaf).2.resolverPaths = resolver.resolverPaths ∧
      (resolver.idForPart leaf isLeaf).2.resolverAvailableNodes ⊆
        resolver.resolverAvailableNodes := by
  have next : resolver.getNextObjectId.2.resolverNodes = resolver.resolverNodes ∧
      resolver.getNextObjectId.2.resolverPaths = resolver.resolverPaths ∧
      resolver.getNextObjectId.2.resolverAvailableNodes ⊆ resolver.resolverAvailableNodes := by
    rw [getNextObjectId]
    cases (resolver.resolverAvailableNodes.map (·.raw.toNat)).min? with
    | none => exact ⟨rfl, rfl, List.Subset.refl _⟩
    | some least => exact ⟨rfl, rfl, filter_subset_self _⟩
  cases leaf with
  | none => exact next
  | some objectId =>
    cases isLeaf with
    | false => exact next
    | true => exact ⟨rfl, rfl, List.Subset.refl _⟩

/-- An identifier that was issued is not among the ones that were given back. -/
theorem getNextObjectId_taken (resolver : ObjectPathResolver) :
    resolver.getNextObjectId.1 ∉ resolver.getNextObjectId.2.resolverAvailableNodes := by
  rw [getNextObjectId]
  cases found : (resolver.resolverAvailableNodes.map (·.raw.toNat)).min? with
  | none =>
    rw [min?_eq_none_iff, map_eq_nil_iff] at found
    simp [found]
  | some least => simp

/-- Issuing an identifier keeps everything in order. -/
theorem WellFormed.idForPart (wellFormed : resolver.WellFormed) (leaf : Option ObjectId)
    (isLeaf : Bool) : (resolver.idForPart leaf isLeaf).2.WellFormed := by
  obtain ⟨nodes, paths, available⟩ := idForPart_frame resolver leaf isLeaf
  constructor
  · rw [nodes]
    exact wellFormed.plain
  · rw [nodes, paths]
    exact wellFormed.registered
  · rw [nodes, paths]
    exact wellFormed.pathOf
  · rw [nodes]
    exact wellFormed.children
  · rw [nodes]
    exact fun id free => wellFormed.available id (available free)

/-- Every node that is made along a path gets an identifier that no node has and that was not
given back. -/
def FreshParts (leaf : Option ObjectId) (objectType : ObjectType) :
    ObjectPathResolver → Cursor → List (List Char) → Prop
  | _, _, [] => True
  | resolver, cursor, part :: rest =>
    let path := cursor.pathOf part
    match resolver.resolverPaths path with
    | some existing => FreshParts leaf objectType resolver ⟨some existing, path⟩ rest
    | none =>
      let (id, resolver) := resolver.idForPart leaf rest.isEmpty
      let nodeType := if rest.isEmpty then objectType else .ofNamespace
      (resolver.resolverNodes id = none ∧ id ∉ resolver.resolverAvailableNodes) ∧
        FreshParts leaf objectType (resolver.placeNode id part nodeType cursor.parent path)
          ⟨some id, path⟩ rest

/-- A cursor moves on to the node of the next part. -/
theorem CursorAt.next (stands : CursorAt resolver cursor names) (wellFormed : resolver.WellFormed)
    (named : Plain '.' [part]) {existing : ObjectId}
    (found : resolver.resolverPaths (cursor.pathOf part) = some existing) :
    CursorAt resolver ⟨some existing, cursor.pathOf part⟩ (names ++ [part]) := by
  have plain := stands.plain wellFormed
  have path := stands.pathOf plain part
  obtain ⟨names', lineage, same⟩ := wellFormed.pathOf _ _ found
  rw [path] at same
  rw [← joined_injective (plain_append.mpr ⟨plain, named⟩) (wellFormed.plainNames lineage)
    same] at lineage
  exact ⟨path, lineage⟩

theorem CursorAt.idForPart (stands : CursorAt resolver cursor names) (leaf : Option ObjectId)
    (isLeaf : Bool) : CursorAt (resolver.idForPart leaf isLeaf).2 cursor names := by
  rw [CursorAt, (idForPart_frame resolver leaf isLeaf).1]
  exact stands

/-- Walking along a path keeps everything in order when all new identifiers are fresh. -/
theorem WellFormed.placeParts (wellFormed : resolver.WellFormed)
    (stands : CursorAt resolver cursor names) (plain : Plain '.' parts)
    (fresh : FreshParts leaf objectType resolver cursor parts) :
    (placeParts leaf objectType resolver cursor parts).2.WellFormed := by
  induction parts generalizing resolver cursor names with
  | nil => exact wellFormed
  | cons part rest ih =>
    obtain ⟨partPlain, plainRest⟩ := forall_mem_cons.mp plain
    have named : Plain '.' [part] := forall_mem_singleton.mpr partPlain
    rw [placeParts]
    rw [FreshParts] at fresh
    cases found : resolver.resolverPaths (cursor.pathOf part) with
    | some existing =>
      simp only [found] at fresh ⊢
      exact ih wellFormed (stands.next wellFormed named found) plainRest fresh
    | none =>
      simp only [found] at fresh ⊢
      have missing : (resolver.idForPart leaf rest.isEmpty).2.resolverPaths
          (cursor.pathOf part) = none := by
        rw [(idForPart_frame resolver leaf rest.isEmpty).2.1, found]
      obtain ⟨placed, moved⟩ := (wellFormed.idForPart leaf rest.isEmpty).placeNode
        (stands.idForPart leaf rest.isEmpty) named missing fresh.1.1 fresh.1.2
      exact ih placed moved plainRest fresh.2

/-- Paths stay while others are registered. -/
theorem placeParts_keeps_path (found : resolver.resolverPaths path = some id) :
    (placeParts leaf objectType resolver cursor parts).2.resolverPaths path = some id := by
  induction parts generalizing resolver cursor with
  | nil => exact found
  | cons part rest ih =>
    rw [placeParts]
    cases there : resolver.resolverPaths (cursor.pathOf part) with
    | some existing => exact ih found
    | none =>
      have differs : path ≠ cursor.pathOf part := by
        rintro rfl
        cases found.symm.trans there
      apply ih
      rw [paths_placeNode, update_of_ne differs]
      exact (congrFun (idForPart_frame resolver leaf rest.isEmpty).2.1 path).trans found

/-- Only fresh identifiers leave everything consistent. -/
theorem freshParts_of_consistent (wellFormed : resolver.WellFormed)
    (stands : CursorAt resolver cursor names) (plain : Plain '.' parts)
    (consistent : (placeParts leaf objectType resolver cursor parts).2.Consistent) :
    FreshParts leaf objectType resolver cursor parts := by
  induction parts generalizing resolver cursor names with
  | nil => trivial
  | cons part rest ih =>
    obtain ⟨partPlain, plainRest⟩ := forall_mem_cons.mp plain
    have named : Plain '.' [part] := forall_mem_singleton.mpr partPlain
    rw [placeParts] at consistent
    rw [FreshParts]
    cases found : resolver.resolverPaths (cursor.pathOf part) with
    | some existing =>
      simp only [found] at consistent ⊢
      exact ih wellFormed (stands.next wellFormed named found) plainRest
        consistent
    | none =>
      simp only [found] at consistent ⊢
      obtain ⟨nodes, paths, -⟩ := idForPart_frame resolver leaf rest.isEmpty
      have missing : (resolver.idForPart leaf rest.isEmpty).2.resolverPaths
          (cursor.pathOf part) = none := by
        rw [paths, found]
      have unused : (resolver.idForPart leaf rest.isEmpty).2.resolverNodes
          (resolver.idForPart leaf rest.isEmpty).1 = none := by
        by_contra used
        rw [nodes] at used
        obtain ⟨names', lineage, old⟩ := wellFormed.registered _ used
        have differs : buildPath names' ≠ cursor.pathOf part := by
          intro same
          rw [same, found] at old
          cases old
        -- the identifier has its old path and the new one
        refine differs (consistent.apart _ _ (resolver.idForPart leaf rest.isEmpty).1 ?_ ?_)
        · apply placeParts_keeps_path
          rw [paths_placeNode, update_of_ne differs, paths, old]
        · apply placeParts_keeps_path
          rw [paths_placeNode, update_self]
      have taken : (resolver.idForPart leaf rest.isEmpty).1 ∉
          (resolver.idForPart leaf rest.isEmpty).2.resolverAvailableNodes := by
        cases leaf with
        | none => exact getNextObjectId_taken resolver
        | some objectId =>
          cases rest with
          | cons _ _ => exact getNextObjectId_taken resolver
          | nil =>
            intro free
            exact (nodes_placeNode_eq_none.mp (consistent.available objectId free)).1 rfl
      obtain ⟨placed, moved⟩ := (wellFormed.idForPart leaf rest.isEmpty).placeNode
        (stands.idForPart leaf rest.isEmpty) named missing unused taken
      exact ⟨⟨unused, taken⟩, ih placed moved plainRest consistent⟩

variable {node : PathNode} {path : List Char}

/-- The parent of a node by its entry. -/
theorem isChild_iff {nodes : PathNodes} (found : nodes id = some node) {parent : ObjectId} :
    IsChild (forestOf nodes) id parent ↔ node.parent = some parent := by
  simp [IsChild, forestOf, found]

theorem forestOf_removeNode (parent : Option ObjectId) :
    forestOf (resolver.removeNode path id parent).resolverNodes =
      update resolver.forest id none := by
  rw [removeNode, forestOf_update, forestOf_detach]
  rfl

theorem nodes_removeNode_eq_none :
    (resolver.removeNode path id parent).resolverNodes other = none ↔
      other = id ∨ resolver.resolverNodes other = none := by
  rw [← forestOf_eq_none, forestOf_removeNode]
  by_cases same : other = id
  · subst same
    simp
  · simp [same, forestOf_eq_none]

theorem mem_childrenOf_removeNode :
    child ∈ childrenOf (resolver.removeNode path id parent).resolverNodes other ↔
      other ≠ id ∧ child ∈ childrenOf resolver.resolverNodes other ∧
        ¬(parent = some other ∧ child = id) := by
  rw [← mem_childrenOf_detach, removeNode]
  by_cases same : other = id
  · subst same
    simp [childrenOf]
  · simp [childrenOf, same]

/-- Removing a node without children keeps everything in order. -/
theorem WellFormed.removeNode (wellFormed : resolver.WellFormed)
    (registered : resolver.resolverPaths path = some id)
    (found : resolver.resolverNodes id = some node) (childless : node.children = []) :
    (resolver.removeNode path id node.parent).WellFormed := by
  have forest : forestOf (resolver.removeNode path id node.parent).resolverNodes = _ :=
    forestOf_removeNode node.parent
  have alone : ∀ child, ¬IsChild resolver.forest child id := by
    intro child isChild
    have mem := (wellFormed.children id node found child).mpr isChild
    simp [childless] at mem
  have stays : ∀ {other others}, Lineage resolver.forest other others → other ≠ id →
      Lineage (update resolver.forest id none) other others := by
    intro other others lineage differs
    refine lineage.update_of_not_below (fun below => ?_) none
    obtain rfl | ⟨child, -, isChild⟩ := Relation.ReflTransGen.cases_tail below
    · exact differs rfl
    · exact alone child isChild
  obtain ⟨names, lineage, rfl⟩ := wellFormed.pathOf path id registered
  constructor
  · intro other name parent entry
    rw [forest] at entry
    by_cases same : other = id
    · subst same
      simp at entry
    · exact wellFormed.plain other name parent ((update_of_ne same ..).symm.trans entry)
  · intro other live
    rw [ne_eq, nodes_removeNode_eq_none, not_or] at live
    obtain ⟨others, otherLineage, there⟩ := wellFormed.registered other live.2
    refine ⟨others, forest ▸ stays otherLineage live.1, ?_⟩
    have differs : buildPath others ≠ buildPath names := by
      intro same
      rw [same, registered] at there
      exact live.1 (Option.some.inj there).symm
    exact (update_of_ne differs ..).trans there
  · intro other holder there
    by_cases same : other = buildPath names
    · subst same
      simp [removeNode] at there
    · have before : resolver.resolverPaths other = some holder :=
        (update_of_ne same ..).symm.trans there
      obtain ⟨others, otherLineage, rfl⟩ := wellFormed.pathOf other holder before
      refine ⟨others, forest ▸ stays otherLineage ?_, rfl⟩
      rintro rfl
      exact same (congrArg buildPath (otherLineage.unique lineage))
  · refine childrenMatch_of_forall fun other child => ?_
    rw [forest, Forest.isChild_update, mem_childrenOf_removeNode, wellFormed.mem_childrenOf]
    by_cases same : child = id
    · subst same
      simp only [isChild_iff found, if_true, reduceCtorEq, exists_false, iff_false]
      tauto
    · have apart : IsChild resolver.forest child other → other ≠ id := by
        rintro isChild rfl
        exact alone child isChild
      simp only [same, and_false, not_false_eq_true, and_true, if_false]
      exact ⟨And.right, fun isChild => ⟨apart isChild, isChild⟩⟩
  · intro other free
    rw [nodes_removeNode_eq_none]
    by_cases same : other = id
    · exact .inl same
    · refine .inr (wellFormed.available other ?_)
      simp only [removeNode] at free
      split at free
      next => exact free
      next => exact (mem_cons.mp free).resolve_left same

theorem WellFormed.removePath (wellFormed : resolver.WellFormed) (path : List Char) :
    (resolver.removePath path).2.WellFormed := by
  unfold ObjectPathResolver.removePath
  split
  next => exact wellFormed
  next id registered =>
    split
    next => exact wellFormed
    next node found =>
      split
      next => exact wellFormed
      next childless =>
        exact wellFormed.removeNode registered found (not_not.mp childless)

end

end Nanograph.Kvm.ObjectPathResolver
