import Nanograph.BTree.Tree

/-!
# Views of the node table

A stored node has a body, which is the node without its parent pointer, and a
parent pointer. Splits and merges rewrite parent pointers of nodes whose bodies
stay, so the two are followed separately. The `run_` lemmas evaluate a
computation on a given tree.
-/

namespace Nanograph.BTree

open List

variable {K V : Type}

namespace BPlusTreeNode

@[simp] theorem id_internal (node : InternalNode K) :
    (BPlusTreeNode.internal node : BPlusTreeNode K V).id = node.id := rfl

@[simp] theorem id_leaf (node : LeafNode K V) : (BPlusTreeNode.leaf node).id = node.id := rfl

@[simp] theorem parent_internal (node : InternalNode K) :
    (BPlusTreeNode.internal node : BPlusTreeNode K V).parent = node.parent := rfl

@[simp] theorem parent_leaf (node : LeafNode K V) :
    (BPlusTreeNode.leaf node).parent = node.parent := rfl

section

variable (parent : Option BTreeNodeId) (node : BPlusTreeNode K V)

include parent node

@[simp] theorem id_setParent : (node.setParent parent).id = node.id := by
  cases node <;> rfl

@[simp] theorem parent_setParent : (node.setParent parent).parent = parent := by
  cases node <;> rfl

@[simp] theorem len_setParent : (node.setParent parent).len = node.len := by
  cases node <;> rfl

end

@[simp] theorem setParent_setParent (first second : Option BTreeNodeId) (node : BPlusTreeNode K V) :
    (node.setParent first).setParent second = node.setParent second := by
  cases node <;> rfl

@[simp] theorem setParent_parent (node : BPlusTreeNode K V) :
    node.setParent node.parent = node := by
  cases node <;> rfl

end BPlusTreeNode

namespace BPlusTree

/-- The node stored under an identifier. -/
def node? (tree : BPlusTree K V) (nodeId : BTreeNodeId) : Option (BPlusTreeNode K V) :=
  tree.nodes.lookup nodeId

/-- The stored node with its parent pointer cleared. -/
def bodyOf (tree : BPlusTree K V) (nodeId : BTreeNodeId) : Option (BPlusTreeNode K V) :=
  (tree.node? nodeId).map (·.setParent none)

/-- The parent pointer of the stored node. -/
def parentOf (tree : BPlusTree K V) (nodeId : BTreeNodeId) : Option BTreeNodeId :=
  (tree.node? nodeId).bind (·.parent)

variable {nodeId : BTreeNodeId}

/-- A stored node is its body with its parent pointer put back. -/
theorem node?_of_bodyOf {tree : BPlusTree K V} {body : BPlusTreeNode K V}
    (stored : tree.bodyOf nodeId = some body) :
    tree.node? nodeId = some (body.setParent (tree.parentOf nodeId)) := by
  unfold bodyOf at stored
  unfold parentOf
  cases found : tree.node? nodeId with
  | none => simp [found] at stored
  | some node =>
    simp only [found, Option.map_some, Option.some.injEq] at stored
    simp [← stored]

theorem bodyOf_eq_none {tree : BPlusTree K V} :
    tree.bodyOf nodeId = none ↔ tree.node? nodeId = none := by
  simp [bodyOf]

/-- The tree after `adoptChildren`: the stored children point at `parentId`. -/
def adopt (tree : BPlusTree K V) (parentId : BTreeNodeId) : List BTreeNodeId → BPlusTree K V
  | [] => tree
  | child :: rest =>
    match tree.node? child with
    | some node => adopt (tree.putNode (node.setParent (some parentId))) parentId rest
    | none => adopt tree parentId rest

/-- Every stored node is stored under its own identifier. -/
def Keyed (tree : BPlusTree K V) : Prop :=
  ∀ nodeId node, tree.node? nodeId = some node → node.id = nodeId

section

variable (tree : BPlusTree K V) (node : BPlusTreeNode K V) (nodeId other : BTreeNodeId)

@[simp] theorem node?_setRoot : (tree.setRoot other).node? nodeId = tree.node? nodeId := rfl
@[simp] theorem bodyOf_setRoot : (tree.setRoot other).bodyOf nodeId = tree.bodyOf nodeId := rfl
@[simp] theorem parentOf_setRoot :
    (tree.setRoot other).parentOf nodeId = tree.parentOf nodeId := rfl
@[simp] theorem node?_bumpNodeId : tree.bumpNodeId.node? nodeId = tree.node? nodeId := rfl
@[simp] theorem bodyOf_bumpNodeId : tree.bumpNodeId.bodyOf nodeId = tree.bodyOf nodeId := rfl
@[simp] theorem parentOf_bumpNodeId : tree.bumpNodeId.parentOf nodeId = tree.parentOf nodeId := rfl

@[simp] theorem node?_putNode :
    (tree.putNode node).node? nodeId =
      if nodeId = node.id then some node else tree.node? nodeId := by
  unfold node? putNode
  split
  next equal => rw [equal, AList.lookup_insert]
  next different => exact AList.lookup_insert_ne different

@[simp] theorem node?_dropNode :
    (tree.dropNode other).node? nodeId = if nodeId = other then none else tree.node? nodeId := by
  unfold node? dropNode
  split
  next equal => rw [equal, AList.lookup_erase]
  next different => exact AList.lookup_erase_ne different

@[simp] theorem bodyOf_putNode :
    (tree.putNode node).bodyOf nodeId =
      if nodeId = node.id then some (node.setParent none) else tree.bodyOf nodeId := by
  simp only [bodyOf, node?_putNode]
  split <;> rfl

@[simp] theorem parentOf_putNode :
    (tree.putNode node).parentOf nodeId =
      if nodeId = node.id then node.parent else tree.parentOf nodeId := by
  simp only [parentOf, node?_putNode]
  split <;> rfl

@[simp] theorem bodyOf_dropNode :
    (tree.dropNode other).bodyOf nodeId = if nodeId = other then none else tree.bodyOf nodeId := by
  simp only [bodyOf, node?_dropNode]
  split <;> rfl

@[simp] theorem parentOf_dropNode :
    (tree.dropNode other).parentOf nodeId =
      if nodeId = other then none else tree.parentOf nodeId := by
  simp only [parentOf, node?_dropNode]
  split <;> rfl

variable {tree}

theorem Keyed.putNode (keyed : tree.Keyed) : (tree.putNode node).Keyed := by
  intro nodeId stored found
  rw [node?_putNode] at found
  split at found
  next equal => rw [← Option.some.inj found, equal]
  next different => exact keyed nodeId stored found

theorem Keyed.bumpNodeId (keyed : tree.Keyed) : tree.bumpNodeId.Keyed := keyed

theorem Keyed.setRoot (keyed : tree.Keyed) : (tree.setRoot nodeId).Keyed := keyed

theorem Keyed.dropNode (keyed : tree.Keyed) : (tree.dropNode other).Keyed := by
  intro nodeId stored found
  rw [node?_dropNode] at found
  split at found
  next equal => cases found
  next different => exact keyed nodeId stored found

variable (tree) (parentId : BTreeNodeId) (children : List BTreeNodeId)

/-- Adopting children keeps everything but their parent pointers. -/
theorem adopt_fields : (tree.adopt parentId children).config = tree.config ∧
    (tree.adopt parentId children).rootId = tree.rootId ∧
    (tree.adopt parentId children).nextNodeId = tree.nextNodeId ∧
    (tree.adopt parentId children).leftmostLeaf = tree.leftmostLeaf := by
  induction children generalizing tree with
  | nil => exact ⟨rfl, rfl, rfl, rfl⟩
  | cons child rest ih =>
    rw [adopt]
    split <;> simp [ih]

@[simp] theorem config_adopt : (tree.adopt parentId children).config = tree.config :=
  (adopt_fields tree parentId children).1
@[simp] theorem rootId_adopt : (tree.adopt parentId children).rootId = tree.rootId :=
  (adopt_fields tree parentId children).2.1
@[simp] theorem nextNodeId_adopt : (tree.adopt parentId children).nextNodeId = tree.nextNodeId :=
  (adopt_fields tree parentId children).2.2.1
@[simp] theorem leftmostLeaf_adopt :
    (tree.adopt parentId children).leftmostLeaf = tree.leftmostLeaf :=
  (adopt_fields tree parentId children).2.2.2

variable {tree}

theorem Keyed.adopt (keyed : tree.Keyed) : (tree.adopt parentId children).Keyed := by
  induction children generalizing tree with
  | nil => exact keyed
  | cons child rest ih =>
    rw [BPlusTree.adopt]
    split
    · exact ih (keyed.putNode _)
    · exact ih keyed

/-- Bodies are untouched by an adoption. -/
theorem bodyOf_adopt (keyed : tree.Keyed) :
    (tree.adopt parentId children).bodyOf nodeId = tree.bodyOf nodeId := by
  induction children generalizing tree with
  | nil => rfl
  | cons child rest ih =>
    rw [BPlusTree.adopt]
    split
    next node found =>
      rw [ih (keyed.putNode _), bodyOf_putNode]
      split
      next equal =>
        rw [equal, BPlusTreeNode.id_setParent, keyed child node found, bodyOf, found]
        simp
      next different => rfl
    next => exact ih keyed

/-- An adoption sets the parent pointers of the stored children it lists. -/
theorem parentOf_adopt (keyed : tree.Keyed) :
    (tree.adopt parentId children).parentOf nodeId =
      if nodeId ∈ children ∧ tree.bodyOf nodeId ≠ none then some parentId
      else tree.parentOf nodeId := by
  induction children generalizing tree with
  | nil => simp [BPlusTree.adopt]
  | cons child rest ih =>
    rw [BPlusTree.adopt]
    cases found : tree.node? child with
    | none =>
      have missing := bodyOf_eq_none.mpr found
      simp only [ih keyed, mem_cons]
      by_cases equal : nodeId = child
      · simp [equal, missing]
      · simp [equal]
    | some node =>
      have sameId := keyed child node found
      have stored : tree.bodyOf child ≠ none := by simp [bodyOf, found]
      simp only [ih (keyed.putNode _), mem_cons]
      by_cases equal : nodeId = child
      · subst equal
        simp [sameId, stored]
      · simp [equal, sameId]

end

section

variable {α β : Type} {tree next : BPlusTree K V}

theorem run_bind {first : TreeM K V α} {rest : α → TreeM K V β} {value : α}
    (ran : first tree = .ok value next) : (first >>= rest) tree = rest value next := by
  simp only [bind, EStateM.bind, ran]

theorem run_bind_error {first : TreeM K V α} {rest : α → TreeM K V β} {fault : Fault}
    (failed : first tree = .error fault next) : (first >>= rest) tree = .error fault next := by
  simp only [bind, EStateM.bind, failed]

theorem run_ite {condition : Prop} [Decidable condition] (yes no : TreeM K V α) :
    (if condition then yes else no) tree = if condition then yes tree else no tree := by
  split <;> rfl

@[simp] theorem run_pure (value : α) : (pure value : TreeM K V α) tree = .ok value tree := rfl

@[simp] theorem run_get : (MonadState.get : TreeM K V (BPlusTree K V)) tree = .ok tree tree := rfl

@[simp] theorem run_modify (change : BPlusTree K V → BPlusTree K V) :
    (modify change : TreeM K V Unit) tree = .ok () (change tree) := rfl

@[simp] theorem run_allocateNodeId :
    (allocateNodeId : TreeM K V BTreeNodeId) tree = .ok ⟨tree.nextNodeId⟩ tree.bumpNodeId := rfl

@[simp] theorem run_updateNode (node : BPlusTreeNode K V) :
    updateNode node tree = .ok () (tree.putNode node) := rfl

theorem run_getNode {node : BPlusTreeNode K V} (stored : tree.node? nodeId = some node) :
    getNode nodeId tree = .ok node tree := by
  unfold node? at stored
  simp only [getNode, bind, EStateM.bind, run_get, stored, run_pure]

theorem run_getNode_missing (missing : tree.node? nodeId = none) :
    getNode nodeId tree =
      .error (.error (.internal s!"Node BTreeNodeId({nodeId.raw}) not found")) tree := by
  unfold node? at missing
  simp only [getNode, bind, EStateM.bind, run_get, missing]
  rfl

/-- `adoptChildren` succeeds when every child is stored. -/
theorem run_adoptChildren {parentId : BTreeNodeId} {children : List BTreeNodeId}
    (present : ∀ child ∈ children, tree.bodyOf child ≠ none) :
    adoptChildren parentId children tree = .ok () (tree.adopt parentId children) := by
  induction children generalizing tree with
  | nil => rfl
  | cons child rest ih =>
    cases found : tree.node? child with
    | none => exact absurd (bodyOf_eq_none.mpr found) (present child mem_cons_self)
    | some node =>
      have restPresent : ∀ other ∈ rest,
          (tree.putNode (node.setParent (some parentId))).bodyOf other ≠ none := by
        intro other mem
        rw [bodyOf_putNode]
        split
        · simp
        · exact present other (mem_cons_of_mem _ mem)
      rw [adoptChildren, run_bind (run_getNode found), run_bind (run_updateNode _), ih restPresent]
      simp [adopt, found]

end

end BPlusTree

end Nanograph.BTree
