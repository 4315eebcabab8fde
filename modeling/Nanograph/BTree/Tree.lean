import Nanograph.BTree.Node

/-!
# The B+Tree

The operations of `nanograph-btree/src/tree.rs` on a tree without persistence.
Nodes live in one table and refer to each other by identifier, so an operation
is a computation in `TreeM`, which passes the tree along and keeps it when an
operation faults. The locks of the source guard single fields and are not
modelled: one operation runs at a time.

Descents and the propagation of splits and merges towards the root are loops in
the source. Each takes a bound here; one more than the number of nodes is enough
for a loop that meets no node twice, the last step being for a node that is not
there, and running out of it is `Fault.diverged`.
-/

namespace Nanograph.BTree

variable {K V : Type}

/-- Configuration for B+Tree. -/
structure BPlusTreeConfig where
  maxKeys : Nat
  minKeys : Nat

/-- B+Tree over a table of nodes. -/
structure BPlusTree (K V : Type) where
  config : BPlusTreeConfig
  rootId : BTreeNodeId
  nodes : AList fun _ : BTreeNodeId => BPlusTreeNode K V
  nextNodeId : Nat
  leftmostLeaf : Option BTreeNodeId

/-- Computations on a tree that may fault. -/
abbrev TreeM (K V : Type) := EStateM Fault (BPlusTree K V)

namespace InternalNode

/-- The position of a child and the separator before it, when there is one. -/
def separatorBefore (node : InternalNode K) (childId : BTreeNodeId) : Option (Nat × K) :=
  match node.children.idxOf? childId with
  | none => none
  | some pos =>
    if 0 < pos ∧ pos ≤ node.keys.length then (node.keys[pos - 1]?).map (pos, ·) else none

/-- The position of a child and the separator after it, when there is one. -/
def separatorAfter (node : InternalNode K) (childId : BTreeNodeId) : Option (Nat × K) :=
  match node.children.idxOf? childId with
  | none => none
  | some pos => (node.keys[pos]?).map (pos, ·)

/-- Drop a child with the separator before it, or with the first separator when
it is the first child. -/
def removeChild (node : InternalNode K) (childId : BTreeNodeId) : InternalNode K :=
  match node.children.idxOf? childId with
  | none => node
  | some pos =>
    { node with
      children := node.children.eraseIdx pos
      keys :=
        if 0 < pos ∧ pos ≤ node.keys.length then node.keys.eraseIdx (pos - 1)
        else if pos = 0 then node.keys.eraseIdx 0
        else node.keys }

end InternalNode

def BPlusTreeNode.firstKey? : BPlusTreeNode K V → Option K
  | .leaf node => node.entries.head?.map (·.1)
  | .internal node => node.keys.head?

namespace BPlusTree

/-- Create a new B+Tree without persistence. -/
def new (config : BPlusTreeConfig) : BPlusTree K V where
  config := config
  rootId := ⟨0⟩
  nodes := AList.singleton ⟨0⟩ (BPlusTreeNode.newLeaf ⟨0⟩)
  nextNodeId := 1
  leftmostLeaf := some ⟨0⟩

/-- Store a node under its own identifier. -/
def putNode (tree : BPlusTree K V) (node : BPlusTreeNode K V) : BPlusTree K V :=
  { tree with nodes := tree.nodes.insert node.id node }

def dropNode (tree : BPlusTree K V) (nodeId : BTreeNodeId) : BPlusTree K V :=
  { tree with nodes := tree.nodes.erase nodeId }

def setRoot (tree : BPlusTree K V) (nodeId : BTreeNodeId) : BPlusTree K V :=
  { tree with rootId := nodeId }

/-- Use up the next node identifier. -/
def bumpNodeId (tree : BPlusTree K V) : BPlusTree K V :=
  { tree with nextNodeId := tree.nextNodeId + 1 }

attribute [simps config rootId nextNodeId leftmostLeaf] putNode dropNode setRoot bumpNodeId

/-- The bound on the loops that follow node identifiers. -/
def loopBound (tree : BPlusTree K V) : Nat := tree.nodes.keys.length + 1

def allocateNodeId : TreeM K V BTreeNodeId :=
  modifyGet fun tree => (⟨tree.nextNodeId⟩, tree.bumpNodeId)

def getNode (nodeId : BTreeNodeId) : TreeM K V (BPlusTreeNode K V) := do
  let tree ← MonadState.get
  match tree.nodes.lookup nodeId with
  | some node => pure node
  | none => throw (.error (.internal s!"Node BTreeNodeId({nodeId.raw}) not found"))

def updateNode (node : BPlusTreeNode K V) : TreeM K V Unit :=
  modify fun tree => tree.putNode node

def removeNode (nodeId : BTreeNodeId) : TreeM K V Unit :=
  modify fun tree => tree.dropNode nodeId

/-- Point the parent of every listed child at `parentId`. -/
def adoptChildren (parentId : BTreeNodeId) : List BTreeNodeId → TreeM K V Unit
  | [] => pure ()
  | childId :: rest => do
    let child ← getNode childId
    updateNode (child.setParent (some parentId))
    adoptChildren parentId rest

/-- Lift a result computed on nodes alone. -/
def liftNode {α : Type} : Except Fault α → TreeM K V α
  | .ok value => pure value
  | .error fault => throw fault

/-- Create a new root node above two children. -/
def createNewRoot [LinearOrder K] (leftChild : BTreeNodeId) (key : K)
    (rightChild : BTreeNodeId) : TreeM K V Unit := do
  let newRootId ← allocateNodeId
  -- The left child goes before the key, so it is pushed first.
  let newRoot : BPlusTreeNode K V :=
    .internal { BPlusTreeNode.newInternal newRootId with children := [leftChild] }
  let newRoot ← liftNode (newRoot.insertInternalEntry key rightChild)
  adoptChildren newRootId [leftChild]
  adoptChildren newRootId [rightChild]
  updateNode newRoot
  modify fun tree => tree.setRoot newRootId

/-- Split an internal node and hand the separator to its parent. -/
def splitInternal [LinearOrder K]
    (insertIntoParent : BTreeNodeId → K → BTreeNodeId → TreeM K V Unit)
    (internal : BPlusTreeNode K V) : TreeM K V Unit := do
  let newNodeId ← allocateNodeId
  let (internal, separatorKey, newInternal) ← liftNode (internal.splitInternal newNodeId)
  adoptChildren newInternal.id newInternal.getAllChildren
  updateNode internal
  updateNode newInternal
  match internal.parent with
  | some parentId => insertIntoParent parentId separatorKey newInternal.id
  | none => createNewRoot internal.id separatorKey newInternal.id

/-- Insert a key and child pointer into a parent node. -/
def insertIntoParent [LinearOrder K] : Nat → BTreeNodeId → K → BTreeNodeId → TreeM K V Unit
  | 0, _, _, _ => throw .diverged
  | bound + 1, parentId, key, rightChild => do
    let parent ← getNode parentId
    let parent ← liftNode (parent.insertInternalEntry key rightChild)
    let tree ← MonadState.get
    if parent.isFull tree.config.maxKeys then
      splitInternal (insertIntoParent bound) parent
    else
      updateNode parent

/-- Split a leaf node and propagate splits up the tree. -/
def splitLeaf [LinearOrder K] (bound : Nat) (leaf : BPlusTreeNode K V) : TreeM K V Unit := do
  let newNodeId ← allocateNodeId
  let (leaf, separatorKey, newLeaf) ← liftNode (leaf.splitLeaf newNodeId)
  updateNode leaf
  updateNode newLeaf
  match leaf.parent with
  | some parentId => insertIntoParent bound parentId separatorKey newLeaf.id
  | none => createNewRoot leaf.id separatorKey newLeaf.id

/-- Find the leaf node that should contain the given key. -/
def findLeaf [LinearOrder K] : Nat → BTreeNodeId → K → TreeM K V BTreeNodeId
  | 0, _, _ => throw .diverged
  | bound + 1, nodeId, key => do
    let node ← getNode nodeId
    if node.isLeaf then
      pure nodeId
    else
      match node.getChildForKey key with
      | some childId => findLeaf bound childId key
      | none => throw (.error .nodeNotFound)

/-- Search for a key and return its value. -/
def get [LinearOrder K] (key : K) : TreeM K V (Option V) := do
  let tree ← MonadState.get
  let leafId ← findLeaf tree.loopBound tree.rootId key
  let leaf ← getNode leafId
  pure (leaf.get key)

def insert [LinearOrder K] (key : K) (value : V) : TreeM K V Unit := do
  let tree ← MonadState.get
  let leafId ← findLeaf tree.loopBound tree.rootId key
  let leaf ← getNode leafId
  let leaf := (leaf.insertEntry key value).1
  if leaf.isFull tree.config.maxKeys then
    splitLeaf tree.loopBound leaf
  else
    updateNode leaf

def getLeftSibling (node parent : BPlusTreeNode K V) : Option BTreeNodeId :=
  match parent with
  | .internal parentInternal =>
    match parentInternal.children.idxOf? node.id with
    | some pos => if 0 < pos then parentInternal.children[pos - 1]? else none
    | none => none
  | .leaf _ => none

def getRightSibling (node parent : BPlusTreeNode K V) : Option BTreeNodeId :=
  match parent with
  | .internal parentInternal =>
    match parentInternal.children.idxOf? node.id with
    | some pos => parentInternal.children[pos + 1]?
    | none => none
  | .leaf _ => none

/-- Update the separator key before a child to that child's first key. -/
def updateSeparatorKey (parentId childId : BTreeNodeId) : TreeM K V Unit := do
  let parent ← getNode parentId
  let child ← getNode childId
  match parent with
  | .internal parentInternal =>
    match parentInternal.separatorBefore childId, child.firstKey? with
    | some (pos, _), some newSeparator =>
      updateNode (.internal
        { parentInternal with keys := parentInternal.keys.set (pos - 1) newSeparator })
    | _, _ => pure ()
  | .leaf _ => pure ()

/-- Rotate one child from the left sibling through the parent. -/
def rotateFromLeft (parentId : BTreeNodeId) (internal leftInternal : InternalNode K) :
    TreeM K V (InternalNode K × InternalNode K) := do
  match ← getNode parentId with
  | .leaf _ => pure (internal, leftInternal)
  | .internal parentInternal =>
    match parentInternal.separatorBefore internal.id with
    | none => pure (internal, leftInternal)
    | some (pos, separator) =>
      let child := leftInternal.children.getLast?.toList
      adoptChildren internal.id child
      updateNode (.internal
        { parentInternal with
          keys := (leftInternal.keys.getLast?).elim parentInternal.keys
            (parentInternal.keys.set (pos - 1)) })
      pure
        ({ internal with
           keys := separator :: internal.keys, children := child ++ internal.children },
          { leftInternal with
            keys := leftInternal.keys.dropLast
            children := leftInternal.children.dropLast })

/-- Rotate one child from the right sibling through the parent. -/
def rotateFromRight (parentId : BTreeNodeId) (internal rightInternal : InternalNode K) :
    TreeM K V (InternalNode K × InternalNode K) := do
  match ← getNode parentId with
  | .leaf _ => pure (internal, rightInternal)
  | .internal parentInternal =>
    match parentInternal.separatorAfter internal.id with
    | none => pure (internal, rightInternal)
    | some (pos, separator) =>
      let child := rightInternal.children.head?.toList
      adoptChildren internal.id child
      updateNode (.internal
        { parentInternal with
          keys := (rightInternal.keys.head?).elim parentInternal.keys
            (parentInternal.keys.set pos) })
      pure
        ({ internal with
           keys := internal.keys ++ [separator], children := internal.children ++ child },
          { rightInternal with
            keys := rightInternal.keys.tail
            children := rightInternal.children.tail })

def borrowFromLeft (node : BPlusTreeNode K V) (leftSiblingId : BTreeNodeId) : TreeM K V Unit := do
  let leftSibling ← getNode leftSiblingId
  match node.parent with
  | none => throw (.error (.internal "Node has no parent"))
  | some parentId =>
    match node, leftSibling with
    | .leaf leaf, .leaf leftLeaf =>
      updateNode (.leaf { leftLeaf with entries := leftLeaf.entries.dropLast })
      updateNode (.leaf { leaf with entries := leftLeaf.entries.getLast?.toList ++ leaf.entries })
      updateSeparatorKey parentId node.id
    | .internal internal, .internal leftInternal =>
      let (internal, leftInternal) ← rotateFromLeft parentId internal leftInternal
      updateNode (.internal leftInternal)
      updateNode (.internal internal)
    | _, _ => throw (.error (.internal "Node type mismatch"))

def borrowFromRight (node : BPlusTreeNode K V) (rightSiblingId : BTreeNodeId) : TreeM K V Unit := do
  let rightSibling ← getNode rightSiblingId
  match node.parent with
  | none => throw (.error (.internal "Node has no parent"))
  | some parentId =>
    match node, rightSibling with
    | .leaf leaf, .leaf rightLeaf =>
      updateNode (.leaf { rightLeaf with entries := rightLeaf.entries.tail })
      updateNode (.leaf { leaf with entries := leaf.entries ++ rightLeaf.entries.head?.toList })
      updateSeparatorKey parentId rightSiblingId
    | .internal internal, .internal rightInternal =>
      let (internal, rightInternal) ← rotateFromRight parentId internal rightInternal
      updateNode (.internal rightInternal)
      updateNode (.internal internal)
    | _, _ => throw (.error (.internal "Node type mismatch"))

/-- Point the `prev` link of the leaf behind a merged one at `prevId`. -/
def relinkNext (next : Option BTreeNodeId) (prevId : BTreeNodeId) : TreeM K V Unit := do
  match next with
  | none => pure ()
  | some nextId =>
    match ← getNode nextId with
    | .leaf nextLeaf => updateNode (.leaf { nextLeaf with prev := some prevId })
    | .internal node => updateNode (.internal node)

/-- Merge node with its left sibling, which stays. -/
def mergeWithLeft (removeFromParent : BTreeNodeId → BTreeNodeId → TreeM K V Unit)
    (node : BPlusTreeNode K V) (leftSiblingId : BTreeNodeId) : TreeM K V Unit := do
  let leftSibling ← getNode leftSiblingId
  match node.parent with
  | none => throw (.error (.internal "Node has no parent"))
  | some parentId =>
    match node, leftSibling with
    | .leaf leaf, .leaf leftLeaf =>
      relinkNext leaf.next leftSiblingId
      updateNode (.leaf
        { leftLeaf with entries := leftLeaf.entries ++ leaf.entries, next := leaf.next })
    | .internal internal, .internal leftInternal =>
      -- The separator between the two nodes is pulled down from the parent.
      let separator : Option K := match ← getNode parentId with
        | .internal parentInternal => (parentInternal.separatorBefore node.id).map (·.2)
        | .leaf _ => none
      let merged : InternalNode K :=
        { leftInternal with
          keys := leftInternal.keys ++ separator.toList ++ internal.keys
          children := leftInternal.children ++ internal.children }
      adoptChildren leftSiblingId merged.children
      updateNode (.internal merged)
    | _, _ => throw (.error (.internal "Node type mismatch"))
    removeNode node.id
    removeFromParent parentId node.id

/-- Merge node with its right sibling, which goes away. -/
def mergeWithRight (removeFromParent : BTreeNodeId → BTreeNodeId → TreeM K V Unit)
    (node : BPlusTreeNode K V) (rightSiblingId : BTreeNodeId) : TreeM K V Unit := do
  let rightSibling ← getNode rightSiblingId
  match node.parent with
  | none => throw (.error (.internal "Node has no parent"))
  | some parentId =>
    match node, rightSibling with
    | .leaf leaf, .leaf rightLeaf =>
      relinkNext rightLeaf.next node.id
      updateNode (.leaf
        { leaf with entries := leaf.entries ++ rightLeaf.entries, next := rightLeaf.next })
    | .internal internal, .internal rightInternal =>
      let separator : Option K := match ← getNode parentId with
        | .internal parentInternal => (parentInternal.separatorAfter node.id).map (·.2)
        | .leaf _ => none
      let merged : InternalNode K :=
        { internal with
          keys := internal.keys ++ separator.toList ++ rightInternal.keys
          children := internal.children ++ rightInternal.children }
      adoptChildren node.id merged.children
      updateNode (.internal merged)
    | _, _ => throw (.error (.internal "Node type mismatch"))
    removeNode rightSiblingId
    removeFromParent parentId rightSiblingId

/-- Borrow from a sibling that has keys to spare, or merge with one. -/
def repairUnderflow (removeFromParent : BTreeNodeId → BTreeNodeId → TreeM K V Unit)
    (minKeys : Nat) (node : BPlusTreeNode K V) (left right : Option BTreeNodeId) :
    TreeM K V Unit := do
  if let some leftSiblingId := left then
    let leftSibling ← getNode leftSiblingId
    if minKeys < leftSibling.len then
      return ← borrowFromLeft node leftSiblingId
  if let some rightSiblingId := right then
    let rightSibling ← getNode rightSiblingId
    if minKeys < rightSibling.len then
      return ← borrowFromRight node rightSiblingId
  -- Can't borrow, must merge with a sibling.
  if let some leftSiblingId := left then
    return ← mergeWithLeft removeFromParent node leftSiblingId
  if let some rightSiblingId := right then
    return ← mergeWithRight removeFromParent node rightSiblingId
  updateNode node

/-- Handle node underflow after deletion by borrowing from siblings or merging. -/
def handleUnderflow (removeFromParent : BTreeNodeId → BTreeNodeId → TreeM K V Unit)
    (node : BPlusTreeNode K V) : TreeM K V Unit := do
  match node.parent with
  | none => throw (.error (.internal "Node has no parent"))
  | some parentId =>
    let parent ← getNode parentId
    let config := (← MonadState.get).config
    repairUnderflow removeFromParent config.minKeys node (getLeftSibling node parent)
      (getRightSibling node parent)

/-- Remove a child reference from its parent node. -/
def removeFromParent : Nat → BTreeNodeId → BTreeNodeId → TreeM K V Unit
  | 0, _, _ => throw .diverged
  | bound + 1, parentId, childId => do
    let parent : BPlusTreeNode K V := match ← getNode parentId with
      | .internal internal => .internal (internal.removeChild childId)
      | .leaf leaf => .leaf leaf
    match parent.parent, parent.getAllChildren with
    | none, [newRootId] =>
      -- The root has only one child left, which becomes the new root.
      let newRoot ← getNode newRootId
      updateNode (newRoot.setParent none)
      modify fun tree => tree.setRoot newRootId
      removeNode parentId
    | _, _ =>
      let config := (← MonadState.get).config
      if parent.len < config.minKeys ∧ parent.parent.isSome then
        handleUnderflow (removeFromParent bound) parent
      else
        updateNode parent

/-- Delete a key, reporting whether it was present. -/
def delete [LinearOrder K] (key : K) : TreeM K V Bool := do
  let tree ← MonadState.get
  let leafId ← findLeaf tree.loopBound tree.rootId key
  let leaf ← getNode leafId
  let (leaf, deleted) := leaf.deleteEntry key
  if deleted.isNone then
    pure false
  else
    if leaf.len < tree.config.minKeys ∧ leaf.parent.isSome then
      handleUnderflow (removeFromParent tree.loopBound) leaf
    else
      updateNode leaf
    pure true

def clear : TreeM K V Unit :=
  modify fun tree =>
    { tree with
      nodes := AList.singleton ⟨0⟩ (BPlusTreeNode.newLeaf ⟨0⟩)
      rootId := ⟨0⟩
      nextNodeId := 1
      leftmostLeaf := some ⟨0⟩ }

def getLeftmostLeaf : TreeM K V BTreeNodeId := do
  match (← MonadState.get).leftmostLeaf with
  | some leafId => pure leafId
  | none => throw (.error (.internal "No leftmost leaf"))

def getLeafEntries (leafId : BTreeNodeId) : TreeM K V (List (K × V)) := do
  match ← getNode leafId with
  | .leaf leaf => pure leaf.entries
  | .internal _ => throw (.error (.internal "Not a leaf node"))

/-- The next leaf node in the linked list. -/
def getNextLeaf (leafId : BTreeNodeId) : TreeM K V (Option BTreeNodeId) := do
  match ← getNode leafId with
  | .leaf leaf => pure leaf.next
  | .internal _ => throw (.error (.internal "Not a leaf node"))

/-- The previous leaf node in the linked list. -/
def getPrevLeaf (leafId : BTreeNodeId) : TreeM K V (Option BTreeNodeId) := do
  match ← getNode leafId with
  | .leaf leaf => pure leaf.prev
  | .internal _ => throw (.error (.internal "Not a leaf node"))

end BPlusTree

end Nanograph.BTree
