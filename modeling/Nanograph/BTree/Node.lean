import Nanograph.Foundation.BinarySearch

/-!
# B+Tree nodes

The node types of `nanograph-btree/src/node.rs` and their operations. Internal
nodes hold routing keys and child identifiers; leaf nodes hold the entries and
the links to the adjacent leaves. A vector is a list here and a `u64` node
identifier wraps a natural number. An index the source may take out of range is a
`none`, which the tree turns into `Fault.panicked`.
-/

namespace Nanograph.BTree

open Foundation

/-- Unique identifier for a node in the B+Tree. -/
structure BTreeNodeId where
  raw : Nat
deriving DecidableEq

/-- The B-tree errors that the modelled functions return, with their texts. -/
inductive BTreeError where
  | nodeNotFound
  | invalidOperation (message : String)
  | internal (message : String)
deriving DecidableEq

/-- Every way an operation can end without a result: a returned error, a panic,
or a loop that passes the bound under which a well-formed tree ends it. -/
inductive Fault where
  | error (error : BTreeError)
  | panicked
  | diverged
deriving DecidableEq

/-- Internal node: for `n` keys there are `n + 1` children. -/
structure InternalNode (K : Type) where
  id : BTreeNodeId
  keys : List K
  children : List BTreeNodeId
  parent : Option BTreeNodeId
deriving DecidableEq

/-- Leaf node: entries sorted by key, linked to the adjacent leaves. -/
structure LeafNode (K V : Type) where
  id : BTreeNodeId
  entries : List (K × V)
  next : Option BTreeNodeId
  prev : Option BTreeNodeId
  parent : Option BTreeNodeId
deriving DecidableEq

/-- A node in the B+Tree, either internal or leaf. -/
inductive BPlusTreeNode (K V : Type) where
  | internal (node : InternalNode K)
  | leaf (node : LeafNode K V)
deriving DecidableEq

variable {K V : Type}

namespace InternalNode

variable [LinearOrder K]

/-- The index of the child to descend into for `key`. -/
def findChildIndex (node : InternalNode K) (key : K) : Nat :=
  match binarySearchBy (fun k => cmp k key) node.keys with
  | .ok idx => idx + 1
  | .error idx => idx

/-- Insert a key and the child to its right. `Vec::insert` panics when the
child position is past the end of the children. -/
def insertKeyChild (node : InternalNode K) (key : K) (child : BTreeNodeId) :
    Option (InternalNode K) :=
  let idx := match binarySearchBy (fun k => cmp k key) node.keys with
    | .ok idx => idx
    | .error idx => idx
  if idx + 1 ≤ node.children.length then
    some { node with
      keys := node.keys.insertIdx idx key
      children := node.children.insertIdx (idx + 1) child }
  else none

omit [LinearOrder K] in
/-- Split into the node that stays, the key that moves up, and the new right
node, which still carries the old identifier. -/
def split (node : InternalNode K) : Option (InternalNode K × K × InternalNode K) :=
  let mid := node.keys.length / 2
  match node.keys[mid]? with
  | none => none
  | some middleKey =>
    if mid + 1 ≤ node.children.length then
      some
        ({ node with keys := node.keys.take mid, children := node.children.take (mid + 1) },
          middleKey,
          { id := node.id
            keys := node.keys.drop (mid + 1)
            children := node.children.drop (mid + 1)
            parent := node.parent })
    else none

end InternalNode

namespace LeafNode

variable [LinearOrder K]

/-- The index of a key in this leaf, or the index at which it would be inserted. -/
def findKeyIndex (leaf : LeafNode K V) (key : K) : Except Nat Nat :=
  binarySearchBy (fun entry => cmp entry.1 key) leaf.entries

/-- Insert or update a key-value pair, returning the value it replaces. -/
def insert (leaf : LeafNode K V) (key : K) (value : V) : LeafNode K V × Option V :=
  match leaf.findKeyIndex key with
  | .ok idx =>
    ({ leaf with entries := leaf.entries.modify idx fun entry => (entry.1, value) },
      leaf.entries[idx]?.map (·.2))
  | .error idx => ({ leaf with entries := leaf.entries.insertIdx idx (key, value) }, none)

/-- Remove a key-value pair, returning the removed value. -/
def remove (leaf : LeafNode K V) (key : K) : LeafNode K V × Option V :=
  match leaf.findKeyIndex key with
  | .ok idx =>
    ({ leaf with entries := leaf.entries.eraseIdx idx }, leaf.entries[idx]?.map (·.2))
  | .error _ => (leaf, none)

def get (leaf : LeafNode K V) (key : K) : Option V :=
  match leaf.findKeyIndex key with
  | .ok idx => leaf.entries[idx]?.map (·.2)
  | .error _ => none

omit [LinearOrder K] in
/-- Split into the leaf that stays, the separator, and the new right leaf, whose
identifier and `prev` link the caller replaces. -/
def split (leaf : LeafNode K V) : Option (LeafNode K V × K × LeafNode K V) :=
  let mid := leaf.entries.length / 2
  let rightEntries := leaf.entries.drop mid
  match rightEntries.head? with
  | none => none
  | some (middleKey, _) =>
    some
      ({ leaf with entries := leaf.entries.take mid }, middleKey,
        { id := leaf.id
          entries := rightEntries
          next := leaf.next
          prev := none
          parent := leaf.parent })

end LeafNode

namespace BPlusTreeNode

def newLeaf (id : BTreeNodeId) : BPlusTreeNode K V :=
  .leaf { id := id, entries := [], next := none, prev := none, parent := none }

/-- A new internal node with the given identifier. -/
def newInternal (id : BTreeNodeId) : InternalNode K :=
  { id := id, keys := [], children := [], parent := none }

def id : BPlusTreeNode K V → BTreeNodeId
  | .internal node => node.id
  | .leaf node => node.id

def parent : BPlusTreeNode K V → Option BTreeNodeId
  | .internal node => node.parent
  | .leaf node => node.parent

/-- Replace the stored parent identifier. -/
def setParent (parent : Option BTreeNodeId) : BPlusTreeNode K V → BPlusTreeNode K V
  | .internal node => .internal { node with parent := parent }
  | .leaf node => .leaf { node with parent := parent }

def isLeaf : BPlusTreeNode K V → Bool
  | .internal _ => false
  | .leaf _ => true

/-- The number of keys or entries in this node. -/
def len : BPlusTreeNode K V → Nat
  | .internal node => node.keys.length
  | .leaf node => node.entries.length

/-- Whether this node needs splitting. -/
def isFull (node : BPlusTreeNode K V) (order : Nat) : Bool := decide (node.len ≥ order)

def getAllChildren : BPlusTreeNode K V → List BTreeNodeId
  | .internal node => node.children
  | .leaf _ => []

/-- Split a leaf node. The new leaf is linked behind the old one; the leaf that
followed the old one is not touched. -/
def splitLeaf (newNodeId : BTreeNodeId) :
    BPlusTreeNode K V → Except Fault (BPlusTreeNode K V × K × BPlusTreeNode K V)
  | .leaf node =>
    match node.split with
    | none => .error .panicked
    | some (left, separatorKey, newLeaf) =>
      .ok (.leaf { left with next := some newNodeId }, separatorKey,
        .leaf { newLeaf with id := newNodeId, prev := some node.id, parent := node.parent })
  | .internal _ => .error (.error (.invalidOperation "Cannot split non-leaf node as leaf"))

def splitInternal (newNodeId : BTreeNodeId) :
    BPlusTreeNode K V → Except Fault (BPlusTreeNode K V × K × BPlusTreeNode K V)
  | .internal node =>
    match node.split with
    | none => .error .panicked
    | some (left, separatorKey, newInternal) =>
      .ok (.internal left, separatorKey,
        .internal { newInternal with id := newNodeId, parent := node.parent })
  | .leaf _ =>
    .error (.error (.invalidOperation "Cannot split non-internal node as internal"))

variable [LinearOrder K]

/-- Get a value from a leaf node. -/
def get (key : K) : BPlusTreeNode K V → Option V
  | .leaf node => node.get key
  | .internal _ => none

/-- Insert an entry into a leaf node. -/
def insertEntry (key : K) (value : V) : BPlusTreeNode K V → BPlusTreeNode K V × Option V
  | .leaf node => ((.leaf (node.insert key value).1), (node.insert key value).2)
  | .internal node => (.internal node, none)

def deleteEntry (key : K) : BPlusTreeNode K V → BPlusTreeNode K V × Option V
  | .leaf node => ((.leaf (node.remove key).1), (node.remove key).2)
  | .internal node => (.internal node, none)

/-- The child for a given key (internal nodes only). -/
def getChildForKey (key : K) : BPlusTreeNode K V → Option BTreeNodeId
  | .internal node => node.children[node.findChildIndex key]?
  | .leaf _ => none

/-- Insert a key and child into an internal node; a leaf is left as it is. -/
def insertInternalEntry (key : K) (child : BTreeNodeId) :
    BPlusTreeNode K V → Except Fault (BPlusTreeNode K V)
  | .internal node =>
    match node.insertKeyChild key child with
    | none => .error .panicked
    | some node => .ok (.internal node)
  | .leaf node => .ok (.leaf node)

end BPlusTreeNode

end Nanograph.BTree
