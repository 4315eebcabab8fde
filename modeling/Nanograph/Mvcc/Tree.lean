import Nanograph.BTree.Node
import Nanograph.Foundation.Bytes
import Nanograph.Foundation.SortedEntries

/-!
# Versioned values and their tree

The version chains of `nanograph-btree/src/mvcc.rs`, the leaf that holds one for every
key (`mvcc_node.rs`) and the tree of that one leaf (`mvcc_tree.rs`). What the leaf does
is described by the chains that its keys have.
-/

namespace Nanograph.Mvcc

open Foundation BTree

/-- A versioned value. No value is a deletion, and a commit timestamp of 0 means that the
version is not committed. -/
structure VersionedValue where
  value : Option Bytes
  createdTs : Nat
  commitTs : Nat
deriving DecidableEq

namespace VersionedValue

/-- A version that is not committed yet. -/
def new (value : Option Bytes) (createdTs : Nat) : VersionedValue := ⟨value, createdTs, 0⟩

def isVisible (version : VersionedValue) (snapshotTs : Nat) : Bool :=
  decide (version.commitTs > 0) && decide (version.commitTs ≤ snapshotTs)

/-- Whether a version is not committed. -/
def isUncommitted (version : VersionedValue) : Bool := decide (version.commitTs = 0)

end VersionedValue

/-- The versions of a key, newest first. -/
structure VersionChain where
  versions : List VersionedValue

namespace VersionChain

def withVersion (value : Bytes) (createdTs : Nat) : VersionChain :=
  ⟨[.new (some value) createdTs]⟩

def addVersion (chain : VersionChain) (value : Option Bytes) (createdTs : Nat) : VersionChain :=
  ⟨.new value createdTs :: chain.versions⟩

/-- The value that is visible at a snapshot. -/
def get (chain : VersionChain) (snapshotTs : Nat) : Option Bytes :=
  (chain.versions.find? (·.isVisible snapshotTs)).bind (·.value)

/-- The value that was committed last. -/
def getLatest (chain : VersionChain) : Option Bytes :=
  (chain.versions.find? (·.commitTs > 0)).bind (·.value)

def commitVersions (chain : VersionChain) (createdTs commitTs : Nat) : VersionChain :=
  ⟨chain.versions.map fun version =>
    if version.createdTs = createdTs ∧ version.isUncommitted then { version with commitTs }
    else version⟩

/-- Remove the versions of a transaction. -/
def rollbackVersions (chain : VersionChain) (createdTs : Nat) : VersionChain :=
  ⟨chain.versions.filter fun version => version.createdTs ≠ createdTs⟩

/-- The versions that a garbage collection keeps when it has kept some already: the first
one, and those that are newer than the snapshot as long as there are few. -/
def retainVersions (minSnapshotTs maxVersions : Nat) :
    Nat → List VersionedValue → List VersionedValue
  | _, [] => []
  | keepCount, version :: rest =>
    if keepCount = 0 then version :: retainVersions minSnapshotTs maxVersions 1 rest
    else if version.commitTs > minSnapshotTs ∧ keepCount < maxVersions then
      version :: retainVersions minSnapshotTs maxVersions (keepCount + 1) rest
    else retainVersions minSnapshotTs maxVersions keepCount rest

/-- Remove old versions. -/
def gcVersions (chain : VersionChain) (minSnapshotTs maxVersions : Nat) : VersionChain :=
  ⟨retainVersions minSnapshotTs maxVersions 0 chain.versions⟩

def isEmpty (chain : VersionChain) : Bool := chain.versions.isEmpty

/-- Whether there is a version that is not committed or was committed after a snapshot. -/
def hasConflict (chain : VersionChain) (snapshotTs : Nat) : Bool :=
  chain.versions.any fun version =>
    version.isUncommitted || decide (version.commitTs > snapshotTs)

end VersionChain

/-- A leaf with a chain of versions for every key. -/
structure MvccLeafNode where
  entries : List (Bytes × VersionChain)

namespace MvccLeafNode

/-- A leaf without entries. -/
def new : MvccLeafNode := ⟨[]⟩

/-- The index of a key, or the index at which it would be inserted. -/
def findKeyIndex (leaf : MvccLeafNode) (key : Bytes) : Except Nat Nat :=
  searchKey leaf.entries key

def chainAtIndex (leaf : MvccLeafNode) (idx : Nat) : VersionChain :=
  (leaf.entries[idx]?.map (·.2)).getD ⟨[]⟩

/-- Insert or update a key, returning the value committed last before. -/
def insert (leaf : MvccLeafNode) (key value : Bytes) (createdTs : Nat) :
    MvccLeafNode × Option Bytes :=
  match leaf.findKeyIndex key with
  | .ok idx =>
    (⟨leaf.entries.modify idx fun entry => (entry.1, entry.2.addVersion (some value) createdTs)⟩,
      (leaf.chainAtIndex idx).getLatest)
  | .error idx => (⟨leaf.entries.insertIdx idx (key, .withVersion value createdTs)⟩, none)

/-- Remove a key by a deletion marker, returning the value committed last before. -/
def remove (leaf : MvccLeafNode) (key : Bytes) (createdTs : Nat) : MvccLeafNode × Option Bytes :=
  match leaf.findKeyIndex key with
  | .ok idx =>
    (⟨leaf.entries.modify idx fun entry => (entry.1, entry.2.addVersion none createdTs)⟩,
      (leaf.chainAtIndex idx).getLatest)
  | .error _ => (leaf, none)

def get (leaf : MvccLeafNode) (key : Bytes) (snapshotTs : Nat) : Option Bytes :=
  match leaf.findKeyIndex key with
  | .ok idx => (leaf.chainAtIndex idx).get snapshotTs
  | .error _ => none

/-- Get the value committed last. -/
def getLatest (leaf : MvccLeafNode) (key : Bytes) : Option Bytes :=
  match leaf.findKeyIndex key with
  | .ok idx => (leaf.chainAtIndex idx).getLatest
  | .error _ => none

def mapChains (leaf : MvccLeafNode) (change : VersionChain → VersionChain) : MvccLeafNode :=
  ⟨leaf.entries.map fun entry => (entry.1, change entry.2)⟩

def commitVersions (leaf : MvccLeafNode) (createdTs commitTs : Nat) : MvccLeafNode :=
  leaf.mapChains (·.commitVersions createdTs commitTs)

/-- Remove the versions of a transaction, and the keys without versions then. -/
def rollbackVersions (leaf : MvccLeafNode) (createdTs : Nat) : MvccLeafNode :=
  ⟨(leaf.mapChains (·.rollbackVersions createdTs)).entries.filter (!·.2.isEmpty)⟩

/-- Remove old versions. -/
def gcVersions (leaf : MvccLeafNode) (minSnapshotTs maxVersionsPerKey : Nat) : MvccLeafNode :=
  leaf.mapChains (·.gcVersions minSnapshotTs maxVersionsPerKey)

/-- Whether a key was changed after a snapshot, or has versions that are not committed. -/
def hasConflict (leaf : MvccLeafNode) (key : Bytes) (snapshotTs : Nat) : Bool :=
  match leaf.findKeyIndex key with
  | .ok idx => (leaf.chainAtIndex idx).hasConflict snapshotTs
  | .error _ => false

/-- Apply one write of a transaction. No value is a deletion. -/
def applyWrite (createdTs : Nat) (leaf : MvccLeafNode) (write : Bytes × Option Bytes) :
    MvccLeafNode :=
  match write.2 with
  | some value => (leaf.insert write.1 value createdTs).1
  | none => (leaf.remove write.1 createdTs).1

end MvccLeafNode

/-- The tree: one leaf, and the least snapshot that a garbage collection goes by. -/
structure MvccBPlusTree where
  maxVersionsPerKey : Nat
  root : MvccLeafNode
  minSnapshotTs : Nat

namespace MvccBPlusTree

/-- A tree without entries. -/
def new (maxVersionsPerKey : Nat) : MvccBPlusTree := ⟨maxVersionsPerKey, .new, 0⟩

def get (tree : MvccBPlusTree) (key : Bytes) (snapshotTs : Nat) : Option Bytes :=
  tree.root.get key snapshotTs

/-- Get the value committed last. -/
def getLatest (tree : MvccBPlusTree) (key : Bytes) : Option Bytes :=
  tree.root.getLatest key

/-- Remove the versions of a transaction. -/
def rollbackVersions (tree : MvccBPlusTree) (createdTs : Nat) : MvccBPlusTree :=
  { tree with root := tree.root.rollbackVersions createdTs }

/-- Check for conflicts, apply the writes and commit their versions, all in one step. -/
def atomicCommit (tree : MvccBPlusTree) (writes : List (Bytes × Option Bytes))
    (snapshotTs createdTs commitTs : Nat) : Except BTreeError Unit × MvccBPlusTree :=
  match writes.find? fun write => tree.root.hasConflict write.1 snapshotTs with
  | some (key, _) =>
    (.error (.internal ("Write conflict detected for key: " ++ toString (key.map UInt8.toNat))),
      tree.rollbackVersions createdTs)
  | none =>
    (.ok (), { tree with
      root := (writes.foldl (MvccLeafNode.applyWrite createdTs) tree.root).commitVersions
        createdTs commitTs })

/-- Run a garbage collection. -/
def gcVersions (tree : MvccBPlusTree) : MvccBPlusTree :=
  { tree with root := tree.root.gcVersions tree.minSnapshotTs tree.maxVersionsPerKey }

end MvccBPlusTree

end Nanograph.Mvcc
