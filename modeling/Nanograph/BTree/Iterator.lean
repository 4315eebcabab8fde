import Nanograph.BTree.Tree
import Nanograph.Foundation.Range

/-!
# Iterating over a tree

The iterator of `nanograph-btree/src/iterator.rs`: it is positioned at an entry of
a leaf and moves along the entries of the leaf, then to the next leaf or, in
reverse, to the previous one. A fault stands for an item that is an error.
-/

namespace Nanograph.BTree

open BPlusTree Foundation

variable {K V : Type}

/-- Iterator over B+Tree entries. The index is `none` at `usize::MAX`, which is past
the end of every leaf. -/
structure BPlusTreeIterator (K V : Type) where
  currentLeaf : Option BTreeNodeId
  currentEntries : List (K × V)
  currentIndex : Option Nat
  endBound : Bound K
  reverse : Bool
  limit : Option Nat
  count : Nat

namespace BPlusTreeIterator

/-- A leaf, its entries and a position among them. -/
abbrev Position (K V : Type) := Option BTreeNodeId × List (K × V) × Nat

/-- Find the starting point for forward iteration. -/
def findForwardStart [LinearOrder K] (startBound : Bound K) : TreeM K V (Position K V) := do
  match startBound with
  | .unbounded =>
    let leafId ← getLeftmostLeaf
    let entries ← getLeafEntries leafId
    pure (some leafId, entries, 0)
  | .included key | .excluded key =>
    let tree ← MonadState.get
    let leafId ← findLeaf tree.loopBound tree.rootId key
    let entries ← getLeafEntries leafId
    let startIndex := match binarySearchBy (fun entry => cmp entry.1 key) entries with
      | .ok idx => idx
      | .error idx => idx
    let startIndex := match startBound with
      | .excluded _ =>
        if (entries[startIndex]?).any (·.1 = key) then startIndex + 1 else startIndex
      | _ => startIndex
    pure (some leafId, entries, startIndex)

/-- The index of the last entry, or 0 when there is none. -/
def lastIndex (entries : List (K × V)) : Nat :=
  if entries.isEmpty then 0 else entries.length - 1

/-- Follow the `next` links to the last leaf. -/
def findRightmostLeaf : Nat → BTreeNodeId → TreeM K V BTreeNodeId
  | 0, _ => throw .diverged
  | bound + 1, leafId => do
    match ← getNextLeaf leafId with
    | some nextId => findRightmostLeaf bound nextId
    | none => pure leafId

def endOfPrevLeaf (leafId : BTreeNodeId) : TreeM K V (Position K V) := do
  match ← getPrevLeaf leafId with
  | some prevId =>
    let prevEntries ← getLeafEntries prevId
    pure (some prevId, prevEntries, lastIndex prevEntries)
  | none => pure (none, [], 0)

/-- Find the starting point for reverse iteration. -/
def findReverseStart [LinearOrder K] (endBound : Bound K) : TreeM K V (Position K V) := do
  match endBound with
  | .unbounded =>
    let tree ← MonadState.get
    let leafId ← findRightmostLeaf tree.loopBound (← getLeftmostLeaf)
    let entries ← getLeafEntries leafId
    pure (some leafId, entries, lastIndex entries)
  | .included key | .excluded key =>
    let tree ← MonadState.get
    let leafId ← findLeaf tree.loopBound tree.rootId key
    let entries ← getLeafEntries leafId
    match binarySearchBy (fun entry => cmp entry.1 key) entries, endBound with
    | .ok idx, .included _ => pure (some leafId, entries, idx)
    | .ok idx, _ =>
      if idx = 0 then endOfPrevLeaf leafId else pure (some leafId, entries, idx - 1)
    | .error idx, _ =>
      if idx = 0 then endOfPrevLeaf leafId else pure (some leafId, entries, idx - 1)

/-- Create an iterator. The start bound only positions a forward iterator. -/
def new [LinearOrder K] (startBound endBound : Bound K) (reverse : Bool) (limit : Option Nat) :
    TreeM K V (BPlusTreeIterator K V) := do
  let (currentLeaf, currentEntries, currentIndex) ←
    if reverse then findReverseStart endBound else findForwardStart startBound
  pure { currentLeaf, currentEntries, currentIndex := some currentIndex, endBound, reverse, limit,
         count := 0 }

def isWithinEndBound [LinearOrder K] (iterator : BPlusTreeIterator K V) (key : K) : Bool :=
  iterator.endBound.upToEnd key

/-- The entry at the index, unless that is past the end. -/
def entryAtIndex (iterator : BPlusTreeIterator K V) : Option (K × V) :=
  iterator.currentIndex.bind (iterator.currentEntries[·]?)

/-- Count the entry and move the index in the direction of the iteration. -/
def advance (iterator : BPlusTreeIterator K V) : BPlusTreeIterator K V :=
  { iterator with
    count := iterator.count + 1
    currentIndex :=
      if iterator.reverse then
        match iterator.currentIndex with
        | some (idx + 1) => some idx
        | _ => none
      else iterator.currentIndex.map (· + 1) }

/-- No further entry. -/
def ended (iterator : BPlusTreeIterator K V) : BPlusTreeIterator K V :=
  { iterator with currentLeaf := none }

/-- The leaf to move to after the given one. -/
def nextLeaf (iterator : BPlusTreeIterator K V) (leafId : BTreeNodeId) :
    TreeM K V (Option BTreeNodeId) :=
  if iterator.reverse then getPrevLeaf leafId else getNextLeaf leafId

/-- The loop of `poll_next`. -/
def pollLoop [LinearOrder K] : Nat → BPlusTreeIterator K V →
    TreeM K V (Option (K × V) × BPlusTreeIterator K V)
  | 0, _ => throw .diverged
  | bound + 1, iterator => do
    if iterator.limit.any (· ≤ iterator.count) then
      return (none, iterator)
    match iterator.currentLeaf with
    | none => pure (none, iterator)
    | some leafId =>
      if iterator.currentEntries.isEmpty then
        pure (none, iterator.ended)
      else
        match iterator.entryAtIndex with
        | none =>
          match ← iterator.nextLeaf leafId with
          | some nextId =>
            let entries ← getLeafEntries nextId
            if entries.isEmpty then
              -- Meant to skip an empty leaf, but the next round ends on it.
              pollLoop bound { iterator with currentLeaf := some nextId, currentEntries := entries }
            else
              pollLoop bound
                { iterator with
                  currentLeaf := some nextId
                  currentEntries := entries
                  currentIndex := some (if iterator.reverse then entries.length - 1 else 0) }
          | none => pure (none, iterator.ended)
        | some entry =>
          if !iterator.reverse && !iterator.isWithinEndBound entry.1 then
            pure (none, iterator.ended)
          else
            pure (some entry, iterator.advance)

/-- The next item. A round that moves to another leaf is followed by one that
returns, so two rounds are enough. -/
def pollNext [LinearOrder K] (iterator : BPlusTreeIterator K V) :
    TreeM K V (Option (K × V) × BPlusTreeIterator K V) :=
  pollLoop 2 iterator

/-- Poll until there is no further entry. -/
def drain [LinearOrder K] : Nat → BPlusTreeIterator K V → TreeM K V (List (K × V))
  | 0, _ => throw .diverged
  | bound + 1, iterator => do
    match ← pollNext iterator with
    | (some entry, next) => return entry :: (← drain bound next)
    | (none, _) => pure []

/-- Create an iterator and poll it until there is no further entry. -/
def scan [LinearOrder K] (bound : Nat) (startBound endBound : Bound K) (reverse : Bool)
    (limit : Option Nat) : TreeM K V (List (K × V)) := do
  let iterator ← new startBound endBound reverse limit
  drain bound iterator

end BPlusTreeIterator

end Nanograph.BTree
